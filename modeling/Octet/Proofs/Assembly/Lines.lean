import Mathlib.Data.List.Forall2
import Octet.Proofs.Assembly.Content
import Octet.Proofs.Assembly.Forms

namespace Octet

section MapM

variable {ε α β : Type} {f : α → Except ε β} {l before : List α} {bs : List β} {a : α} {e : ε}

theorem mapM_cons_eq (a : α) (l : List α) : (a :: l).mapM f =
    match f a, l.mapM f with
    | .error e, _ => .error e
    | .ok _, .error e => .error e
    | .ok b, .ok bs => .ok (b :: bs) := by
  rw [List.mapM_cons]
  cases f a with
  | error e => rfl
  | ok b => cases l.mapM f <;> rfl

theorem mapM_of_forall₂ (h : List.Forall₂ (fun a b => f a = .ok b) l bs) :
    l.mapM f = .ok bs := by
  induction h with
  | nil => rfl
  | cons ha _ ih => rw [mapM_cons_eq, ha, ih]

theorem mapM_of_error (hb : List.Forall₂ (fun a b => f a = .ok b) before bs)
    (he : f a = .error e) (after : List α) : (before ++ a :: after).mapM f = .error e := by
  induction hb with
  | nil => rw [List.nil_append, mapM_cons_eq, he]
  | cons ha _ ih => rw [List.cons_append, mapM_cons_eq, ha, ih]

/-- Either all elements have results, or one is the first that has none. -/
theorem forall₂_or_error (f : α → Except ε β) (l : List α) :
    (∃ bs, List.Forall₂ (fun a b => f a = .ok b) l bs) ∨
      ∃ e before a after bs, l = before ++ a :: after ∧
        List.Forall₂ (fun a b => f a = .ok b) before bs ∧ f a = .error e := by
  induction l with
  | nil => exact .inl ⟨[], .nil⟩
  | cons a l ih =>
    cases ha : f a with
    | error e => exact .inr ⟨e, [], a, l, [], rfl, .nil, ha⟩
    | ok b =>
      obtain ⟨bs, h⟩ | ⟨e, before, c, after, bs, rfl, hb, he⟩ := ih
      · exact .inl ⟨b :: bs, .cons ha h⟩
      · exact .inr ⟨e, a :: before, c, after, b :: bs, rfl, .cons ha hb, he⟩

/-- The first element that fails makes the whole fail. -/
theorem mapM_eq_iff (f : α → Except ε β) (l : List α) :
    (∀ bs, l.mapM f = .ok bs ↔ List.Forall₂ (fun a b => f a = .ok b) l bs) ∧
      ∀ e, l.mapM f = .error e ↔ ∃ before a after bs, l = before ++ a :: after ∧
        List.Forall₂ (fun a b => f a = .ok b) before bs ∧ f a = .error e := by
  refine eq_iff_of_total (fun _ => mapM_of_forall₂) ?_ (forall₂_or_error f l)
  rintro e ⟨before, a, after, bs, rfl, hb, he⟩
  exact mapM_of_error hb he after

end MapM

namespace Instruction

variable {line name : List Char} {words : List (List Char)}

/-- An instruction as it is written: an opcode in capital or small letters and the operands behind
it, with blanks and commas between them. -/
inductive Spells : List Char → Instruction → Prop
  | intro {line name : List Char} {words : List (List Char)} {opcode : Opcode}
      {operands : List Operand} (hw : Text.Words Assembly.isGap line (name :: words))
      (hn : opcode.name.toList = name.map Char.toLower)
      (ho : List.Forall₂ Operand.Spells words operands) : Spells line ⟨opcode, operands⟩

/-- What is wrong with a line that writes no instruction: its opcode, or else the first of its
operands that has none of the forms. -/
inductive Misspells : List Char → AssemblyError → Prop
  | opcode {line : List Char} {words : List (List Char)} (hw : Text.Words Assembly.isGap line words)
      (hn : ∀ opcode : Opcode, opcode.name.toList ≠ (words.headD []).map Char.toLower) :
      Misspells line (.unknownOpcode (String.ofList ((words.headD []).map Char.toLower)))
  | operand {line name word : List Char} {before after : List (List Char)} {opcode : Opcode}
      {operands : List Operand} {e : AssemblyError}
      (hw : Text.Words Assembly.isGap line (name :: before ++ word :: after))
      (hn : opcode.name.toList = name.map Char.toLower)
      (hb : List.Forall₂ Operand.Spells before operands) (he : Operand.Misspells word e) :
      Misspells line e

theorem read_of_words (hw : Text.Words Assembly.isGap line words) : read line =
    match Opcode.named? (words.headD []) with
    | some opcode => (words.tail.mapM Operand.read).map fun operands => ⟨opcode, operands⟩
    | none => .error (.unknownOpcode (String.ofList ((words.headD []).map Char.toLower))) := by
  have hf : Text.fields (fun c => Text.isBlank c || c == ',') line = words := hw.fields_eq
  simp only [read, hf]
  cases Opcode.named? (words.headD []) with
  | none => rfl
  | some opcode => cases words.tail.mapM Operand.read <;> rfl

theorem mapM_read_eq_ok_iff {operands : List Operand} :
    words.mapM Operand.read = .ok operands ↔ List.Forall₂ Operand.Spells words operands := by
  rw [(mapM_eq_iff _ _).1]
  simp only [Operand.read_eq_ok_iff]

theorem mapM_read_eq_error_iff {e : AssemblyError} : words.mapM Operand.read = .error e ↔
    ∃ before word after operands, words = before ++ word :: after ∧
      List.Forall₂ Operand.Spells before operands ∧ Operand.Misspells word e := by
  rw [(mapM_eq_iff _ _).2]
  simp only [Operand.read_eq_ok_iff, Operand.read_eq_error_iff]

theorem read_of_spells {i : Instruction} (h : Spells line i) : read line = .ok i := by
  obtain ⟨hw, hn, ho⟩ := h
  rw [read_of_words hw, List.headD_cons, Opcode.named?_eq_some_iff.2 hn, List.tail_cons,
    mapM_read_eq_ok_iff.2 ho]
  rfl

theorem named?_eq_none {word : List Char}
    (h : ∀ opcode : Opcode, opcode.name.toList ≠ word.map Char.toLower) :
    Opcode.named? word = none :=
  Option.eq_none_iff_forall_ne_some.2 fun opcode ho => h opcode (Opcode.named?_eq_some_iff.1 ho)

theorem read_of_misspells {e : AssemblyError} (h : Misspells line e) : read line = .error e := by
  cases h with
  | opcode hw hn => rw [read_of_words hw, named?_eq_none hn]
  | operand hw hn hb he =>
    rw [read_of_words hw, List.cons_append, List.headD_cons, Opcode.named?_eq_some_iff.2 hn,
      List.tail_cons, mapM_read_eq_error_iff.2 ⟨_, _, _, _, rfl, hb, he⟩]
    rfl

theorem spells_or_misspells (line : List Char) :
    (∃ i, Spells line i) ∨ ∃ e, Misspells line e := by
  have hw := Text.words_fields Assembly.isGap line
  generalize Text.fields Assembly.isGap line = words at hw
  by_cases hn : ∃ opcode : Opcode, opcode.name.toList = (words.headD []).map Char.toLower
  · obtain ⟨opcode, hn⟩ := hn
    cases words with
    | nil => exact absurd hn opcode.name_ne_nil
    | cons name words =>
      cases hm : words.mapM Operand.read with
      | ok operands => exact .inl ⟨_, .intro hw hn (mapM_read_eq_ok_iff.1 hm)⟩
      | error e =>
        obtain ⟨before, word, after, operands, rfl, hb, he⟩ := mapM_read_eq_error_iff.1 hm
        exact .inr ⟨e, .operand hw hn hb he⟩
  · exact .inr ⟨_, .opcode hw (not_exists.1 hn)⟩

/-- A line is read as an instruction exactly if it writes one. -/
theorem read_eq_ok_iff {i : Instruction} : read line = .ok i ↔ Spells line i :=
  (eq_iff_of_total (fun _ => read_of_spells) (fun _ => read_of_misspells)
    (spells_or_misspells line)).1 i

theorem read_eq_error_iff {e : AssemblyError} : read line = .error e ↔ Misspells line e :=
  (eq_iff_of_total (fun _ => read_of_spells) (fun _ => read_of_misspells)
    (spells_or_misspells line)).2 e

end Instruction

namespace Assembly

variable {line : List Char}

section Comment

variable {s body text rest : List Char}

/-- Part of a line in which no comment begins and every text is closed. -/
inductive Closed : List Char → Prop
  | nil : Closed []
  | plain {c : Char} {s : List Char} (hq : c ≠ '"') (hs : c ≠ ';') (h : Closed s) : Closed (c :: s)
  | text {body text s : List Char} (hb : Text.Escapes body text) (h : Closed s) :
      Closed ('"' :: (body ++ '"' :: s))

/-- A line and what is left of it without a comment. A semicolon in a text begins none, not even if
the text is not closed. -/
inductive Uncomments : List Char → List Char → Prop
  | whole {s : List Char} (h : Closed s) : Uncomments s s
  | comment {s : List Char} (h : Closed s) (rest : List Char) : Uncomments (s ++ ';' :: rest) s
  | unclosed {s body text : List Char} (h : Closed s) (hb : Text.Escapes body text) :
      Uncomments (s ++ '"' :: body) (s ++ '"' :: body)
  | dangling {s body text : List Char} (h : Closed s) (hb : Text.Escapes body text) :
      Uncomments (s ++ '"' :: (body ++ ['\\'])) (s ++ '"' :: (body ++ ['\\']))

theorem uncomment_of_escapes (hb : Text.Escapes body text) (rest : List Char) :
    uncomment true false (body ++ rest) = body ++ uncomment true false rest := by
  induction hb with
  | nil => rfl
  | plain hq hb _ ih => simp [uncomment, hq, hb, ih]
  | escaped c _ ih => simp [uncomment, ih]

theorem uncomment_of_closed (h : Closed s) (rest : List Char) :
    uncomment false false (s ++ rest) = s ++ uncomment false false rest := by
  induction h with
  | nil => rfl
  | plain hq hs _ ih => simp [uncomment, hq, hs, ih]
  | text hb _ ih => simp [uncomment, uncomment_of_escapes hb, ih]

/-- A text goes to its closing mark, or to the end of the line if it has none. -/
theorem escapes_or (s : List Char) :
    (∃ body text rest, Text.Escapes body text ∧ s = body ++ '"' :: rest) ∨
      ∃ body text, Text.Escapes body text ∧ (s = body ∨ s = body ++ ['\\']) := by
  induction s using Text.unescape?.induct with
  | case1 => exact .inr ⟨[], [], .nil, .inl rfl⟩
  | case2 s => exact .inl ⟨[], [], s, .nil, rfl⟩
  | case3 => exact .inr ⟨[], [], .nil, .inr rfl⟩
  | case4 d s _ ih =>
    obtain ⟨body, text, rest, hb, rfl⟩ | ⟨body, text, hb, hs⟩ := ih
    · exact .inl ⟨_, _, rest, .escaped d hb, rfl⟩
    · exact .inr ⟨_, _, .escaped d hb, by obtain rfl | rfl := hs <;> simp⟩
  | case5 c s hq hc ih =>
    obtain ⟨body, text, rest, hb, rfl⟩ | ⟨body, text, hb, hs⟩ := ih
    · exact .inl ⟨_, _, rest, .plain hq hc hb, rfl⟩
    · exact .inr ⟨_, _, .plain hq hc hb, by obtain rfl | rfl := hs <;> simp⟩

theorem Uncomments.append (front : List Char) (hf : ∀ {s}, Closed s → Closed (front ++ s))
    (h : Uncomments line s) : Uncomments (front ++ line) (front ++ s) := by
  cases h with
  | whole h => exact .whole (hf h)
  | comment h rest => exact List.append_assoc .. ▸ .comment (hf h) rest
  | unclosed h hb => exact List.append_assoc .. ▸ .unclosed (hf h) hb
  | dangling h hb => exact List.append_assoc .. ▸ .dangling (hf h) hb

theorem Uncomments.eq (h : Uncomments line s) : uncommented line = s := by
  have hnil : ∀ {s}, Closed s → uncommented s = s := fun h => by
    simpa [uncommented, uncomment] using uncomment_of_closed h []
  cases h with
  | whole h => exact hnil h
  | comment h rest =>
    rw [uncommented, uncomment_of_closed h]
    simp [uncomment]
  | unclosed h hb =>
    have he := uncomment_of_escapes hb []
    simp only [List.append_nil] at he
    rw [uncommented, uncomment_of_closed h]
    simp [uncomment, he]
  | dangling h hb =>
    rw [uncommented, uncomment_of_closed h]
    simp [uncomment, uncomment_of_escapes hb]

theorem exists_uncomments (line : List Char) : ∃ s, Uncomments line s := by
  induction hn : line.length using Nat.strong_induction_on generalizing line with
  | _ n ih =>
    cases line with
    | nil => exact ⟨_, .whole .nil⟩
    | cons c s =>
      by_cases hc : c = ';'
      · subst hc
        exact ⟨[], .comment .nil s⟩
      by_cases hq : c = '"'
      · subst hq
        obtain ⟨body, text, rest, hb, rfl⟩ | ⟨body, text, hb, hs⟩ := escapes_or s
        · obtain ⟨s, hs⟩ := ih rest.length (by simp [← hn]; omega) rest rfl
          have hf := hs.append ('"' :: (body ++ ['"'])) fun h => by simpa using Closed.text hb h
          exact ⟨_, by simpa using hf⟩
        · obtain rfl | rfl := hs
          · exact ⟨_, .unclosed .nil hb⟩
          · exact ⟨_, .dangling .nil hb⟩
      · obtain ⟨s', hs⟩ := ih s.length (by simp [← hn]) s rfl
        exact ⟨_, hs.append [c] (Closed.plain hq hc)⟩

/-- A comment begins at the first semicolon that is no part of a text. -/
theorem uncommented_eq_iff : uncommented line = s ↔ Uncomments line s := by
  refine ⟨fun h => ?_, Uncomments.eq⟩
  obtain ⟨s', hs⟩ := exists_uncomments line
  rwa [← h, hs.eq]

end Comment

/-- A data entry as it is written: a key, a colon and a text between quotation marks, with blanks
around them. -/
inductive IsEntry : List Char → String → String → Prop
  | intro {left key before after body text right : List Char}
      (hl : ∀ c ∈ left, Text.isBlank c = true) (hk : key ≠ [])
      (hw : ∀ c ∈ key, c.isAlphanum = true ∨ c = '_')
      (hb : ∀ c ∈ before, Text.isBlank c = true) (ha : ∀ c ∈ after, Text.isBlank c = true)
      (he : Text.Escapes body text) (hr : ∀ c ∈ right, Text.isBlank c = true) :
      IsEntry (left ++ key ++ before ++ ':' :: (after ++ '"' :: (body ++ '"' :: right)))
        (String.ofList key) (String.ofList text)

theorem isEntry_of_eq_some {key text : String} (h : entry? line = some (key, text)) :
    IsEntry line key text := by
  obtain ⟨left, before, hleft, hbefore, hfront⟩ :=
    Text.exists_margins (line.takeWhile (· != ':'))
  unfold entry? at h
  dsimp only at h
  generalize Text.trim (line.takeWhile (· != ':')) = key at h hfront
  split at h
  · cases h
  next hk =>
  obtain ⟨hn, hw⟩ : key ≠ [] ∧ ∀ c ∈ key, c.isAlphanum = true ∨ c = '_' := by
    simpa [or_iff_not_imp_left] using hk
  split at h
  · cases h
  next c rest hd =>
  obtain ⟨after, right, hafter, hright, hback⟩ := Text.exists_margins rest
  split at h
  next quoted ht =>
    split at h
    · next hl =>
      obtain ⟨text, hu, ⟨⟩⟩ := Option.map_eq_some_iff.1 h
      obtain ⟨body, rfl⟩ := List.getLast?_eq_some_iff.1 hl
      rw [List.dropLast_concat] at hu
      obtain rfl : c = ':' := by
        have := List.head?_dropWhile_not (· != ':') line
        simpa [hd] using this
      have hline : line =
          left ++ key ++ before ++ ':' :: (after ++ '"' :: (body ++ '"' :: right)) := by
        rw [ht] at hback
        rw [← List.takeWhile_append_dropWhile (p := (· != ':')) (l := line), hd, ← hfront, hback]
        simp
      rw [hline]
      exact .intro hleft hn hw hbefore hafter (Text.unescape?_eq_some_iff.1 hu) hright
    · cases h
  · cases h

theorem isBlank_of_isWord {c : Char} (h : c.isAlphanum = true ∨ c = '_') :
    Text.isBlank c = false := by
  obtain h | rfl := h
  · exact isBlank_of_isMark (by simp [isMark, h])
  · rfl

theorem entry?_of_isEntry {key text : String} (h : IsEntry line key text) :
    entry? line = some (key, text) := by
  obtain ⟨hl, hk, hw, hb, ha, he, hr⟩ := h
  rename_i left key before after body text right
  have hcolon : ∀ c ∈ left ++ key ++ before, (c != ':') = true := by
    intro c hc
    refine bne_iff_ne.2 fun h => ?_
    subst h
    simp only [List.mem_append] at hc
    obtain (hc | hc) | hc := hc
    · exact absurd (hl _ hc) (by decide)
    · exact absurd (hw _ hc) (by decide)
    · exact absurd (hb _ hc) (by decide)
  have hkey : Text.trim (left ++ key ++ before) = key :=
    Text.trim_margins hl hb (fun c hc => isBlank_of_isWord (hw c (List.mem_of_head? hc)))
      fun c hc => isBlank_of_isWord (hw c (List.mem_of_getLast? hc))
  have hquoted : Text.trim (after ++ '"' :: (body ++ '"' :: right)) = '"' :: (body ++ ['"']) := by
    have hs : after ++ '"' :: (body ++ '"' :: right) =
        after ++ ('"' :: (body ++ ['"'])) ++ right := by simp
    rw [hs]
    refine Text.trim_margins ha hr (by simp; rfl) ?_
    rw [← List.cons_append, List.getLast?_concat]
    rintro _ ⟨⟩
    rfl
  have hcond : (key.isEmpty || !key.all fun c => c.isAlphanum || c == '_') = false := by
    simpa [hk] using hw
  have ht : (left ++ key ++ before ++ ':' :: (after ++ '"' :: (body ++ '"' :: right))).takeWhile
      (· != ':') = left ++ key ++ before := by
    rw [List.takeWhile_append_of_pos hcolon, List.takeWhile_cons_of_neg (by simp), List.append_nil]
  have hd : (left ++ key ++ before ++ ':' :: (after ++ '"' :: (body ++ '"' :: right))).dropWhile
      (· != ':') = ':' :: (after ++ '"' :: (body ++ '"' :: right)) := by
    rw [List.dropWhile_append_of_pos hcolon, List.dropWhile_cons_of_neg (by simp)]
  simp only [ht, entry?, hd, hkey, hquoted, hcond, List.getLast?_concat, List.dropLast_concat,
    Text.unescape?_eq_some_iff.2 he, Bool.false_eq_true, if_false, if_true, Option.map_some]

theorem entry?_eq_some_iff {key text : String} :
    entry? line = some (key, text) ↔ IsEntry line key text :=
  ⟨isEntry_of_eq_some, entry?_of_isEntry⟩

end Assembly

end Octet
