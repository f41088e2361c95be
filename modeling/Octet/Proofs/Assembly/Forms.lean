import Octet.Assembly.Reader
import Octet.Proofs.Assembly.Spelling

namespace Octet

/-- A result that answers to what is right and to what is wrong, of which there is always one, does
so exactly. -/
theorem eq_iff_of_total {ε α : Type} {result : Except ε α} {right : α → Prop} {wrong : ε → Prop}
    (hr : ∀ a, right a → result = .ok a) (hw : ∀ e, wrong e → result = .error e)
    (ht : (∃ a, right a) ∨ ∃ e, wrong e) :
    (∀ a, result = .ok a ↔ right a) ∧ ∀ e, result = .error e ↔ wrong e := by
  obtain ⟨a, ha⟩ | ⟨e, he⟩ := ht
  · obtain rfl := hr a ha
    refine ⟨fun b => ⟨fun h => Except.ok.inj h ▸ ha, hr b⟩, fun e => ⟨nofun, fun h => ?_⟩⟩
    cases hw e h
  · obtain rfl := hw e he
    refine ⟨fun a => ⟨nofun, fun h => ?_⟩, fun d => ⟨fun h => Except.error.inj h ▸ he, hw d⟩⟩
    cases hr a h

namespace Text

variable {s t : List Char}

/-- A text as it is written between quotation marks: a backslash has a character behind it, and no
quotation mark stands without a backslash before it. -/
inductive Escapes : List Char → List Char → Prop
  | nil : Escapes [] []
  | plain {c : Char} {s t : List Char} (hq : c ≠ '"') (hb : c ≠ '\\') (h : Escapes s t) :
      Escapes (c :: s) (c :: t)
  | escaped (c : Char) {s t : List Char} (h : Escapes s t) :
      Escapes ('\\' :: c :: s) (escaped c :: t)

theorem escapes_of_unescape? (h : unescape? s = some t) : Escapes s t := by
  fun_induction unescape? s generalizing t with
  | case1 =>
    cases h
    exact .nil
  | case2 s => cases h
  | case3 hq => cases h
  | case4 d s hq ih =>
    obtain ⟨t, ht, rfl⟩ := Option.map_eq_some_iff.1 h
    exact .escaped d (ih ht)
  | case5 c s hq hb ih =>
    obtain ⟨t, ht, rfl⟩ := Option.map_eq_some_iff.1 h
    exact .plain hq hb (ih ht)

theorem unescape?_eq_some_iff : unescape? s = some t ↔ Escapes s t := by
  refine ⟨escapes_of_unescape?, fun h => ?_⟩
  induction h with
  | nil => rfl
  | plain hq hb _ ih =>
    rw [unescape?.eq_def]
    simp [hq, hb, ih]
  | escaped c _ ih => simp [unescape?, ih]

theorem escapes_escape (s : List Char) : Escapes (escape s) s :=
  unescape?_eq_some_iff.1 (unescape?_escape s)

/-- What trimming leaves is the middle of a text between blanks. -/
theorem exists_margins (s : List Char) : ∃ left right, (∀ c ∈ left, isBlank c = true) ∧
    (∀ c ∈ right, isBlank c = true) ∧ s = left ++ trim s ++ right := by
  let rest := s.dropWhile isBlank
  refine ⟨s.takeWhile isBlank, (rest.reverse.takeWhile isBlank).reverse, ?_, ?_, ?_⟩
  · exact fun c hc => List.mem_takeWhile_imp hc
  · exact fun c hc => List.mem_takeWhile_imp (List.mem_reverse.1 hc)
  · have hr : trim s ++ (rest.reverse.takeWhile isBlank).reverse = rest := by
      rw [trim, trimEnd, ← List.reverse_append, List.takeWhile_append_dropWhile,
        List.reverse_reverse]
    rw [List.append_assoc, hr, List.takeWhile_append_dropWhile]

/-- A whole number in decimal digits, with a sign or without one, that has room in 64 bits. -/
inductive IsInteger : List Char → Int → Prop
  | plain {digits : List Char} (hn : digits ≠ []) (hd : ∀ c ∈ digits, c.isDigit = true)
      (hb : isInt64 (decimal digits) = true) : IsInteger digits (decimal digits)
  | plus {digits : List Char} (hn : digits ≠ []) (hd : ∀ c ∈ digits, c.isDigit = true)
      (hb : isInt64 (decimal digits) = true) : IsInteger ('+' :: digits) (decimal digits)
  | minus {digits : List Char} (hn : digits ≠ []) (hd : ∀ c ∈ digits, c.isDigit = true)
      (hb : isInt64 (-decimal digits) = true) : IsInteger ('-' :: digits) (-decimal digits)

theorem signed_eq_some_iff {sign i : Int} {digits : List Char} : signed sign digits = some i ↔
    digits ≠ [] ∧ (∀ c ∈ digits, c.isDigit = true) ∧ isInt64 (sign * decimal digits) = true ∧
      sign * decimal digits = i := by
  rw [signed]
  split
  · next h =>
    have hn : digits = [] ∨ ¬∀ c ∈ digits, c.isDigit = true := by simpa using h
    simp only [reduceCtorEq, false_iff]
    rintro ⟨hd, hall, -⟩
    exact hn.elim hd (absurd hall)
  · next h =>
    have hn : digits ≠ [] ∧ ∀ c ∈ digits, c.isDigit = true := by simpa using h
    rw [Option.filter_eq_some_iff, Option.some.injEq]
    constructor
    · rintro ⟨rfl, hb⟩
      exact ⟨hn.1, hn.2, hb, rfl⟩
    · rintro ⟨-, -, hb, rfl⟩
      exact ⟨rfl, hb⟩

theorem readInt_eq_some_iff {i : Int} : readInt s = some i ↔ IsInteger s i := by
  constructor
  · intro h
    unfold readInt at h
    split at h
    · obtain ⟨hn, hd, hb, rfl⟩ := signed_eq_some_iff.1 h
      rw [Int.neg_one_mul] at hb ⊢
      exact .minus hn hd hb
    · obtain ⟨hn, hd, hb, rfl⟩ := signed_eq_some_iff.1 h
      rw [Int.one_mul] at hb ⊢
      exact .plus hn hd hb
    · obtain ⟨hn, hd, hb, rfl⟩ := signed_eq_some_iff.1 h
      rw [Int.one_mul] at hb ⊢
      exact .plain hn hd hb
  · intro h
    cases h with
    | plus hn hd hb => exact signed_eq_some_iff.2 ⟨hn, hd, by rw [Int.one_mul, hb], Int.one_mul _⟩
    | minus hn hd hb =>
      exact signed_eq_some_iff.2 ⟨hn, hd, by rw [Int.neg_one_mul, hb], Int.neg_one_mul _⟩
    | plain hn hd hb =>
      have hs : readInt s = signed 1 s := by
        unfold readInt
        split
        · exact absurd (hd '-' (by simp)) (by decide)
        · exact absurd (hd '+' (by simp)) (by decide)
        · rfl
      rw [hs]
      exact signed_eq_some_iff.2 ⟨hn, hd, by rw [Int.one_mul, hb], Int.one_mul _⟩

section Words

variable {sep : Char → Bool} {words : List (List Char)}

/-- The words of a text: what stands between its gaps, as long as it goes. -/
inductive Words (sep : Char → Bool) : List Char → List (List Char) → Prop
  | nil : Words sep [] []
  | gap {c : Char} {s : List Char} {words : List (List Char)} (hc : sep c = true)
      (h : Words sep s words) : Words sep (c :: s) words
  | word {w s : List Char} {words : List (List Char)} (hn : w ≠ [])
      (hw : ∀ c ∈ w, sep c = false) (hs : ∀ c ∈ s.head?, sep c = true) (h : Words sep s words) :
      Words sep (w ++ s) (w :: words)

theorem Words.fields_eq (h : Words sep s words) : fields sep s = words := by
  induction h with
  | nil => rfl
  | gap hc _ ih => rw [fields_cons_of_sep hc, ih]
  | @word w s words hn hw hs _ ih =>
    cases s with
    | nil =>
      rw [List.append_nil, fields_of_word hn hw, ← ih]
      rfl
    | cons c s =>
      have hc : sep c = true := hs c rfl
      rw [fields_append_cons hn hw hc, ← ih, fields_cons_of_sep hc]

theorem words_fields (sep : Char → Bool) (s : List Char) : Words sep s (fields sep s) := by
  induction hl : s.length using Nat.strong_induction_on generalizing s with
  | _ n ih =>
    cases s with
    | nil => exact .nil
    | cons c s =>
      by_cases hc : sep c = true
      · rw [fields_cons_of_sep hc]
        exact .gap hc (ih s.length (by simp [← hl]) s rfl)
      · let w := (c :: s).takeWhile fun d => !sep d
        let rest := (c :: s).dropWhile fun d => !sep d
        have he : c :: s = w ++ rest := List.takeWhile_append_dropWhile.symm
        have hn : w ≠ [] := by simp [w, hc]
        have hw : ∀ d ∈ w, sep d = false := fun d hd => by
          simpa using List.mem_takeWhile_imp hd
        have hs : ∀ d ∈ rest.head?, sep d = true := fun d hd => by
          have := List.head?_dropWhile_not (fun d => !sep d) (c :: s)
          rw [show ((c :: s).dropWhile fun d => !sep d).head? = some d from hd] at this
          simpa using this
        have hlt : rest.length < n := by
          have hp := List.length_pos_of_ne_nil hn
          have hsum := congrArg List.length he
          rw [List.length_append] at hsum
          omega
        have hr := Words.word hn hw hs (ih _ hlt rest rfl)
        rw [← he] at hr
        rwa [hr.fields_eq]

end Words

end Text

theorem Char.toNat_toLower (c : Char) : c.toLower.toNat =
    if 65 ≤ c.toNat ∧ c.toNat ≤ 90 then c.toNat + 32 else c.toNat := by
  by_cases h : 65 ≤ c.toNat ∧ c.toNat ≤ 90
  · have hc : c.val ≥ 'A'.val ∧ c.val ≤ 'Z'.val := h
    have hle : c.val.toNat ≤ 90 := h.2
    rw [if_pos h, show c.toLower = _ from dif_pos hc]
    change (c.val.toNat + 32) % 4294967296 = c.val.toNat + 32
    omega
  · have hc : ¬(c.val ≥ 'A'.val ∧ c.val ≤ 'Z'.val) := h
    rw [if_neg h, show c.toLower = c from dif_neg hc]

/-- A small letter is what its capital becomes. -/
theorem Char.toLower_eq_iff {c small capital : Char} (hs : 97 ≤ small.toNat ∧ small.toNat ≤ 122)
    (hc : capital.toNat + 32 = small.toNat) :
    c.toLower = small ↔ c = small ∨ c = capital := by
  simp only [← Char.toNat_inj, toNat_toLower]
  split <;> omega

theorem Char.isDigit_toLower (c : Char) : c.toLower.isDigit = c.isDigit := by
  have hd : ∀ d : Char, d.isDigit = true ↔ 48 ≤ d.toNat ∧ d.toNat ≤ 57 := by
    simp [Char.isDigit, UInt32.le_iff_toNat_le]
  rw [Bool.eq_iff_iff, hd, hd, toNat_toLower]
  split <;> omega

/-- The opcode of a name that may be written in capitals. -/
theorem Opcode.named?_eq_some_iff {word : List Char} {op : Opcode} :
    named? word = some op ↔ op.name.toList = word.map Char.toLower := by
  have hinj : ∀ a b : Opcode, a.name.toList = b.name.toList → a = b := by
    intro a b
    cases a <;> cases b <;> decide
  constructor
  · intro h
    simpa using List.find?_some h
  · intro h
    cases hf : named? word with
    | none =>
      have := List.find?_eq_none.1 hf op op.mem_all
      simp [h] at this
    | some found =>
      have hn : found.name.toList = word.map Char.toLower := by simpa using List.find?_some hf
      rw [hinj found op (hn.trans h.symm)]

namespace Operand

variable {word : List Char} {n : Nat} {c d : Char}

/-- A word for a register, whether there is one of that number or not. -/
inductive Numbers : List Char → Nat → Prop
  | intro {c d : Char} (hc : c = 'r' ∨ c = 'R') (hd : d.isDigit = true) :
      Numbers [c, d] (Text.decimal [d])

/-- The four forms of an operand. -/
inductive Spells : List Char → Operand → Prop
  | register {word : List Char} {r : Slot} (h : Numbers word r.val) : Spells word (.register r)
  | label (s : List Char) : Spells ('.' :: s) (.label (String.ofList ('.' :: s)))
  | data {c : Char} {digits : List Char} (hc : c = 's' ∨ c = 'S') (hn : digits ≠ [])
      (hd : ∀ d ∈ digits, d.isDigit = true) :
      Spells (c :: digits) (.data (String.ofList ('s' :: digits)))
  | immediate {word : List Char} {i : Int} (h : Text.IsInteger word i) : Spells word (.immediate i)

/-- What is wrong with a word that has none of the forms. -/
inductive Misspells : List Char → AssemblyError → Prop
  | register {word : List Char} {n : Nat} (h : Numbers word n) (hn : 8 ≤ n) :
      Misspells word (.registerOutOfRange (String.ofList word))
  | other {word : List Char} (h : ∀ o, ¬Spells word o) (hn : ∀ n, ¬Numbers word n) :
      Misspells word (.invalidOperand (String.ofList word))

theorem toLower_eq_r : c.toLower = 'r' ↔ c = 'r' ∨ c = 'R' :=
  Char.toLower_eq_iff (by decide) (by decide)

theorem toLower_eq_s : c.toLower = 's' ↔ c = 's' ∨ c = 'S' :=
  Char.toLower_eq_iff (by decide) (by decide)

theorem register?_eq_some_iff : register? (word.map Char.toLower) = some n ↔ Numbers word n := by
  constructor
  · intro h
    unfold register? at h
    split at h
    · next l hw =>
      split at h
      · next hd =>
        obtain ⟨c, rest, rfl, hc, ht⟩ := List.map_eq_cons_iff.1 hw
        obtain ⟨d, rest, rfl, rfl, hn⟩ := List.map_eq_cons_iff.1 ht
        obtain rfl := List.map_eq_nil_iff.1 hn
        rw [Char.isDigit_toLower] at hd
        rw [toLower_of_isDigit hd] at h
        cases h
        exact .intro (toLower_eq_r.1 hc) hd
      · cases h
    · cases h
  · rintro ⟨hc, hd⟩
    rename_i c d
    have hw : [c, d].map Char.toLower = ['r', d] := by
      simp [toLower_eq_r.2 hc, toLower_of_isDigit hd]
    rw [hw, register?, if_pos hd]

theorem isDataKey_iff : isDataKey (word.map Char.toLower) = true ↔
    ∃ c digits, word = c :: digits ∧ (c = 's' ∨ c = 'S') ∧ digits ≠ [] ∧
      ∀ d ∈ digits, d.isDigit = true := by
  cases word with
  | nil => simp [isDataKey]
  | cons c digits =>
    by_cases hc : c = 's' ∨ c = 'S'
    · have hs := toLower_eq_s.2 hc
      simp [isDataKey, hs, hc, Char.isDigit_toLower]
    · have hs : c.toLower ≠ 's' := fun h => hc (toLower_eq_s.1 h)
      have hk : isDataKey (c.toLower :: digits.map Char.toLower) = false := by
        unfold isDataKey
        split
        · next h => exact absurd (List.cons.inj h).1 hs
        · rfl
      simp [hk, hc]

theorem ofNat?_eq_none_iff : Slot.ofNat? n = none ↔ 8 ≤ n := by
  unfold Slot.ofNat?
  split
  · next hn => exact iff_of_false nofun (Nat.not_le.2 hn)
  · next hn => exact iff_of_true rfl (Nat.not_lt.1 hn)

theorem ofNat?_eq_some_iff {r : Slot} : Slot.ofNat? n = some r ↔ r.val = n := by
  unfold Slot.ofNat?
  split
  · rw [Option.some.injEq, Fin.ext_iff]
    exact eq_comm
  · next hn => exact iff_of_false nofun fun h => hn (h ▸ r.isLt)

theorem Numbers.not_label {s : List Char} (h : Numbers ('.' :: s) n) : False := by
  cases h with
  | intro hc => simp at hc

theorem Numbers.not_dataKey (h : Numbers word n) : ¬isDataKey (word.map Char.toLower) = true := by
  intro hk
  obtain ⟨c, digits, rfl, hs, -⟩ := isDataKey_iff.1 hk
  cases h with
  | intro hr =>
    obtain rfl | rfl := hr <;> simp at hs

/-- The first character of a number tells it from the other operands. -/
theorem head?_of_isInteger {i : Int} (h : Text.IsInteger word i) :
    ∃ c s, word = c :: s ∧ (c = '+' ∨ c = '-' ∨ c.isDigit = true) := by
  cases h with
  | plus => exact ⟨_, _, rfl, .inl rfl⟩
  | minus => exact ⟨_, _, rfl, .inr (.inl rfl)⟩
  | plain hn hd =>
    obtain ⟨c, s, rfl⟩ := List.exists_cons_of_ne_nil hn
    exact ⟨c, s, rfl, .inr (.inr (hd c (by simp)))⟩

theorem read_of_isInteger {i : Int} (h : Text.IsInteger word i) :
    read word = .ok (.immediate i) := by
  obtain ⟨c, s, rfl, hc⟩ := head?_of_isInteger h
  have hne : ∀ d : Char, d ≠ '+' → d ≠ '-' → d.isDigit = false → c.toLower ≠ d ∧ c ≠ d := by
    intro d hp hm hd
    have hl : c.toLower = c := by
      obtain rfl | rfl | hc := hc
      · rfl
      · rfl
      · exact toLower_of_isDigit hc
    have hcd : c ≠ d := by
      rintro rfl
      obtain rfl | rfl | hc := hc
      · exact hp rfl
      · exact hm rfl
      · exact Bool.false_ne_true (hd.symm.trans hc)
    exact ⟨by rwa [hl], hcd⟩
  exact read_eq_immediate (hne 'r' (by decide) (by decide) rfl).1
    (hne '.' (by decide) (by decide) rfl).2 (hne 's' (by decide) (by decide) rfl).1
    (Text.readInt_eq_some_iff.2 h)

theorem read_of_numbers (h : Numbers word n) : read word =
    match Slot.ofNat? n with
    | some r => .ok (.register r)
    | none => .error (.registerOutOfRange (String.ofList word)) := by
  cases hs : Slot.ofNat? n <;> simp only [read, register?_eq_some_iff.2 h, hs]

theorem read_of_spells {o : Operand} (h : Spells word o) : read word = .ok o := by
  cases h with
  | register h => rw [read_of_numbers h, ofNat?_eq_some_iff.2 rfl]
  | label s =>
    have hr : register? (('.' :: s).map Char.toLower) = none :=
      Option.eq_none_iff_forall_ne_some.2 fun n hn => (register?_eq_some_iff.1 hn).not_label
    simp only [read, hr, List.head?_cons, if_true]
  | @data c digits hc hn hd =>
    have hk : isDataKey ((c :: digits).map Char.toLower) = true :=
      isDataKey_iff.2 ⟨c, digits, rfl, hc, hn, hd⟩
    have hr : register? ((c :: digits).map Char.toLower) = none :=
      Option.eq_none_iff_forall_ne_some.2 fun n hn =>
        (register?_eq_some_iff.1 hn).not_dataKey hk
    have hp : c ≠ '.' := by
      rintro rfl
      simp at hc
    have hl : (c :: digits).map Char.toLower = 's' :: digits := by
      rw [List.map_cons, toLower_eq_s.2 hc]
      exact congrArg _ ((List.map_congr_left fun d hm => toLower_of_isDigit (hd d hm)).trans
        (List.map_id' _))
    rw [hl] at hk hr
    simp only [read, hl, hr, hk, List.head?_cons, Option.some.injEq, if_neg hp, if_true]
  | immediate h => exact read_of_isInteger h

theorem read_of_misspells {e : AssemblyError} (h : Misspells word e) : read word = .error e := by
  cases h with
  | register h hle => rw [read_of_numbers h, ofNat?_eq_none_iff.2 hle]
  | other ho hn =>
    have hr : register? (word.map Char.toLower) = none :=
      Option.eq_none_iff_forall_ne_some.2 fun n h => hn n (register?_eq_some_iff.1 h)
    have hp : word.head? ≠ some '.' := fun h => by
      obtain ⟨s, rfl⟩ := List.head?_eq_some_iff.1 h
      exact ho _ (.label s)
    have hk : ¬isDataKey (word.map Char.toLower) = true := fun h => by
      obtain ⟨c, digits, rfl, hc, hn, hd⟩ := isDataKey_iff.1 h
      exact ho _ (.data hc hn hd)
    have hi : Text.readInt word = none := Option.eq_none_iff_forall_ne_some.2 fun i h =>
      ho _ (.immediate (Text.readInt_eq_some_iff.1 h))
    simp only [read, hr, if_neg hp, if_neg hk, hi]

theorem spells_or_misspells (word : List Char) : (∃ o, Spells word o) ∨ ∃ e, Misspells word e := by
  by_cases hs : ∃ o, Spells word o
  · exact .inl hs
  · have ho : ∀ o, ¬Spells word o := not_exists.1 hs
    by_cases hn : ∃ n, Numbers word n
    · obtain ⟨n, hn⟩ := hn
      refine .inr ⟨_, .register hn (Nat.le_of_not_lt fun hlt => ?_)⟩
      exact ho _ (.register (r := ⟨n, hlt⟩) hn)
    · exact .inr ⟨_, .other ho (not_exists.1 hn)⟩

/-- A word is read as an operand exactly if it has one of the forms. -/
theorem read_eq_ok_iff {o : Operand} : read word = .ok o ↔ Spells word o :=
  (eq_iff_of_total (fun _ => read_of_spells) (fun _ => read_of_misspells)
    (spells_or_misspells word)).1 o

theorem read_eq_error_iff {e : AssemblyError} : read word = .error e ↔ Misspells word e :=
  (eq_iff_of_total (fun _ => read_of_spells) (fun _ => read_of_misspells)
    (spells_or_misspells word)).2 e

/-- A word for a register is read as that register, and there are only eight. -/
theorem Spells.numbers_iff {o : Operand} (h : Spells word o) :
    Numbers word n ↔ ∃ hn : n < 8, o = .register ⟨n, hn⟩ := by
  constructor
  · intro hn
    have hr := (read_of_spells h).symm.trans (read_of_numbers hn)
    cases hs : Slot.ofNat? n with
    | none =>
      rw [hs] at hr
      cases hr
    | some r =>
      obtain rfl := ofNat?_eq_some_iff.1 hs
      rw [hs] at hr
      exact ⟨r.isLt, Except.ok.inj hr⟩
  · rintro ⟨hn, rfl⟩
    cases h with
    | register h => exact h

end Operand

end Octet
