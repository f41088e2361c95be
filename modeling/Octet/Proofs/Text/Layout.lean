import Octet.Text.Blank
import Octet.Text.Line
import Mathlib.Data.List.Basic
import Mathlib.Data.List.TakeWhile

namespace Octet.Text

section Split

variable {sep : Char → Bool} {w : List Char}

theorem split_append_cons (hw : ∀ c ∈ w, sep c = false) {c : Char} (hc : sep c = true)
    (s : List Char) : split sep (w ++ c :: s) = w :: split sep s := by
  induction w with
  | nil => simp [split_cons, hc]
  | cons a w ih =>
    have ha : sep a = false := hw a (by simp)
    rw [List.cons_append, split_cons, ih fun b hb => hw b (by simp [hb])]
    simp [ha]

theorem split_append_sep {c : Char} (hc : sep c = true) (s t : List Char) :
    split sep (s ++ c :: t) = split sep s ++ split sep t := by
  induction s with
  | nil => simp [split_cons, hc]
  | cons a s ih =>
    rw [List.cons_append, split_cons, split_cons, ih]
    split
    · rfl
    · cases h : split sep s with
      | nil => exact absurd h (split_ne_nil sep s)
      | cons p ps => rfl

theorem split_of_forall (hw : ∀ c ∈ w, sep c = false) : split sep w = [w] := by
  induction w with
  | nil => rfl
  | cons a w ih =>
    rw [split_cons, ih fun b hb => hw b (by simp [hb])]
    simp [hw a (by simp)]

theorem not_sep_of_mem_split {s : List Char} (h : w ∈ split sep s) : ∀ c ∈ w, sep c = false := by
  induction s generalizing w with
  | nil =>
    obtain rfl := List.mem_singleton.1 h
    nofun
  | cons a s ih =>
    rw [split_cons] at h
    split at h
    · obtain rfl | h := List.mem_cons.1 h
      · nofun
      · exact ih h
    · next ha =>
      cases hs : split sep s with
      | nil => exact absurd hs (split_ne_nil sep s)
      | cons p ps =>
        rw [hs, List.modifyHead_cons] at h
        rw [hs] at ih
        obtain rfl | h := List.mem_cons.1 h
        · exact List.forall_mem_cons.2 ⟨Bool.eq_false_iff.2 ha, ih List.mem_cons_self⟩
        · exact ih (List.mem_cons_of_mem p h)

theorem fields_cons_of_sep {c : Char} (hc : sep c = true) (s : List Char) :
    fields sep (c :: s) = fields sep s := by
  simp [fields, split_cons, hc]

theorem fields_append_of_seps {blanks : List Char} (h : ∀ c ∈ blanks, sep c = true)
    (s : List Char) : fields sep (blanks ++ s) = fields sep s := by
  induction blanks with
  | nil => rfl
  | cons a blanks ih =>
    rw [List.cons_append, fields_cons_of_sep (h a (by simp)), ih fun b hb => h b (by simp [hb])]

/-- A word that a separator follows is the first field. -/
theorem fields_append_cons (hn : w ≠ []) (hw : ∀ c ∈ w, sep c = false) {c : Char}
    (hc : sep c = true) (s : List Char) : fields sep (w ++ c :: s) = w :: fields sep s := by
  simp [fields, split_append_cons hw hc, hn]

theorem fields_of_word (hn : w ≠ []) (hw : ∀ c ∈ w, sep c = false) : fields sep w = [w] := by
  simp [fields, split_of_forall hw, hn]

/-- Words with separators between them are read apart again. -/
theorem fields_intercalate {c : Char} {between : List Char} (hc : sep c = true)
    (hb : ∀ d ∈ between, sep d = true) (ws : List (List Char))
    (h : ∀ w ∈ ws, w ≠ [] ∧ ∀ d ∈ w, sep d = false) :
    fields sep ((c :: between).intercalate ws) = ws := by
  induction ws with
  | nil => rfl
  | cons w ws ih =>
    obtain ⟨hn, hw⟩ := h w (by simp)
    have ht := ih fun v hv => h v (by simp [hv])
    cases ws with
    | nil => simpa using fields_of_word hn hw
    | cons v ws =>
      rw [List.intercalate_cons_cons, List.append_assoc, List.cons_append,
        fields_append_cons hn hw hc, fields_append_of_seps hb, ht]

end Split

theorem mem_intercalate {c : Char} {between : List Char} {ws : List (List Char)}
    (h : c ∈ between.intercalate ws) : c ∈ between ∨ ∃ w ∈ ws, c ∈ w := by
  induction ws with
  | nil => simp at h
  | cons w ws ih =>
    cases ws with
    | nil => exact .inr ⟨w, by simp, by simpa using h⟩
    | cons v ws =>
      rw [List.intercalate_cons_cons, List.append_assoc, List.mem_append, List.mem_append] at h
      obtain h | h | h := h
      · exact .inr ⟨w, by simp, h⟩
      · exact .inl h
      · exact (ih h).imp_right fun ⟨u, hu, hc⟩ => ⟨u, by simp [hu], hc⟩

theorem intercalate_ne_nil (between : List Char) {w : List Char} (h : w ≠ [])
    (ws : List (List Char)) :
    between.intercalate (w :: ws) ≠ [] := by
  cases ws <;> simp [List.intercalate_cons_cons, h]

/-- Words with something between them end as the last word does. -/
theorem mem_getLast?_intercalate {between : List Char} {ws : List (List Char)}
    (hn : ∀ w ∈ ws, w ≠ []) : ∀ c ∈ (between.intercalate ws).getLast?, ∃ w ∈ ws, c ∈ w := by
  induction ws with
  | nil => simp
  | cons w ws ih =>
    intro c hc
    cases ws with
    | nil => exact ⟨w, by simp, List.mem_of_getLast? (by simpa using hc)⟩
    | cons v ws =>
      rw [List.intercalate_cons_cons,
        List.getLast?_append_of_ne_nil _ (intercalate_ne_nil _ (hn v (by simp)) ws)] at hc
      obtain ⟨u, hu, hm⟩ := ih (fun u hu => hn u (by simp [hu])) c hc
      exact ⟨u, by simp [hu], hm⟩

theorem pieces_append (s t : List Char) : pieces (s ++ '\n' :: t) = pieces s ++ pieces t :=
  split_append_sep rfl s t

theorem length_pieces (s : List Char) : (pieces s).length = s.count '\n' + 1 :=
  length_split (· == '\n') s

/-- Behind a line feed the lines are those of the text that begins there. -/
theorem lines_append (s t : List Char) :
    lines (s ++ '\n' :: t) = (pieces s).map chomp ++ lines t := by
  have hn : pieces t ≠ [] := split_ne_nil _ t
  have hl : (pieces s ++ pieces t).getLastD [] = (pieces t).getLastD [] := by
    rw [List.getLastD_eq_getLast?, List.getLast?_append_of_ne_nil _ hn, List.getLastD_eq_getLast?]
  simp only [lines, pieces_append, hl, List.dropLast_append_of_ne_nil hn, List.map_append,
    List.append_assoc]

theorem pieces_append_feed {w : List Char} (h : '\n' ∉ w) (s : List Char) :
    pieces (w ++ '\n' :: s) = w :: pieces s :=
  split_append_cons (fun _ hc => beq_false_of_ne (ne_of_mem_of_not_mem hc h)) rfl s

theorem pieces_of_not_mem {s : List Char} (h : '\n' ∉ s) : pieces s = [s] :=
  split_of_forall fun _ hc => beq_false_of_ne (ne_of_mem_of_not_mem hc h)

theorem newline_notMem_of_mem_pieces {p s : List Char} (h : p ∈ pieces s) : '\n' ∉ p :=
  fun hm => absurd (not_sep_of_mem_split h '\n' hm) (by decide)

theorem pieces_flatMap (ls : List (List Char)) (h : ∀ l ∈ ls, '\n' ∉ l) :
    pieces (ls.flatMap (· ++ ['\n'])) = ls ++ [[]] := by
  induction ls with
  | nil => rfl
  | cons l ls ih =>
    have hs : (l :: ls).flatMap (· ++ ['\n']) = l ++ '\n' :: ls.flatMap (· ++ ['\n']) := by simp
    rw [hs, pieces_append_feed (h l List.mem_cons_self)]
    exact congrArg (l :: ·) (ih fun m hm => h m (List.mem_cons_of_mem l hm))

/-- A text whose lines all end in a line feed is read line by line. -/
theorem lines_flatMap (ls : List (List Char)) (h : ∀ l ∈ ls, '\n' ∉ l) :
    lines (ls.flatMap (· ++ ['\n'])) = ls.map chomp := by
  simp [lines, pieces_flatMap ls h]

theorem dropWhile_isBlank_of_head? {s : List Char} (h : ∀ c ∈ s.head?, isBlank c = false) :
    s.dropWhile isBlank = s := by
  cases s with
  | nil => rfl
  | cons c s => simp [h c (by simp)]

theorem trimEnd_append_of_blank {blanks : List Char} (s : List Char)
    (h : ∀ c ∈ blanks, isBlank c = true) : trimEnd (s ++ blanks) = trimEnd s := by
  rw [trimEnd, List.reverse_append, List.dropWhile_append_of_pos (by simpa using h), trimEnd]

/-- A text that no blank begins or ends is what is left of it between blanks. -/
theorem trim_margins {s left right : List Char} (hl : ∀ c ∈ left, isBlank c = true)
    (hr : ∀ c ∈ right, isBlank c = true) (hf : ∀ c ∈ s.head?, isBlank c = false)
    (he : ∀ c ∈ s.getLast?, isBlank c = false) : trim (left ++ s ++ right) = s := by
  cases s with
  | nil =>
    have h : right.dropWhile isBlank = [] := List.dropWhile_eq_nil_iff.2 hr
    rw [trim, List.append_nil, List.dropWhile_append_of_pos hl, h]
    rfl
  | cons c s =>
    have hd : (c :: s ++ right).dropWhile isBlank = c :: s ++ right :=
      dropWhile_isBlank_of_head? (by simpa using hf)
    rw [trim, List.append_assoc, List.dropWhile_append_of_pos hl, hd, trimEnd_append_of_blank _ hr,
      trimEnd, dropWhile_isBlank_of_head? (by rwa [List.head?_reverse]),
      List.reverse_reverse]

theorem trim_concat_of_blank {c : Char} (s : List Char) (h : isBlank c = true) :
    trim (s ++ [c]) = trim s := by
  rw [trim, trim, List.dropWhile_append]
  split
  · next he => simp [h, List.isEmpty_iff.1 he]
  · exact trimEnd_concat_of_blank _ h

theorem trim_of_ends {s : List Char} (hf : ∀ c ∈ s.head?, isBlank c = false)
    (he : ∀ c ∈ s.getLast?, isBlank c = false) : trim s = s := by
  have h : trim ([] ++ s ++ []) = s := trim_margins nofun nofun hf he
  rwa [List.nil_append, List.append_nil] at h

section Strips

variable {p : Char → Prop} {s a b : List Char}

/-- A text without the run of such characters at its end. -/
inductive Strips (p : Char → Prop) : List Char → List Char → Prop
  | mk {text run : List Char} (hr : ∀ c ∈ run, p c) (he : ∀ c ∈ text.getLast?, ¬p c) :
      Strips p (text ++ run) text

theorem strips_dropWhile {q : Char → Bool} (h : ∀ c, q c = true ↔ p c) (s : List Char) :
    Strips p s (s.reverse.dropWhile q).reverse := by
  have hs : (s.reverse.dropWhile q).reverse ++ (s.reverse.takeWhile q).reverse = s := by
    rw [← List.reverse_append, List.takeWhile_append_dropWhile, List.reverse_reverse]
  have hm : Strips p ((s.reverse.dropWhile q).reverse ++ (s.reverse.takeWhile q).reverse)
      (s.reverse.dropWhile q).reverse := by
    refine .mk (fun c hc => (h c).1 (List.mem_takeWhile_imp (List.mem_reverse.1 hc))) ?_
    intro c hc hp
    have hd := List.head?_dropWhile_not q s.reverse
    rw [← List.getLast?_reverse, Option.mem_def.1 hc] at hd
    exact Bool.false_ne_true (hd.symm.trans ((h c).2 hp))
  rwa [hs] at hm

theorem Strips.unique (ha : Strips p s a) (hb : Strips p s b) : a = b := by
  obtain ⟨hr, he⟩ := ha
  generalize hs : a ++ _ = s at hb
  obtain ⟨hr', he'⟩ := hb
  -- what one of the texts has more than the other ends the longer one and is part of a run
  obtain ⟨more, rfl, rfl⟩ | ⟨more, rfl, rfl⟩ := List.append_eq_append_iff.1 hs
  · obtain rfl | ⟨more, c, rfl⟩ := List.eq_nil_or_concat more
    · exact (List.append_nil a).symm
    · exact absurd (hr c (by simp)) (he' c (by simp [← List.append_assoc]))
  · obtain rfl | ⟨more, c, rfl⟩ := List.eq_nil_or_concat more
    · exact List.append_nil b
    · exact absurd (hr' c (by simp)) (he c (by simp [← List.append_assoc]))

theorem strips_trimEnd (s : List Char) : Strips (isBlank · = true) s (trimEnd s) :=
  strips_dropWhile (fun _ => Iff.rfl) s

end Strips

end Octet.Text
