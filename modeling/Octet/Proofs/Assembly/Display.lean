import Octet.Proofs.Assembly.Entries
import Octet.Proofs.Assembly.Verdict

namespace Octet

variable {s t w : List Char} {ws vs : List (List Char)} {c : Char} {q e : Bool}

section Words

variable {sep : Char → Bool}

theorem Text.Words.forall_mem (h : Words sep s ws) :
    ∀ w ∈ ws, w ≠ [] ∧ ∀ c ∈ w, sep c = false := by
  induction h with
  | nil => nofun
  | gap _ _ ih => exact ih
  | word hn hw _ _ ih =>
    intro v hv
    obtain rfl | hv := List.mem_cons.1 hv
    · exact ⟨hn, hw⟩
    · exact ih v hv

/-- Words with something between them end as the last of them does. -/
theorem Text.getLast?_intercalate (between : List Char) (hw : w ≠ []) (ws : List (List Char)) :
    (between.intercalate (ws ++ [w])).getLast? = w.getLast? := by
  induction ws with
  | nil => simp
  | cons v ws ih =>
    obtain ⟨u, us, hu⟩ := List.exists_cons_of_ne_nil (l := ws ++ [w]) (by simp)
    have hn : between.intercalate (ws ++ [w]) ≠ [] := by
      intro hn
      rw [hn] at ih
      exact hw (List.getLast?_eq_none_iff.1 ih.symm)
    rw [List.cons_append, hu, List.intercalate_cons_cons, ← hu, List.getLast?_append_of_ne_nil _ hn,
      ih]

end Words

namespace Assembly

section Quoting

/-- What a character does to the mode in which a line is read: whether it is in a text, and behind a
backslash. -/
def quoting (mode : Bool × Bool) (c : Char) : Bool × Bool :=
  if mode.2 then (mode.1, false)
  else if c = '\\' ∧ mode.1 then (mode.1, true)
  else if c = '"' then (!mode.1, false)
  else (mode.1, false)

/-- Nothing is cut off a text if nothing is cut off its first part, nor off the rest in the mode in
which that leaves the line. -/
theorem uncomment_append_eq_iff : uncomment q e (s ++ t) = s ++ t ↔
    uncomment q e s = s ∧
      uncomment (s.foldl quoting (q, e)).1 (s.foldl quoting (q, e)).2 t = t := by
  induction s generalizing q e with
  | nil => simp [uncomment]
  | cons c s ih =>
    rw [List.cons_append, uncomment, uncomment, List.foldl_cons]
    split_ifs with he hb hq hc
    · have hm : quoting (q, e) c = (q, false) := by simp [quoting, he]
      rw [hm, List.cons_inj_right, List.cons_inj_right, ih]
    · have hm : quoting (q, e) c = (q, true) := by simp [quoting, he, hb]
      rw [hm, List.cons_inj_right, List.cons_inj_right, ih]
    · have hm : quoting (q, e) c = (!q, false) := by simp [quoting, he, hq]
      rw [hm, List.cons_inj_right, List.cons_inj_right, ih]
    · simp
    · have hm : quoting (q, e) c = (q, false) := by
        simp only [quoting, he, hb, hq, if_false, Bool.false_eq_true]
      rw [hm, List.cons_inj_right, List.cons_inj_right, ih]

theorem uncomment_idem (q e : Bool) (s : List Char) :
    uncomment q e (uncomment q e s) = uncomment q e s := by
  induction s generalizing q e with
  | nil => rfl
  | cons c s ih =>
    rw [uncomment]
    split_ifs with he hb hq hc
    · rw [uncomment, if_pos he, ih]
    · rw [uncomment, if_neg he, if_pos hb, ih]
    · rw [uncomment, if_neg he, if_neg hb, if_pos hq, ih]
    · rfl
    · rw [uncomment, if_neg he, if_neg hb, if_neg hq, if_neg hc, ih]

/-- A gap ends what a backslash begins and does nothing else. -/
theorem uncomment_gap (hc : isGap c = true) (q e : Bool) (s : List Char) :
    uncomment q e (c :: s) = c :: uncomment q false s := by
  have hne : c ≠ '\\' ∧ c ≠ '"' ∧ c ≠ ';' := by
    refine ⟨?_, ?_, ?_⟩ <;> (rintro rfl; cases hc)
  cases e <;> simp [uncomment, hne]

/-- Nothing is cut off some words that stand in a line one behind the other. -/
def Kept (q : Bool) : List (List Char) → Prop
  | [] => True
  | w :: ws => uncomment q false w = w ∧ Kept (w.foldl quoting (q, false)).1 ws

/-- Where a comment begins depends on the words of a line only, not on the gaps between them. -/
theorem uncomment_eq_self_iff (h : Text.Words isGap s ws) :
    uncomment q false s = s ↔ Kept q ws := by
  induction h generalizing q with
  | nil => simp [uncomment, Kept]
  | gap hc _ ih => rw [uncomment_gap hc, List.cons_inj_right, ih]
  | @word w s ws hn hw hs _ ih =>
    have hrest : ∀ mode : Bool × Bool,
        uncomment mode.1 mode.2 s = s ↔ uncomment mode.1 false s = s := by
      intro mode
      cases s with
      | nil => simp [uncomment]
      | cons c s => rw [uncomment_gap (hs c rfl), uncomment_gap (hs c rfl)]
    rw [uncomment_append_eq_iff, hrest, ih, Kept]

/-- A text that has no part in texts and comments. -/
def Plain (s : List Char) : Prop := ∀ c ∈ s, c ≠ '"' ∧ c ≠ ';' ∧ c ≠ '\\'

theorem uncomment_plain (h : Plain s) (q : Bool) :
    uncomment q false s = s ∧ s.foldl quoting (q, false) = (q, false) := by
  induction s with
  | nil => exact ⟨rfl, rfl⟩
  | cons c s ih =>
    obtain ⟨hq, hs, hb⟩ := h c (by simp)
    obtain ⟨hu, hm⟩ := ih fun d hd => h d (by simp [hd])
    constructor
    · simp [uncomment, hq, hs, hb, hu]
    · rw [List.foldl_cons]
      simpa [quoting, hq, hb] using hm

theorem plain_of_marks (h : ∀ c ∈ s, isMark c = true) : Plain s := fun c hc =>
  ⟨ne_of_isMark (h c hc) rfl, ne_of_isMark (h c hc) rfl, ne_of_isMark (h c hc) rfl⟩

/-- Words that do the same to a line. -/
def Alike (w v : List Char) : Prop := w = v ∨ Plain w ∧ Plain v

theorem kept_congr (h : List.Forall₂ Alike ws vs) : Kept q ws ↔ Kept q vs := by
  induction h generalizing q with
  | nil => rfl
  | cons hw _ ih =>
    obtain rfl | ⟨hw, hv⟩ := hw
    · rw [Kept, Kept, ih]
    · rw [Kept, Kept, (uncomment_plain hw q).1, (uncomment_plain hv q).1, (uncomment_plain hw q).2,
        (uncomment_plain hv q).2, ih]
      simp only [eq_self]

/-- There is no comment in what is left of a line. -/
theorem uncommented_content (line : List Char) : uncommented (content line) = content line := by
  obtain ⟨left, right, hl, -, hs⟩ := Text.exists_margins (uncommented line)
  have hi : uncommented (left ++ content line ++ right) = left ++ content line ++ right := by
    rw [content, ← hs]
    exact uncomment_idem ..
  have hp : Plain left := by
    intro c hc
    have hb := hl c hc
    refine ⟨?_, ?_, ?_⟩ <;> (rintro rfl; cases hb)
  rw [uncommented, List.append_assoc, uncomment_append_eq_iff, (uncomment_plain hp false).2,
    uncomment_append_eq_iff] at hi
  exact hi.2.1

end Quoting

end Assembly

namespace Operand

variable {o : Operand}

/-- What an operand displays spells it again. -/
theorem Spells.display (h : Spells w o) : Spells o.display.toList o := by
  cases h with
  | @register _ r _ => exact read_eq_ok_iff.1 (read_display (o := .register r) trivial)
  | label s =>
    rw [Operand.display, String.toList_ofList]
    exact .label s
  | data hc hn hd =>
    rw [Operand.display, String.toList_ofList]
    exact .data (.inl rfl) hn hd
  | @immediate _ i h =>
    have hi := Text.isInt64_of_readInt (Text.readInt_eq_some_iff.2 h)
    exact read_eq_ok_iff.1 (read_display (o := .immediate i) hi)

theorem Numbers.plain {n : Nat} (h : Numbers w n) : w ≠ [] ∧ Assembly.Plain w := by
  cases h with
  | intro hc hd =>
    have hr : ∀ c : Char, c = 'r' ∨ c = 'R' → Assembly.isMark c = true := by
      rintro _ (rfl | rfl) <;> rfl
    refine ⟨by simp, Assembly.plain_of_marks (List.forall_mem_cons.2 ⟨hr _ hc, ?_⟩)⟩
    exact List.forall_mem_singleton.2 (Assembly.isMark_of_isDigit hd)

theorem Spells.ne_nil (h : Spells w o) : w ≠ [] := by
  cases h with
  | register h => exact h.plain.1
  | label s => simp
  | data => simp
  | immediate h =>
    obtain ⟨c, s, rfl, -⟩ := head?_of_isInteger h
    simp

theorem plain_of_isInteger {i : Int} (h : Text.IsInteger w i) : Assembly.Plain w := by
  have hdigit : ∀ {digits : List Char}, (∀ c ∈ digits, c.isDigit = true) →
      Assembly.Plain digits :=
    fun hd => Assembly.plain_of_marks fun c hc => Assembly.isMark_of_isDigit (hd c hc)
  cases h with
  | plain _ hd => exact hdigit hd
  | plus _ hd => exact List.forall_mem_cons.2 ⟨by decide, hdigit hd⟩
  | minus _ hd => exact List.forall_mem_cons.2 ⟨by decide, hdigit hd⟩

/-- A label stays as it is written. Other operands are written without quotation marks, and are
displayed in letters and digits. -/
theorem Spells.label_or_plain (h : Spells w o) : (∃ name, o = .label name ∧ name.toList = w) ∨
    Assembly.Plain w ∧ ∀ c ∈ o.display.toList, Assembly.isMark c = true := by
  cases h with
  | label s => exact .inl ⟨_, rfl, String.toList_ofList ..⟩
  | @register _ r h =>
    exact .inr ⟨h.plain.2, fun c => isMark_of_mem_display (o := .register r) trivial⟩
  | @data c digits hc hn hd =>
    have hs : ∀ c : Char, c = 's' ∨ c = 'S' → Assembly.isMark c = true := by
      rintro _ (rfl | rfl) <;> rfl
    have hm : ∀ d ∈ digits, Assembly.isMark d = true :=
      fun d hm => Assembly.isMark_of_isDigit (hd d hm)
    refine .inr ⟨Assembly.plain_of_marks (List.forall_mem_cons.2 ⟨hs c hc, hm⟩), ?_⟩
    rw [Operand.display, String.toList_ofList]
    exact List.forall_mem_cons.2 ⟨rfl, hm⟩
  | @immediate _ i h =>
    have hi := Text.isInt64_of_readInt (Text.readInt_eq_some_iff.2 h)
    exact .inr ⟨plain_of_isInteger h, fun c => isMark_of_mem_display (o := .immediate i) hi⟩

theorem Spells.alike (h : Spells w o) : Assembly.Alike w o.display.toList := by
  obtain ⟨name, rfl, rfl⟩ | ⟨hw, hd⟩ := h.label_or_plain
  · exact .inl rfl
  · exact .inr ⟨hw, Assembly.plain_of_marks hd⟩

/-- What an operand displays is one word. -/
theorem Spells.display_word (h : Spells w o) (hw : ∀ c ∈ w, Assembly.isGap c = false) :
    o.display.toList ≠ [] ∧ ∀ c ∈ o.display.toList, Assembly.isGap c = false := by
  refine ⟨h.display.ne_nil, ?_⟩
  obtain ⟨name, rfl, rfl⟩ | ⟨-, hd⟩ := h.label_or_plain
  · exact hw
  · exact fun c hc => Assembly.isGap_of_isMark (hd c hc)

end Operand

namespace Instruction

variable {i : Instruction}

theorem toList_display_of_nil (h : i.operands = []) :
    i.display.toList = i.opcode.name.toList := by
  simp [display, h]

theorem toList_display_of_ne_nil (h : i.operands ≠ []) :
    i.display.toList = i.opcode.name.toList ++ ' ' ::
      [',', ' '].intercalate (i.operands.map fun o => o.display.toList) := by
  cases ho : i.operands with
  | nil => exact absurd ho h
  | cons o os => simp [display, ho, String.toList_intercalate, Function.comp_def]

/-- The operands of an instruction display words. -/
def Readable (i : Instruction) : Prop := ∀ o ∈ i.operands, Operand.Spells o.display.toList o ∧
  o.display.toList ≠ [] ∧ ∀ c ∈ o.display.toList, Assembly.isGap c = false

theorem Spells.readable (h : Spells s i) : i.Readable := by
  obtain ⟨hw, -, ho⟩ := h
  intro o hm
  obtain ⟨position, hp, rfl⟩ := List.getElem_of_mem hm
  have hp' := ho.length_eq.symm ▸ hp
  have hs := ho.get hp' hp
  obtain ⟨-, hgap⟩ := hw.forall_mem _ (List.mem_cons_of_mem _ (List.get_mem _ ⟨position, hp'⟩))
  exact ⟨hs.display, hs.display_word hgap⟩

theorem words_display (h : i.Readable) : Text.Words Assembly.isGap i.display.toList i.words := by
  have hn := i.opcode.name_ne_nil
  have hg : ∀ c ∈ i.opcode.name.toList, Assembly.isGap c = false :=
    fun c hc => Assembly.isGap_of_isMark (Opcode.isMark_of_mem_name hc)
  have hf : Text.fields Assembly.isGap i.display.toList = i.words := by
    by_cases ho : i.operands = []
    · rw [toList_display_of_nil ho, Text.fields_of_word hn hg, words, ho, List.map_nil]
    · rw [toList_display_of_ne_nil ho, Text.fields_append_cons hn hg rfl, words,
        Text.fields_intercalate rfl (List.forall_mem_singleton.2 rfl)]
      intro w hw
      obtain ⟨o, hm, rfl⟩ := List.mem_map.1 hw
      exact (h o hm).2
  exact hf ▸ Text.words_fields ..

/-- An instruction is spelled by what it displays. -/
theorem spells_display (h : i.Readable) : Spells i.display.toList i := by
  have hl : i.opcode.name.toList = i.opcode.name.toList.map Char.toLower :=
    Opcode.named?_eq_some_iff.1 i.opcode.named?_name
  refine .intro (words_display h) hl (List.forall₂_map_left_iff.2 (List.forall₂_same.2 ?_))
  exact fun o ho => (h o ho).1

/-- Small letters in a word stand for letters. -/
theorem plain_name {opcode : Opcode} (h : opcode.name.toList = w.map Char.toLower) :
    Assembly.Plain w := by
  have hm : ∀ c ∈ w, Assembly.isMark c.toLower = true := fun c hc =>
    Opcode.isMark_of_mem_name (h ▸ List.mem_map_of_mem hc)
  intro c hc
  refine ⟨?_, ?_, ?_⟩ <;> (rintro rfl; exact absurd (hm _ hc) (by decide))

/-- Where no comment cuts an instruction off, none cuts off what it displays. -/
theorem uncommented_display (h : Spells s i) (hs : Assembly.uncommented s = s) :
    Assembly.uncommented i.display.toList = i.display.toList := by
  have hr := h.readable
  obtain ⟨hw, hn, ho⟩ := h
  refine (Assembly.uncomment_eq_self_iff (words_display hr)).2 ?_
  refine (Assembly.kept_congr (.cons ?_ ?_)).1 ((Assembly.uncomment_eq_self_iff hw).1 hs)
  · exact .inr ⟨plain_name hn, Assembly.plain_of_marks fun c => Opcode.isMark_of_mem_name⟩
  · exact List.forall₂_map_right_iff.2 (ho.imp fun _ _ => Operand.Spells.alike)

/-- The last operand is a label that ends as the definition of a label does. -/
def EndsAsLabel (i : Instruction) : Prop :=
  ∃ name, i.operands.getLast? = some (.label name) ∧ name.toList.getLast? = some ':'

theorem getLast?_display (h : i.Readable) : ∃ w ∈ i.words,
    i.display.toList.getLast? = w.getLast? ∧ (w.getLast? = some ':' ↔ i.EndsAsLabel) := by
  obtain ho | ⟨os, o, ho⟩ := List.eq_nil_or_concat' i.operands
  · refine ⟨i.opcode.name.toList, List.mem_cons_self .., by rw [toList_display_of_nil ho], ?_⟩
    refine iff_of_false (fun hc => ?_) (by simp [EndsAsLabel, ho])
    exact absurd (Opcode.isMark_of_mem_name (List.mem_of_getLast? hc)) (by decide)
  · obtain ⟨hs, hn, -⟩ := h o (by simp [ho])
    refine ⟨o.display.toList, List.mem_cons_of_mem _ (List.mem_map_of_mem (by simp [ho])), ?_, ?_⟩
    · have hne : i.operands ≠ [] := by simp [ho]
      have hl := Text.getLast?_intercalate [',', ' '] hn (os.map fun o => o.display.toList)
      have hi : [',', ' '].intercalate (i.operands.map fun o => o.display.toList) ≠ [] := by
        intro hi
        rw [ho, List.map_append, List.map_singleton] at hi
        rw [hi] at hl
        exact hn (List.getLast?_eq_none_iff.1 hl.symm)
      rw [toList_display_of_ne_nil hne, List.append_cons, List.getLast?_append_of_ne_nil _ hi, ho,
        List.map_append, List.map_singleton, hl]
    · rw [EndsAsLabel, ho, List.getLast?_concat]
      cases o with
      | label name => simp [Operand.display]
      | register r | immediate j | data key =>
        refine iff_of_false (fun hc => ?_) (by simp)
        obtain ⟨_, hl, -⟩ | ⟨-, hd⟩ := hs.label_or_plain
        · cases hl
        · exact absurd (hd ':' (List.mem_of_getLast? hc)) (by decide)

theorem head?_display (i : Instruction) :
    i.display.toList.head? = i.opcode.name.toList.head? := by
  obtain ⟨c, s, hs⟩ := List.exists_cons_of_ne_nil i.opcode.name_ne_nil
  by_cases ho : i.operands = []
  · rw [toList_display_of_nil ho]
  · rw [toList_display_of_ne_nil ho, hs, List.cons_append, List.head?_cons, List.head?_cons]

theorem display_ne_nil (i : Instruction) : i.display.toList ≠ [] := by
  intro hn
  have hh := head?_display i
  rw [hn] at hh
  exact i.opcode.name_ne_nil (List.head?_eq_none_iff.1 hh.symm)

/-- What an instruction displays has room in one line. -/
theorem newline_notMem_display (h : i.Readable) : '\n' ∉ i.display.toList := by
  have hn : '\n' ∉ i.opcode.name.toList := fun hm =>
    absurd (Opcode.isMark_of_mem_name hm) (by decide)
  by_cases ho : i.operands = []
  · rwa [toList_display_of_nil ho]
  · rw [toList_display_of_ne_nil ho, List.mem_append, List.mem_cons]
    rintro (hm | hm | hm)
    · exact hn hm
    · cases hm
    · obtain hm | ⟨w, hw, hm⟩ := Text.mem_intercalate hm
      · simp at hm
      · obtain ⟨o, hmem, rfl⟩ := List.mem_map.1 hw
        exact absurd ((h o hmem).2.2 _ hm) (by decide)

end Instruction

namespace Assembly

variable {listing : String} {program : Program} {front : List Char} {reader : Reader}
  {i : Instruction}

/-- An instruction that has been read was written without a comment behind it. -/
theorem exists_written {i : Located Instruction} (h : read listing = .ok program)
    (hi : i ∈ program.instructions.toList) :
    ∃ line, i.val.Spells line ∧ uncommented line = line := by
  obtain ⟨-, hd, -⟩ := describes_of_read h
  obtain ⟨earlier, line, hl, -, -, hf⟩ := (hd.instruction i.line i.val).1 hi
  obtain ⟨raw, -, rfl⟩ := List.mem_map.1 (hl.subset (by simp) : line ∈ contents listing)
  have hu := uncommented_content raw
  generalize content raw = line at hf hu
  generalize partAfter (earlier ++ [line]) = part at hf
  cases hf with
  | instruction _ hs => exact ⟨line, hs, hu⟩

theorem content_display (hr : i.Readable)
    (hu : uncommented i.display.toList = i.display.toList) :
    content i.display.toList = i.display.toList := by
  rw [content, hu]
  refine Text.trim_of_ends (fun c hc => ?_) fun c hc => ?_
  · rw [Instruction.head?_display] at hc
    exact isBlank_of_isMark (Opcode.isMark_of_mem_name (List.mem_of_head? hc))
  · obtain ⟨w, hw, hl, -⟩ := Instruction.getLast?_display hr
    rw [hl] at hc
    have hg := ((Instruction.words_display hr).forall_mem w hw).2 c (List.mem_of_getLast? hc)
    simp only [isGap, Bool.or_eq_false_iff] at hg
    exact hg.1

theorem header?_display (i : Instruction) : header? i.display.toList = none := by
  have hf : i.display.toList.head? ≠ some '.' := by
    rw [Instruction.head?_display]
    cases i.opcode <;> decide
  exact header?_eq_none_iff.2 ⟨Reader.ne_toList_of_head? hf, Reader.ne_toList_of_head? hf⟩

/-- What a line of code stands for is added to the program. -/
theorem readLine_display {item : Item} (hp : reader.part = .code)
    (h : Fits .code i.display.toList item) (number : Nat) :
    reader.readLine number i.display.toList =
      .ok { reader with program := reader.program.add number item } := by
  rw [readLine_of_content i.display_ne_nil (header?_display i), hp]
  simp only [readCode_eq, readItem_of_fits h]
  rw [← hp]
  rfl

theorem undefined?_addInstruction (h : undefined? program = none) (number : Nat)
    (hk : ∀ key, .data key ∈ i.operands → (program.data.get? key).isSome = true) :
    undefined? (program.addInstruction number i) = none := by
  rw [undefined?_eq, List.findSome?_eq_none_iff] at h ⊢
  have hl : (program.addInstruction number i).instructions.toList =
      program.instructions.toList ++ [⟨number, i⟩] := Array.toList_push ..
  rw [hl]
  intro j hj
  obtain hj | hj := List.mem_append.1 hj
  · exact h j hj
  · obtain rfl := List.mem_singleton.1 hj
    refine List.findSome?_eq_none_iff.2 fun o ho => ?_
    cases o with
    | data key => exact if_pos (hk key ho)
    | register r | immediate n | label name => rfl

/-- A line of code that is accepted behind a text that is accepted. -/
theorem read_append_display {item : Item} (hb : Text.Begins front)
    (hf : Reader.after front = .ok reader) (hp : reader.part = .code) (hr : i.Readable)
    (hc : content i.display.toList = i.display.toList) (h : Fits .code i.display.toList item) :
    let next := { reader with program := reader.program.add (front.count '\n' + 1) item }
    Reader.Takes front i.display.toList next ∧
      (undefined? next.program = none →
        read (String.ofList (front ++ i.display.toList)) = .ok next.program) := by
  intro next
  have hl := readLine_display hp h (front.count '\n' + 1)
  have ht : Reader.Takes front i.display.toList next :=
    Reader.takes_of_readLine hb hf (Instruction.newline_notMem_display hr) i.display_ne_nil
      (hc.symm ▸ hl)
  refine ⟨ht, fun hu => ?_⟩
  rw [read_eq_ok_iff_after, String.toList_ofList]
  exact ⟨next, ht.1, hu, rfl⟩

/-- An instruction that has been read is read again from what it displays, on a line of code behind
any text: the program has one more instruction, and it is accepted with it if it was without it and
the keys that are named are defined. The only exception is an instruction whose last operand is a
label with a colon at its end: what it displays defines a label, and there is no instruction. -/
theorem takes_display_of_read {i : Located Instruction} (h : read listing = .ok program)
    (hi : i ∈ program.instructions.toList) (hb : Text.Begins front)
    (hf : Reader.after front = .ok reader) (hp : reader.part = .code) :
    let line := i.val.display.toList
    let withInstruction := reader.program.addInstruction (front.count '\n' + 1) i.val
    let withLabel := reader.program.addLabel (String.ofList (Text.trim line.dropLast))
    (¬i.val.EndsAsLabel →
      Reader.Takes front line { reader with program := withInstruction } ∧
        (read (String.ofList front) = .ok reader.program →
          (∀ key, .data key ∈ i.val.operands → (reader.program.data.get? key).isSome = true) →
            read (String.ofList (front ++ line)) = .ok withInstruction)) ∧
    (i.val.EndsAsLabel →
      Reader.Takes front line { reader with program := withLabel } ∧
        (read (String.ofList front) = .ok reader.program →
          read (String.ofList (front ++ line)) = .ok withLabel)) := by
  intro line withInstruction withLabel
  obtain ⟨written, hs, hw⟩ := exists_written h hi
  have hr := hs.readable
  have hc := content_display hr (Instruction.uncommented_display hs hw)
  obtain ⟨w, -, hlast, hcolon⟩ := Instruction.getLast?_display hr
  rw [← hlast] at hcolon
  have hundefined : read (String.ofList front) = .ok reader.program →
      undefined? reader.program = none := by
    intro hread
    obtain ⟨last, -, hu, he⟩ := read_eq_ok_iff_after.1 hread
    rwa [he] at hu
  constructor
  · intro he
    have hfits : Fits .code line (.instruction i.val) :=
      .instruction (mt hcolon.1 he) (Instruction.spells_display hr)
    obtain ⟨ht, ha⟩ := read_append_display hb hf hp hr hc hfits
    exact ⟨ht, fun hread hk => ha (undefined?_addInstruction (hundefined hread) _ hk)⟩
  · intro he
    obtain ⟨s, hl⟩ := List.getLast?_eq_some_iff.1 (hcolon.2 he)
    have hfits : Fits .code line (.label (String.ofList (Text.trim line.dropLast))) := by
      have hline : line = s ++ [':'] := hl
      rw [hline, List.dropLast_concat]
      exact .label s
    obtain ⟨ht, ha⟩ := read_append_display hb hf hp hr hc hfits
    exact ⟨ht, fun hread => ha (hundefined hread)⟩

/-- A label may hold quotation marks and a semicolon between them, and a comma may keep its colon
from ending the line. -/
theorem takes_display_of_read_quoted :
    let listing := ".data\ns0: \"\"\n.code\n TAR\u00a0R7,S0\n rav .a\";b\\\" .c\"; x\n rev .d:,"
    let load : Instruction := ⟨.tar, [.register 7, .data "s0"]⟩
    let quoted : Instruction := ⟨.rav, [.label ".a\";b\\\"", .label ".c\""]⟩
    let colon : Instruction := ⟨.rev, [.label ".d:"]⟩
    let data : Table String := ⟨[("s0", "")]⟩
    let front := ".data\ns0: \"\"\n.code\n".toList
    let reader : Reader := ⟨.code, ⟨#[], .empty, data⟩⟩
    read listing = .ok ⟨#[⟨4, load⟩, ⟨5, quoted⟩, ⟨6, colon⟩], .empty, data⟩ ∧
      Text.Begins front ∧ Reader.after front = .ok reader ∧
      read (String.ofList (front ++ load.display.toList)) = .ok ⟨#[⟨4, load⟩], .empty, data⟩ ∧
      Reader.Takes front quoted.display.toList ⟨.code, ⟨#[⟨4, quoted⟩], .empty, data⟩⟩ ∧
      Reader.Takes front colon.display.toList ⟨.code, ⟨#[], ⟨[("rev .d", 0)]⟩, data⟩⟩ := by
  intro listing load quoted colon data front reader
  have hread : read listing =
      .ok ⟨#[⟨4, load⟩, ⟨5, quoted⟩, ⟨6, colon⟩], .empty, data⟩ := by decide +kernel
  have hb : Text.Begins front := by
    rintro _ ⟨⟩
    rfl
  have hf : Reader.after front = .ok reader := by decide +kernel
  have hfront : read (String.ofList front) = .ok reader.program := by decide +kernel
  have hload : ¬load.EndsAsLabel := by
    rintro ⟨name, hl, -⟩
    cases hl
  have hquoted : ¬quoted.EndsAsLabel := by
    rintro ⟨name, hl, hc⟩
    cases hl
    revert hc
    decide +kernel
  have hcolon : colon.EndsAsLabel := ⟨".d:", rfl, by decide +kernel⟩
  have hkey : ∀ key, .data key ∈ load.operands → (data.get? key).isSome = true := by
    intro key hk
    obtain rfl : key = "s0" := by simpa [load] using hk
    rfl
  have hcount : front.count '\n' = 3 := by decide +kernel
  have hname : String.ofList (Text.trim colon.display.toList.dropLast) = "rev .d" := by
    decide +kernel
  obtain ⟨-, haccepted⟩ :=
    (takes_display_of_read hread (i := ⟨4, load⟩) (by simp) hb hf rfl).1 hload
  obtain ⟨hinstruction, -⟩ :=
    (takes_display_of_read hread (i := ⟨5, quoted⟩) (by simp) hb hf rfl).1 hquoted
  obtain ⟨hlabel, -⟩ :=
    (takes_display_of_read hread (i := ⟨6, colon⟩) (by simp) hb hf rfl).2 hcolon
  rw [hcount] at haccepted hinstruction
  rw [hname] at hlabel
  exact ⟨hread, hb, hf, haccepted hfront hkey, hinstruction, hlabel⟩

end Assembly

end Octet
