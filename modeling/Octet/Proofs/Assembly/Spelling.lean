import Octet.Assembly.Operand
import Octet.Listing
import Octet.Proofs.Text.Layout

namespace Octet

/-- The characters that instructions are written with, blanks and commas aside. -/
def Assembly.isMark (c : Char) : Bool := c.isAlphanum || c == '.' || c == '-'

def Assembly.isGap (c : Char) : Bool := Text.isBlank c || c == ','

namespace Assembly

theorem isMark_of_isDigit {c : Char} (h : c.isDigit = true) : isMark c = true := by
  simp [isMark, Char.isAlphanum, h]

theorem isBlank_of_isMark {c : Char} (h : isMark c = true) : Text.isBlank c = false := by
  simp only [isMark, Bool.or_eq_true, beq_iff_eq] at h
  obtain (h | rfl) | rfl := h
  · change ((decide (65 ≤ c.val ∧ c.val ≤ 90) || (decide (97 ≤ c.val) && decide (c.val ≤ 122))) ||
      (decide (48 ≤ c.val) && decide (c.val ≤ 57))) = true at h
    simp only [Text.isBlank, Char.toNat, UInt32.le_iff_toNat_le, Bool.or_eq_true,
      Bool.and_eq_true, decide_eq_true_eq, Bool.or_eq_false_iff, Bool.and_eq_false_iff,
      decide_eq_false_iff_not, beq_eq_false_iff_ne] at *
    simp at *
    omega
  · rfl
  · rfl

theorem isGap_of_isMark {c : Char} (h : isMark c = true) : isGap c = false := by
  have hc : c ≠ ',' := by rintro rfl; exact absurd h (by decide)
  simp [isGap, isBlank_of_isMark h, hc]

end Assembly

namespace Text

theorem isDigit_of_mem_digits {n : Nat} {c : Char} (h : c ∈ Nat.toDigits 10 n) :
    c.isDigit = true :=
  Nat.isDigit_of_mem_toDigits (by decide) (by decide) h

theorem all_isDigit_digits (n : Nat) : (Nat.toDigits 10 n).all Char.isDigit = true :=
  List.all_eq_true.2 fun _ hc => isDigit_of_mem_digits hc

theorem signed_toDigits (sign : Int) (n : Nat) (h : isInt64 (sign * n) = true) :
    signed sign (Nat.toDigits 10 n) = some (sign * n) := by
  simp [signed, all_isDigit_digits, decimal_toDigits, Option.filter, h]

/-- Every integer of 64 bits is read back from its digits. -/
theorem readInt_repr {i : Int} (h : isInt64 i = true) : readInt i.repr.toList = some i := by
  cases i with
  | ofNat n =>
    have hs : readInt (Nat.toDigits 10 n) = signed 1 (Nat.toDigits 10 n) := by
      unfold readInt
      split
      · next s hs =>
        have hd := isDigit_of_mem_digits (hs ▸ List.mem_cons_self : '-' ∈ Nat.toDigits 10 n)
        exact absurd hd (by decide)
      · next s hs =>
        have hd := isDigit_of_mem_digits (hs ▸ List.mem_cons_self : '+' ∈ Nat.toDigits 10 n)
        exact absurd hd (by decide)
      · rfl
    have hn : (1 : Int) * n = Int.ofNat n := by simp
    rw [Int.repr, Nat.toList_repr, hs, signed_toDigits 1 n (by rw [hn]; exact h), hn]
  | negSucc n =>
    have hn : (-1 : Int) * ((n + 1 : Nat) : Int) = Int.negSucc n := by omega
    have hs := signed_toDigits (-1) (n + 1) (by rw [hn]; exact h)
    rw [hn] at hs
    simpa [Int.repr, readInt] using hs

end Text

namespace Operand

/-- The operands that read as they are displayed. -/
def Legible : Operand → Prop
  | register _ => True
  | immediate i => Text.isInt64 i = true
  | label name => ∃ n, name = Listing.labelName n
  | data key => ∃ n, key = Listing.dataKey n

/-- What a legible operand displays: it ends in a digit. -/
theorem toList_display_of_legible {o : Operand} (h : o.Legible) :
    ∃ lead n, o.display.toList = lead ++ Nat.toDigits 10 n ∧ lead.all Assembly.isMark = true := by
  cases o with
  | register r => exact ⟨['r'], r.val, by simp [display], by decide⟩
  | immediate i =>
    cases i with
    | ofNat n => exact ⟨[], n, by simp [display, Int.repr], rfl⟩
    | negSucc n => exact ⟨['-'], n + 1, by simp [display, Int.repr], by decide⟩
  | label name =>
    obtain ⟨n, rfl⟩ := h
    exact ⟨['.', 'L'], n, by simp [display, Listing.labelName], by decide⟩
  | data key =>
    obtain ⟨n, rfl⟩ := h
    exact ⟨['s'], n, by simp [display, Listing.dataKey], by decide⟩

theorem isMark_of_mem_display {o : Operand} (h : o.Legible) {c : Char}
    (hc : c ∈ o.display.toList) : Assembly.isMark c = true := by
  obtain ⟨lead, n, hd, hl⟩ := toList_display_of_legible h
  rw [hd, List.mem_append] at hc
  obtain hc | hc := hc
  · exact List.all_eq_true.1 hl c hc
  · exact Assembly.isMark_of_isDigit (Text.isDigit_of_mem_digits hc)

theorem display_ne_nil {o : Operand} (h : o.Legible) : o.display.toList ≠ [] := by
  obtain ⟨lead, n, hd, -⟩ := toList_display_of_legible h
  simp [hd]

theorem toLower_of_isDigit {c : Char} (h : c.isDigit = true) : c.toLower = c := by
  simp only [Char.isDigit, Bool.and_eq_true, decide_eq_true_eq] at h
  have hu : ¬(c.val ≥ 'A'.val ∧ c.val ≤ 'Z'.val) := by
    simp only [UInt32.le_iff_toNat_le, ge_iff_le] at *
    simp at *
    omega
  exact dif_neg hu

theorem map_toLower_toDigits (n : Nat) :
    (Nat.toDigits 10 n).map Char.toLower = Nat.toDigits 10 n := by
  refine (List.map_congr_left fun c hc => ?_).trans (List.map_id' _)
  exact toLower_of_isDigit (Text.isDigit_of_mem_digits hc)

/-- A word that begins like no other operand is a number. -/
theorem read_eq_immediate {c : Char} {s : List Char} (hr : c.toLower ≠ 'r') (hp : c ≠ '.')
    (hs : c.toLower ≠ 's') {i : Int} (hi : Text.readInt (c :: s) = some i) :
    read (c :: s) = .ok (.immediate i) := by
  have hn : register? ((c :: s).map Char.toLower) = none := by
    unfold register?
    split
    · next h => exact absurd (List.cons.inj h).1 hr
    · rfl
  have hk : isDataKey ((c :: s).map Char.toLower) = false := by
    unfold isDataKey
    split
    · next h => exact absurd (List.cons.inj h).1 hs
    · rfl
  simp only [read, hn, hk, hi, List.head?_cons, Option.some.injEq, hp, Bool.false_eq_true, if_false]

theorem read_display {o : Operand} (h : o.Legible) : read o.display.toList = .ok o := by
  cases o with
  | register r =>
    have hr : ∀ r : Slot, read (register r).display.toList = .ok (register r) := by decide
    exact hr r
  | immediate i =>
    have hi := Text.readInt_repr h
    cases i with
    | ofNat n =>
      obtain ⟨c, s, hw⟩ := List.exists_cons_of_ne_nil (Nat.toDigits_ne_nil (n := n) (b := 10))
      have hc : c.isDigit = true := Text.isDigit_of_mem_digits (hw ▸ List.mem_cons_self ..)
      rw [display, Int.repr, Nat.toList_repr, hw]
      rw [Int.repr, Nat.toList_repr, hw] at hi
      refine read_eq_immediate ?_ ?_ ?_ hi
      · rw [toLower_of_isDigit hc]; rintro rfl; exact absurd hc (by decide)
      · rintro rfl; exact absurd hc (by decide)
      · rw [toLower_of_isDigit hc]; rintro rfl; exact absurd hc (by decide)
    | negSucc n =>
      rw [Int.repr, String.toList_append] at hi
      rw [display, Int.repr, String.toList_append]
      exact read_eq_immediate (by decide) (by decide) (by decide) hi
  | label name =>
    obtain ⟨n, rfl⟩ := h
    have hr : register? ((Listing.labelName n).toList.map Char.toLower) = none := by
      simp [Listing.labelName, register?]
    have hp : (Listing.labelName n).toList.head? = some '.' := by simp [Listing.labelName]
    simp only [read, display, hr, hp, if_true, String.ofList_toList]
  | data key =>
    obtain ⟨n, rfl⟩ := h
    have hw : (Listing.dataKey n).toList = 's' :: Nat.toDigits 10 n := by simp [Listing.dataKey]
    have hl : (Listing.dataKey n).toList.map Char.toLower = (Listing.dataKey n).toList := by
      simpa [hw] using map_toLower_toDigits n
    have hr : register? (Listing.dataKey n).toList = none := by simp [hw, register?]
    have hp : (Listing.dataKey n).toList.head? ≠ some '.' := by simp [hw]
    have hk : isDataKey (Listing.dataKey n).toList = true := by
      simp [hw, isDataKey, Text.all_isDigit_digits]
    simp only [read, display, hl, hr, if_neg hp, hk, if_true, String.ofList_toList]

end Operand

theorem Opcode.padRight_name (op : Opcode) :
    (Text.padRight 5 op.name).toList = op.name.toList ++ [' ', ' '] := by
  cases op <;> decide

theorem Opcode.name_ne_nil (op : Opcode) : op.name.toList ≠ [] := by
  cases op <;> decide

theorem Opcode.isMark_of_mem_name {op : Opcode} {c : Char} (h : c ∈ op.name.toList) :
    Assembly.isMark c = true := by
  have hn : op.name.toList.all Assembly.isMark = true := by cases op <;> decide
  exact List.all_eq_true.1 hn c h

namespace Instruction

variable {i : Instruction}

/-- The words that an instruction is written in. -/
def words (i : Instruction) : List (List Char) :=
  i.opcode.name.toList :: i.operands.map fun o => o.display.toList

theorem toList_text_of_nil (h : i.operands = []) :
    (Listing.instructionText i).toList = i.opcode.name.toList := by
  simp [Listing.instructionText, h]

theorem toList_text_of_ne_nil (h : i.operands ≠ []) :
    (Listing.instructionText i).toList = i.opcode.name.toList ++ ' ' :: ' ' ::
      [',', ' '].intercalate (i.operands.map fun o => o.display.toList) := by
  have hp := Opcode.padRight_name i.opcode
  cases ho : i.operands with
  | nil => exact absurd ho h
  | cons o os =>
    simp [Listing.instructionText, ho, hp, String.toList_intercalate, Function.comp_def]

theorem fields_text (h : ∀ o ∈ i.operands, o.Legible) :
    Text.fields Assembly.isGap (Listing.instructionText i).toList = i.words := by
  have hn := i.opcode.name_ne_nil
  have hg : ∀ c ∈ i.opcode.name.toList, Assembly.isGap c = false :=
    fun c hc => Assembly.isGap_of_isMark (Opcode.isMark_of_mem_name hc)
  by_cases ho : i.operands = []
  · rw [toList_text_of_nil ho, Text.fields_of_word hn hg, words, ho, List.map_nil]
  · rw [toList_text_of_ne_nil ho, Text.fields_append_cons hn hg rfl, words,
      Text.fields_cons_of_sep rfl, Text.fields_intercalate rfl (List.forall_mem_singleton.2 rfl)]
    intro w hw
    obtain ⟨o, hm, rfl⟩ := List.mem_map.1 hw
    exact ⟨Operand.display_ne_nil (h o hm),
      fun c hc => Assembly.isGap_of_isMark (Operand.isMark_of_mem_display (h o hm) hc)⟩

theorem isMark_of_mem_words (h : ∀ o ∈ i.operands, o.Legible) {w : List Char} (hw : w ∈ i.words)
    {c : Char} (hc : c ∈ w) : Assembly.isMark c = true := by
  obtain rfl | hw := List.mem_cons.1 hw
  · exact Opcode.isMark_of_mem_name hc
  · obtain ⟨o, ho, rfl⟩ := List.mem_map.1 hw
    exact Operand.isMark_of_mem_display (h o ho) hc

theorem mem_text (h : ∀ o ∈ i.operands, o.Legible) {c : Char}
    (hc : c ∈ (Listing.instructionText i).toList) :
    Assembly.isMark c = true ∨ c = ' ' ∨ c = ',' := by
  by_cases ho : i.operands = []
  · rw [toList_text_of_nil ho] at hc
    exact .inl (Opcode.isMark_of_mem_name hc)
  · rw [toList_text_of_ne_nil ho] at hc
    obtain hc | hc := List.mem_append.1 hc
    · exact .inl (Opcode.isMark_of_mem_name hc)
    · obtain rfl | hc := List.mem_cons.1 hc
      · simp
      · obtain rfl | hc := List.mem_cons.1 hc
        · simp
        · obtain hc | ⟨w, hw, hc⟩ := Text.mem_intercalate hc
          · right
            simpa [or_comm] using hc
          · exact .inl (isMark_of_mem_words h (List.mem_cons_of_mem _ hw) hc)

theorem head?_text (i : Instruction) :
    (Listing.instructionText i).toList.head? = i.opcode.name.toList.head? := by
  have hn := i.opcode.name_ne_nil
  by_cases ho : i.operands = []
  · rw [toList_text_of_nil ho]
  · obtain ⟨c, s, hs⟩ := List.exists_cons_of_ne_nil hn
    rw [toList_text_of_ne_nil ho, hs, List.cons_append, List.head?_cons, List.head?_cons]

theorem isMark_getLast?_text (h : ∀ o ∈ i.operands, o.Legible) :
    ∀ c ∈ (Listing.instructionText i).toList.getLast?, Assembly.isMark c = true := by
  intro c hc
  by_cases ho : i.operands = []
  · rw [toList_text_of_nil ho] at hc
    exact Opcode.isMark_of_mem_name (List.mem_of_getLast? hc)
  · have hn : ∀ w ∈ i.operands.map fun o => o.display.toList, w ≠ [] := by
      intro w hw
      obtain ⟨o, hm, rfl⟩ := List.mem_map.1 hw
      exact Operand.display_ne_nil (h o hm)
    obtain ⟨o, os, hos⟩ := List.exists_cons_of_ne_nil ho
    have hne := Text.intercalate_ne_nil [',', ' '] (hn o.display.toList (by simp [hos]))
      (os.map fun o => o.display.toList)
    rw [toList_text_of_ne_nil ho, List.append_cons, List.append_cons,
      List.getLast?_append_of_ne_nil _ (by simpa [hos] using hne)] at hc
    obtain ⟨w, hw, hm⟩ := Text.mem_getLast?_intercalate hn c hc
    exact isMark_of_mem_words h (List.mem_cons_of_mem _ hw) hm

theorem mapM_read_display {os : List Operand} (h : ∀ o ∈ os, o.Legible) :
    (os.map fun o => o.display.toList).mapM Operand.read = .ok os := by
  induction os with
  | nil => rfl
  | cons o os ih =>
    have hr := Operand.read_display (h o (by simp))
    have ht := ih fun p hp => h p (by simp [hp])
    simp [hr, ht, bind, Except.bind, pure, Except.pure]

/-- An instruction is read back from its columns. -/
theorem read_text (h : ∀ o ∈ i.operands, o.Legible) :
    read (Listing.instructionText i).toList = .ok i := by
  have hf : Text.fields (fun c => Text.isBlank c || c == ',') (Listing.instructionText i).toList =
    i.words := fields_text h
  simp [read, hf, words, Opcode.named?_name, mapM_read_display h, bind, Except.bind, pure,
    Except.pure]

end Instruction

end Octet
