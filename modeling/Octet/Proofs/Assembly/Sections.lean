import Octet.Proofs.Assembly.Lines

namespace Octet

/-- What a line of a listing stands for. -/
inductive Assembly.Item
  | entry (key text : String)
  | label (name : String)
  | instruction (i : Instruction)

/-- A program with what one more line stands for. -/
def Program.add (program : Program) (number : Nat) : Assembly.Item → Program
  | .entry key text => program.addData key text
  | .label name => program.addLabel name
  | .instruction i => program.addInstruction number i

namespace Assembly

variable {line : List Char} {lines more earlier : List (List Char)} {part : Part} {n m : Nat}

/-- A line fits the part of a listing that it stands in. -/
inductive Fits : Part → List Char → Item → Prop
  | entry {line : List Char} {key text : String} (h : IsEntry line key text) :
      Fits .data line (.entry key text)
  | label (s : List Char) : Fits .code (s ++ [':']) (.label (String.ofList (Text.trim s)))
  | instruction {line : List Char} {i : Instruction} (hl : line.getLast? ≠ some ':')
      (h : i.Spells line) : Fits .code line (.instruction i)

/-- What is wrong with a line that does not fit. -/
inductive Offends : Part → List Char → AssemblyError → Prop
  | entry {line : List Char} (h : ∀ key text, ¬IsEntry line key text) :
      Offends .data line (.invalidDataEntry (String.ofList line))
  | instruction {line : List Char} {e : AssemblyError} (hl : line.getLast? ≠ some ':')
      (h : Instruction.Misspells line e) : Offends .code line e

section Item

def readItem (part : Part) (line : List Char) : Except AssemblyError Item :=
  if part = .data then
    match entry? line with
    | some (key, text) => .ok (.entry key text)
    | none => .error (.invalidDataEntry (String.ofList line))
  else if Reader.isLabel line then .ok (.label (String.ofList (Text.trim line.dropLast)))
  else (Instruction.read line).map .instruction

theorem isLabel_iff : Reader.isLabel line = true ↔ line.getLast? = some ':' := by
  simp [Reader.isLabel]

theorem readItem_of_fits {item : Item} (h : Fits part line item) :
    readItem part line = .ok item := by
  cases h with
  | entry h => rw [readItem, if_pos rfl, entry?_eq_some_iff.2 h]
  | label s =>
    have hl : Reader.isLabel (s ++ [':']) = true := isLabel_iff.2 List.getLast?_concat
    rw [readItem, if_neg (by decide), if_pos hl, List.dropLast_concat]
  | instruction hl h =>
    rw [readItem, if_neg (by decide), if_neg (mt isLabel_iff.1 hl), Instruction.read_of_spells h]
    rfl

theorem readItem_of_offends {e : AssemblyError} (h : Offends part line e) :
    readItem part line = .error e := by
  cases h with
  | entry h =>
    have hn : entry? line = none :=
      Option.eq_none_iff_forall_ne_some.2 fun p hp => h p.1 p.2 (entry?_eq_some_iff.1 hp)
    rw [readItem, if_pos rfl, hn]
  | instruction hl h =>
    rw [readItem, if_neg (by decide), if_neg (mt isLabel_iff.1 hl), Instruction.read_of_misspells h]
    rfl

theorem fits_or_offends (hp : part ≠ .before) (line : List Char) :
    (∃ item, Fits part line item) ∨ ∃ e, Offends part line e := by
  cases part with
  | before => exact absurd rfl hp
  | data =>
    by_cases h : ∃ key text, IsEntry line key text
    · obtain ⟨key, text, h⟩ := h
      exact .inl ⟨_, .entry h⟩
    · exact .inr ⟨_, .entry fun key text hk => h ⟨key, text, hk⟩⟩
  | code =>
    by_cases hl : line.getLast? = some ':'
    · obtain ⟨s, rfl⟩ := List.getLast?_eq_some_iff.1 hl
      exact .inl ⟨_, .label s⟩
    · obtain ⟨i, hi⟩ | ⟨e, he⟩ := Instruction.spells_or_misspells line
      · exact .inl ⟨_, .instruction hl hi⟩
      · exact .inr ⟨e, .instruction hl he⟩

end Item

section Part

/-- The part that a header opens. -/
def header? (line : List Char) : Option Part :=
  if line = ".data".toList then some .data
  else if line = ".code".toList then some .code
  else none

/-- A line that begins the code without a header: a label with a point in front, or an opcode in
capital or small letters with a blank or nothing behind it. -/
inductive BeginsCode : List Char → Prop
  | label (name : List Char) : BeginsCode ('.' :: (name ++ [':']))
  | opcode {word rest : List Char} {op : Opcode} (hn : op.name.toList = word.map Char.toLower)
      (hw : ∀ c ∈ word, Text.isBlank c = false) (hr : ∀ c ∈ rest.head?, Text.isBlank c = true) :
      BeginsCode (word ++ rest)

theorem beginsCode_eq_true_iff : Reader.beginsCode line = true ↔ BeginsCode line := by
  rw [Reader.beginsCode, Bool.or_eq_true, Bool.and_eq_true, isLabel_iff, beq_iff_eq]
  constructor
  · rintro (⟨hl, hh⟩ | ho)
    · obtain ⟨s, rfl⟩ := List.getLast?_eq_some_iff.1 hl
      cases s with
      | nil => cases hh
      | cons c name =>
        obtain rfl : c = '.' := Option.some.inj hh
        exact .label name
    · obtain ⟨op, ho⟩ := Option.isSome_iff_exists.1 ho
      rw [← List.takeWhile_append_dropWhile (p := fun c => !Text.isBlank c) (l := line)]
      refine .opcode (Opcode.named?_eq_some_iff.1 ho) (fun c hc => ?_) fun c hc => ?_
      · simpa using List.mem_takeWhile_imp hc
      · have hd := List.head?_dropWhile_not (fun c => !Text.isBlank c) line
        rw [Option.mem_def.1 hc] at hd
        simpa using hd
  · intro h
    cases h with
    | label name => exact .inl ⟨List.getLast?_concat (l := '.' :: name), rfl⟩
    | @opcode word rest op hn hw hr =>
      have hp : ∀ c ∈ word, (!Text.isBlank c) = true := by simpa using hw
      have ht : rest.takeWhile (fun c => !Text.isBlank c) = [] := by
        cases rest with
        | nil => rfl
        | cons c rest => simp [hr c rfl]
      rw [List.takeWhile_append_of_pos hp, ht, List.append_nil, Opcode.named?_eq_some_iff.2 hn]
      exact .inr rfl

instance : DecidablePred BeginsCode := fun _ => decidable_of_iff _ beginsCode_eq_true_iff

/-- The part of a listing behind some lines: the one that the last header has opened, or without a
header the code, once it has begun. -/
def partAfter (lines : List (List Char)) : Part :=
  match lines.reverse.findSome? header? with
  | some part => part
  | none => if ∃ line ∈ lines, BeginsCode line then .code else .before

/-- A line counts if there is something in it, it is no header and the code or the data has begun
with it or before it. -/
structure Counts (earlier : List (List Char)) (line : List Char) : Prop where
  content : line ≠ []
  header : header? line = none
  part : partAfter (earlier ++ [line]) ≠ .before

theorem header?_ne_before : header? line ≠ some .before := by
  unfold header?
  split_ifs <;> nofun

theorem partAfter_ne_before {part : Part} (h : lines.reverse.findSome? header? = some part) :
    part ≠ .before := by
  obtain ⟨line, -, hp⟩ := List.exists_of_findSome?_eq_some h
  rintro rfl
  exact header?_ne_before hp

/-- One more line changes the part if it is a header or begins the code. -/
theorem partAfter_concat (lines : List (List Char)) (line : List Char) :
    partAfter (lines ++ [line]) =
      match header? line with
      | some part => part
      | none =>
        if partAfter lines = .before ∧ BeginsCode line then .code
        else partAfter lines := by
  have hs : (lines ++ [line]).reverse.findSome? header? =
      (header? line).or (lines.reverse.findSome? header?) := by
    rw [List.reverse_concat, List.findSome?_cons]
    cases header? line <;> rfl
  rw [partAfter, hs]
  cases hh : header? line with
  | some part => rfl
  | none =>
    rw [Option.none_or]
    cases hf : lines.reverse.findSome? header? with
    | some part =>
      have hp : partAfter lines = part := by rw [partAfter, hf]
      simp only [hp, partAfter_ne_before hf, false_and, if_false]
    | none =>
      have hp : partAfter lines = if ∃ l ∈ lines, BeginsCode l then .code else .before := by
        rw [partAfter, hf]
      have he : (∃ l ∈ lines ++ [line], BeginsCode l) ↔
          (∃ l ∈ lines, BeginsCode l) ∨ BeginsCode line := by
        simp [or_and_right, exists_or]
      rw [hp]
      simp only [he]
      by_cases hb : ∃ l ∈ lines, BeginsCode l
      · simp [hb]
      · simp [hb]

end Part

section Reader

variable {reader : Reader} {number : Nat}

theorem header?_eq_none_iff :
    header? line = none ↔ line ≠ ".data".toList ∧ line ≠ ".code".toList := by
  unfold header?
  split_ifs <;> simp_all

theorem readLine_of_header (h : header? line = some part) :
    reader.readLine number line = .ok { reader with part } := by
  unfold header? at h
  split_ifs at h with hd hc
  · cases h
    subst hd
    rfl
  · cases h
    subst hc
    rfl

theorem readLine_of_content (hn : line ≠ []) (hh : header? line = none) :
    reader.readLine number line =
      match reader.part with
      | .data => reader.readData line
      | .code => reader.readCode number line
      | .before =>
        if BeginsCode line then { reader with part := .code }.readCode number line
        else .ok reader := by
  obtain ⟨hd, hc⟩ := header?_eq_none_iff.1 hh
  have he : ¬line.isEmpty = true := mt List.isEmpty_iff.1 hn
  cases hp : reader.part <;> simp only [Reader.readLine, if_neg he, if_neg hd, if_neg hc, hp,
    beginsCode_eq_true_iff]

theorem readData_eq (line : List Char) :
    reader.readData line = (readItem .data line).map fun item =>
      { reader with program := reader.program.add number item } := by
  rw [Reader.readData, readItem, if_pos rfl]
  cases entry? line <;> rfl

theorem readCode_eq (line : List Char) :
    reader.readCode number line = (readItem .code line).map fun item =>
      { reader with program := reader.program.add number item } := by
  have hp : Part.code ≠ .data := nofun
  rw [Reader.readCode, readItem, if_neg hp]
  by_cases hl : Reader.isLabel line = true
  · rw [if_pos hl, if_pos hl]
    rfl
  · rw [if_neg hl, if_neg hl]
    cases Instruction.read line <;> rfl

theorem partAfter_of_header (h : header? line = some part) :
    partAfter (lines ++ [line]) = part := by
  rw [partAfter_concat, h]

theorem partAfter_of_not_begins (hh : header? line = none)
    (h : ¬(partAfter lines = .before ∧ BeginsCode line)) :
    partAfter (lines ++ [line]) = partAfter lines := by
  rw [partAfter_concat, hh]
  exact if_neg h

/-- A line that does not count leaves the program as it is. -/
theorem readLine_of_not_counts (hp : reader.part = partAfter lines) (h : ¬Counts lines line) :
    reader.readLine number line = .ok { reader with part := partAfter (lines ++ [line]) } := by
  cases hh : header? line with
  | some part => rw [readLine_of_header hh, partAfter_of_header hh]
  | none =>
    by_cases hn : line = []
    · subst hn
      rw [partAfter_of_not_begins hh (fun hb => absurd hb.2 (by decide)), ← hp]
      rfl
    · have hb : partAfter (lines ++ [line]) = .before := by
        by_contra hb
        exact h ⟨hn, hh, hb⟩
      have hl : ¬(partAfter lines = .before ∧ BeginsCode line) := by
        intro hl
        rw [partAfter_concat, hh] at hb
        simp [hl] at hb
      rw [partAfter_of_not_begins hh hl] at hb
      rw [partAfter_of_not_begins hh hl, readLine_of_content hn hh, hp, hb]
      have hl : ¬BeginsCode line := fun h => hl ⟨hb, h⟩
      simp only [if_neg hl, ← hb, ← hp]

/-- A line that counts is read for the part that the listing is in behind it. -/
theorem readLine_of_counts (hp : reader.part = partAfter lines) (h : Counts lines line) :
    reader.readLine number line = (readItem (partAfter (lines ++ [line])) line).map fun item =>
      ⟨partAfter (lines ++ [line]), reader.program.add number item⟩ := by
  rw [readLine_of_content h.content h.header]
  obtain ⟨part, program⟩ := reader
  obtain rfl : part = partAfter lines := hp
  have hpart := h.part
  have hnext := partAfter_concat lines line
  rw [h.header] at hnext
  generalize partAfter (lines ++ [line]) = next at hpart hnext
  generalize partAfter lines = part at hnext
  cases part with
  | data =>
    obtain rfl : next = .data := by simpa using hnext
    exact readData_eq line
  | code =>
    obtain rfl : next = .code := by simpa using hnext
    exact readCode_eq line
  | before =>
    by_cases hb : BeginsCode line
    · obtain rfl : next = .code := by simpa [hb] using hnext
      simp only [hb, if_true]
      exact readCode_eq line
    · exact absurd (by simpa [hb] using hnext) hpart

end Reader

end Assembly

end Octet
