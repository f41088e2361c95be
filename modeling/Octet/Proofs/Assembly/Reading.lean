import Octet.Proofs.Assembly.Entries

namespace Octet

namespace Program

/-- Adds texts under keys that are counted on. -/
def addTexts (program : Program) (n : Nat) : List String → Program
  | [] => program
  | text :: texts => (program.addData (Listing.dataKey n) text).addTexts (n + 1) texts

def addLine (program : Program) (number : Nat) : Listing.Line → Program
  | .label n => program.addLabel (Listing.labelName n)
  | .instruction i _ => program.addInstruction number i

/-- Adds lines of code whose numbers are counted on. -/
def addLines (program : Program) (number : Nat) : List Listing.Line → Program
  | [] => program
  | line :: code => (program.addLine number line).addLines (number + 1) code

end Program

namespace Listing

/-- The number of the first line of code in a written listing. -/
def firstLine (listing : Listing) (name : Option String) : Nat :=
  (heading name).length + (if listing.texts.isEmpty then 0 else listing.texts.length + 2) + 2

/-- The program that a listing stands for, with the numbers of its lines as they are written. -/
def assembled (listing : Listing) (name : Option String) : Program :=
  (Program.empty.addTexts 0 listing.texts).addLines (listing.firstLine name) listing.code

/-- A line that is read as it was meant. -/
def Line.Legible : Line → Prop
  | label _ => True
  | instruction i comment =>
    (∀ o ∈ i.operands, o.Legible) ∧ ∀ text ∈ comment, '\n' ∉ text.toList

end Listing

namespace Assembly

/-- A data entry as the reader sees it. -/
def entryContent (n : Nat) (text : String) : List Char :=
  (Listing.dataKey n).toList ++ ':' :: ' ' :: '"' :: Text.escape text.toList ++ ['"']

theorem isKey_dataKey (n : Nat) : IsKey (Listing.dataKey n) := by
  have hn : ∀ c ∈ Nat.toDigits 10 n, c.isAlphanum = true ∨ c = '_' := fun c hm =>
    .inl (by simp [Char.isAlphanum, Text.isDigit_of_mem_digits hm])
  simpa [IsKey, Listing.dataKey] using hn

theorem content_entryText (n : Nat) (text : String) :
    content (Listing.entryText n text).toList = entryContent n text := by
  have hl : IsMargin [' ', ' '] := by decide +kernel
  have h := content_entry (isKey_dataKey n) hl isMargin_nil isMargin_space isMargin_nil (.inl rfl)
    text
  simpa [Listing.entryText, entryContent] using h

/-- An entry is read back, whatever its text holds. -/
theorem isEntry_entryContent (n : Nat) (text : String) :
    IsEntry (entryContent n text) (Listing.dataKey n) text := by
  have h := isEntry_escape (isKey_dataKey n) isMargin_nil isMargin_space text
  simpa [entryContent] using h

end Assembly

namespace Assembly.Reader

variable {reader next : Reader} {number : Nat}

theorem readLines_entryTexts (hp : reader.part = .data) (texts : List String) (n : Nat)
    (lines : List (List Char)) :
    reader.readLines number ((Listing.entryTexts n texts).map String.toList ++ lines) =
      { reader with program := reader.program.addTexts n texts }.readLines
        (number + texts.length) lines := by
  induction texts generalizing reader number n with
  | nil => rfl
  | cons text texts ih =>
    let next := { reader with program := reader.program.addData (Listing.dataKey n) text }
    have hr : reader.readLine number (content (Listing.entryText n text).toList) = .ok next := by
      rw [content_entryText]
      exact readLine_of_isEntry hp (isEntry_entryContent n text)
    have hn : next.part = .data := hp
    have ht : next.readLines (number + 1) _ = _ := ih hn (n + 1)
    rw [Listing.entryTexts, List.map_cons, List.cons_append, readLines_cons hr, ht,
      List.length_cons, Program.addTexts, Nat.add_right_comm, Nat.add_assoc]

theorem ne_toList_of_head? {s : List Char} {t : String} (h : s.head? ≠ t.toList.head?) :
    s ≠ t.toList :=
  fun he => h (congrArg List.head? he)

theorem readLine_label (hp : reader.part = .code) (n : Nat) :
    reader.readLine number (content (Listing.Line.label n).text.toList) =
      .ok { reader with program := reader.program.addLabel (Listing.labelName n) } := by
  have ht : (Listing.Line.label n).text.toList = (Listing.labelName n).toList ++ [':'] := by
    simp [Listing.Line.text]
  have hl : isLabel ((Listing.labelName n).toList ++ [':']) = true := by simp [isLabel]
  have hd : (Listing.labelName n).toList ++ [':'] ≠ ".data".toList := by simp [Listing.labelName]
  have hc : (Listing.labelName n).toList ++ [':'] ≠ ".code".toList := by simp [Listing.labelName]
  have he : ((Listing.labelName n).toList ++ [':']).isEmpty = false := by simp
  have hn : Text.trim (Listing.labelName n).toList = (Listing.labelName n).toList :=
    Text.trim_of_ends
      (fun _ hc => isBlank_of_isMark (isMark_of_mem_labelName (List.mem_of_head? hc)))
      (fun _ hc => isBlank_of_isMark (isMark_of_mem_labelName (List.mem_of_getLast? hc)))
  rw [ht, (bare_labelName n).content_eq]
  simp only [readLine, he, hd, hc, hp, readCode, hl, List.dropLast_concat, hn,
    String.ofList_toList, Bool.false_eq_true, if_false, if_true]

theorem readLine_instruction (hp : reader.part = .code) {i : Instruction}
    (h : ∀ o ∈ i.operands, o.Legible) (comment : Option String) :
    reader.readLine number (content (Listing.Line.instruction i comment).text.toList) =
      .ok { reader with program := reader.program.addInstruction number i } := by
  have hf : (Listing.instructionText i).toList.head? ≠ some '.' := by
    rw [Instruction.head?_text]
    cases i.opcode <;> decide
  have hd := ne_toList_of_head? (t := ".data") hf
  have hc := ne_toList_of_head? (t := ".code") hf
  have he : (Listing.instructionText i).toList.isEmpty = false := by
    refine List.isEmpty_eq_false_iff.2 (ne_toList_of_head? (t := "") ?_)
    rw [Instruction.head?_text]
    cases i.opcode <;> decide
  have hl : isLabel (Listing.instructionText i).toList = false := by
    refine beq_eq_false_iff_ne.2 fun hl => ?_
    exact absurd (Instruction.isMark_getLast?_text h ':' hl) (by decide)
  rw [content_instruction h]
  simp only [readLine, he, hd, hc, hp, readCode, hl, Instruction.read_text h, Bool.false_eq_true,
    if_false]
  rfl

theorem readLine_code (hp : reader.part = .code) {line : Listing.Line} (h : line.Legible) :
    reader.readLine number (content line.text.toList) =
      .ok { reader with program := reader.program.addLine number line } := by
  cases line with
  | label n => exact readLine_label hp n
  | instruction i comment => exact readLine_instruction hp h.1 comment

theorem readLines_code (hp : reader.part = .code) {code : List Listing.Line}
    (h : ∀ line ∈ code, line.Legible) :
    reader.readLines number (code.map fun line => line.text.toList) =
      .ok { reader with program := reader.program.addLines number code } := by
  induction code generalizing reader number with
  | nil => rfl
  | cons line code ih =>
    let next := { reader with program := reader.program.addLine number line }
    have hn : next.part = .code := hp
    have ht : next.readLines (number + 1) _ = _ := ih hn fun l hl => h l (by simp [hl])
    rw [List.map_cons, readLines_cons (readLine_code hp (h line (by simp))), ht, Program.addLines]

end Assembly.Reader

end Octet
