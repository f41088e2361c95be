import Octet.Assembly.Reader
import Octet.Proofs.Assembly.Spelling

namespace Octet.Assembly

/-- What the reader sees of a line. -/
def content (line : List Char) : List Char := Text.trim (uncommented line)

@[simp] theorem content_comment (s : List Char) : content (';' :: s) = [] := rfl

/-- Outside of a text only quotation marks and semicolons mean something. -/
theorem uncomment_append {s : List Char} (h : ∀ c ∈ s, c ≠ '"' ∧ c ≠ ';') (rest : List Char) :
    uncomment false false (s ++ rest) = s ++ uncomment false false rest := by
  induction s with
  | nil => rfl
  | cons c s ih =>
    obtain ⟨hq, hs⟩ := h c (by simp)
    rw [List.cons_append, uncomment, ih fun d hd => h d (by simp [hd])]
    simp [hq, hs]

/-- A last character is cut off with the comment or stays. -/
theorem uncomment_concat (s : List Char) (c : Char) (inText afterBackslash : Bool) :
    uncomment inText afterBackslash (s ++ [c]) = uncomment inText afterBackslash s ∨
      uncomment inText afterBackslash (s ++ [c]) = uncomment inText afterBackslash s ++ [c] := by
  induction s generalizing inText afterBackslash with
  | nil =>
    simp only [List.nil_append, uncomment]
    split_ifs <;> simp
  | cons d s ih =>
    simp only [List.cons_append, uncomment]
    split_ifs
    · simpa using ih inText false
    · simpa using ih inText true
    · simpa using ih (!inText) false
    · simp
    · simpa using ih inText false

/-- A carriage return at the end of a line makes no difference. -/
theorem content_chomp (line : List Char) : content (Text.chomp line) = content line := by
  rw [Text.chomp]
  split
  · next h =>
    obtain ⟨s, rfl⟩ := List.getLast?_eq_some_iff.1 h
    rw [List.dropLast_concat, content, content, uncommented, uncommented]
    obtain hc | hc := uncomment_concat s '\r' false false
    · rw [hc]
    · rw [hc, Text.trim_concat_of_blank _ rfl]
  · rfl

/-- Text without quotation marks and semicolons that no blank begins or ends. -/
structure Bare (s : List Char) : Prop where
  plain : ∀ c ∈ s, c ≠ '"' ∧ c ≠ ';'
  begins : ∀ c ∈ s.head?, Text.isBlank c = false
  ends : ∀ c ∈ s.getLast?, Text.isBlank c = false

/-- Blanks around a bare text and a comment behind it are not part of the line. -/
theorem Bare.content_margins {s left right comment : List Char} (h : Bare s)
    (hl : ∀ c ∈ left, c = ' ') (hr : ∀ c ∈ right, c = ' ') (hc : uncommented comment = []) :
    content (left ++ s ++ right ++ comment) = s := by
  have hp : ∀ c ∈ left ++ s ++ right, c ≠ '"' ∧ c ≠ ';' := by
    intro c hm
    simp only [List.mem_append] at hm
    obtain (hm | hm) | hm := hm
    · rw [hl c hm]; decide
    · exact h.plain c hm
    · rw [hr c hm]; decide
  have hu : uncommented (left ++ s ++ right ++ comment) = left ++ s ++ right := by
    rw [uncommented, uncomment_append hp]
    exact (congrArg _ hc).trans (List.append_nil _)
  rw [content, hu]
  exact Text.trim_margins (fun c hm => by rw [hl c hm]; rfl) (fun c hm => by rw [hr c hm]; rfl)
    h.begins h.ends

theorem Bare.content_eq {s : List Char} (h : Bare s) : content s = s := by
  have hc : content ([] ++ s ++ [] ++ []) = s := h.content_margins nofun nofun rfl
  rwa [List.nil_append, List.append_nil, List.append_nil] at hc

theorem ne_of_isMark {c d : Char} (h : isMark c = true) (hd : isMark d = false) : c ≠ d := by
  rintro rfl
  exact Bool.false_ne_true (hd.symm.trans h)

theorem plain_of_isMark {c : Char} (h : isMark c = true) : c ≠ '"' ∧ c ≠ ';' :=
  ⟨ne_of_isMark h rfl, ne_of_isMark h rfl⟩

theorem isMark_of_mem_labelName {n : Nat} {c : Char} (h : c ∈ (Listing.labelName n).toList) :
    isMark c = true :=
  Operand.isMark_of_mem_display (o := .label (Listing.labelName n)) ⟨n, rfl⟩ h

theorem isMark_of_mem_dataKey {n : Nat} {c : Char} (h : c ∈ (Listing.dataKey n).toList) :
    isMark c = true :=
  Operand.isMark_of_mem_display (o := .data (Listing.dataKey n)) ⟨n, rfl⟩ h

theorem bare_labelName (n : Nat) : Bare ((Listing.labelName n).toList ++ [':']) where
  plain := by
    intro c hc
    obtain hc | hc := List.mem_append.1 hc
    · exact plain_of_isMark (isMark_of_mem_labelName hc)
    · rw [List.mem_singleton.1 hc]; decide
  begins := by simp [Listing.labelName]; rfl
  ends := by simp; rfl

theorem bare_instructionText {i : Instruction} (h : ∀ o ∈ i.operands, o.Legible) :
    Bare (Listing.instructionText i).toList where
  plain := by
    intro c hc
    obtain hm | rfl | rfl := Instruction.mem_text h hc
    · exact ⟨ne_of_isMark hm rfl, ne_of_isMark hm rfl⟩
    · decide
    · decide
  begins := by
    rw [Instruction.head?_text]
    exact fun c hc => isBlank_of_isMark (Opcode.isMark_of_mem_name (List.mem_of_head? hc))
  ends := fun c hc => isBlank_of_isMark (Instruction.isMark_getLast?_text h c hc)

/-- A comment is no part of an instruction, however it is written. -/
theorem content_instruction {i : Instruction} (h : ∀ o ∈ i.operands, o.Legible)
    (comment : Option String) :
    content (Listing.Line.instruction i comment).text.toList =
      (Listing.instructionText i).toList := by
  have hb := bare_instructionText h
  cases comment with
  | none =>
    have hm : content ([' ', ' '] ++ (Listing.instructionText i).toList ++ [] ++ []) = _ :=
      hb.content_margins (by simp) nofun rfl
    simpa [Listing.Line.text] using hm
  | some text =>
    have hm : content ([' ', ' '] ++ (Listing.instructionText i).toList ++
        List.replicate (24 - (Listing.instructionText i).toList.length) ' ' ++
        ';' :: ' ' :: text.toList) = _ := hb.content_margins (by simp) (by simp) rfl
    simpa [Listing.Line.text, Text.padRight, List.rightpad] using hm

namespace Reader

variable {reader next : Reader} {number : Nat}

theorem readLines_cons {line : List Char}
    (h : reader.readLine number (content line) = .ok next) (lines : List (List Char)) :
    reader.readLines number (line :: lines) = next.readLines (number + 1) lines := by
  rw [content] at h
  rw [readLines, h]

/-- What comes first in a text is read first. -/
theorem readLines_append (reader : Reader) (number : Nat) (lines more : List (List Char)) :
    reader.readLines number (lines ++ more) =
      reader.readLines number lines >>= fun next =>
        next.readLines (number + lines.length) more := by
  induction lines generalizing reader number with
  | nil => rfl
  | cons line lines ih =>
    rw [List.cons_append, readLines, readLines]
    cases reader.readLine number (Text.trim (uncommented line)) with
    | error e => rfl
    | ok next =>
      have hn : number + (line :: lines).length = number + 1 + lines.length := by
        rw [List.length_cons, Nat.add_assoc, Nat.add_comm 1]
      rw [hn]
      exact ih next (number + 1)

/-- Lines without content are passed over. -/
theorem readLines_append_of_content_eq_nil {blanks : List (List Char)}
    (h : ∀ line ∈ blanks, content line = []) (lines : List (List Char)) :
    reader.readLines number (blanks ++ lines) =
      reader.readLines (number + blanks.length) lines := by
  induction blanks generalizing number with
  | nil => rfl
  | cons line blanks ih =>
    have hn : reader.readLine number (content line) = .ok reader := by
      simp [h line (by simp), readLine]
    rw [List.cons_append, readLines_cons hn, ih fun l hl => h l (by simp [hl]), List.length_cons]
    congr 1
    omega

end Reader

end Octet.Assembly
