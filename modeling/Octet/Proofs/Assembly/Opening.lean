import Octet.Proofs.Assembly.Verdict
import Octet.Proofs.Machine.Renumbering

namespace Octet.Assembly

variable {line : List Char} {lines blank : List (List Char)} {listing : String} {number : Nat}

section Renumber

variable (count : Nat → Nat)

/-- The same reader of lines that are counted anew. -/
def Reader.renumber (reader : Reader) : Reader :=
  { reader with program := reader.program.renumber count }

/-- The same result of reading, on lines that are counted anew. -/
def renumber (result : Except (Located AssemblyError) Program) :
    Except (Located AssemblyError) Program :=
  (result.map (Program.renumber count)).mapError (Located.renumber count)

theorem renumber_add (program : Program) (item : Item) :
    (program.add number item).renumber count =
      (program.renumber count).add (count number) item := by
  cases item with
  | entry key text => rfl
  | label name => simp [Program.add, Program.addLabel, Program.renumber]
  | instruction i =>
    simp [Program.add, Program.addInstruction, Program.renumber, Located.renumber]

theorem missing?_renumber (program : Program) (n : Nat) (o : Operand) :
    missing? (program.renumber count) (count n) o =
      (missing? program n o).map (Located.renumber count) := by
  cases o with
  | register r | immediate i | label name => rfl
  | data key =>
    by_cases hk : (program.data.get? key).isSome = true
    · simp [missing?, Program.renumber, hk]
    · simp [missing?, Program.renumber, Located.renumber, hk]

theorem undefined?_renumber (program : Program) : undefined? (program.renumber count) =
    (undefined? program).map (Located.renumber count) := by
  have hi : ∀ i : Located Instruction, (i.renumber count).val.operands.findSome?
      (missing? (program.renumber count) (i.renumber count).line) =
        (i.val.operands.findSome? (missing? program i.line)).map (Located.renumber count) := by
    intro i
    rw [List.map_findSome?]
    exact congrArg (List.findSome? · i.val.operands) (funext fun o => missing?_renumber ..)
  have hl : (program.renumber count).instructions.toList =
      program.instructions.toList.map (Located.renumber count) := Array.toList_map
  rw [undefined?_eq, undefined?_eq, hl, List.findSome?_map, List.map_findSome?]
  exact congrArg (List.findSome? · _) (funext hi)

/-- What a line stands for does not depend on its number. -/
theorem readLine_renumber (reader : Reader) (number : Nat) (line : List Char) :
    (reader.renumber count).readLine (count number) line =
      (reader.readLine number line).map (Reader.renumber count) := by
  by_cases hn : line = []
  · subst hn
    rfl
  cases hh : header? line with
  | some part =>
    rw [readLine_of_header hh, readLine_of_header hh]
    rfl
  | none =>
    have hadd : ∀ (part : Part) (item : Except AssemblyError Item),
        item.map (fun item => (⟨part, (reader.program.renumber count).add (count number) item⟩ :
          Reader)) =
        (item.map fun item => (⟨part, reader.program.add number item⟩ : Reader)).map
          (Reader.renumber count) := by
      rintro part (e | item)
      · rfl
      · simp [Except.map, Reader.renumber, renumber_add]
    rw [readLine_of_content hn hh, readLine_of_content hn hh]
    obtain ⟨part, program⟩ := reader
    cases part with
    | data =>
      change Reader.readData _ _ = Except.map _ (Reader.readData _ _)
      refine (readData_eq line).trans ((hadd .data _).trans (congrArg (Except.map _) ?_))
      exact (@readData_eq ⟨.data, program⟩ number line).symm
    | code =>
      change Reader.readCode _ _ _ = Except.map _ (Reader.readCode _ _ _)
      rw [readCode_eq, readCode_eq]
      exact hadd .code _
    | before =>
      by_cases hb : BeginsCode line
      · simp only [Reader.renumber, hb, if_true, readCode_eq]
        exact hadd .code _
      · simp [Reader.renumber, hb, Except.map]

theorem readLines_renumber (reader : Reader) (number : Nat) (lines : List (List Char)) :
    (reader.renumber (· + 1)).readLines (number + 1) lines =
      ((reader.readLines number lines).map (Reader.renumber (· + 1))).mapError
        (Located.renumber (· + 1)) := by
  induction lines generalizing reader number with
  | nil => rfl
  | cons line lines ih =>
    have hl := readLine_renumber (· + 1) reader number (content line)
    rw [content] at hl
    rw [Reader.readLines, Reader.readLines, hl]
    cases reader.readLine number (Text.trim (uncommented line)) with
    | error e => rfl
    | ok next => exact ih next (number + 1)

end Renumber

section Header

/-- The header of the code may be left out of a listing: with a header before it, it is read the
same, one line further down. -/
def HeaderIsOptional (listing : String) : Prop :=
  read (".code\n" ++ listing) = renumber (· + 1) (read listing)

/-- The first line of a listing in which there is something. -/
def Opens (listing : String) (line : List Char) : Prop :=
  ∃ blank rest, contents listing = blank ++ line :: rest ∧ (∀ l ∈ blank, l = []) ∧ line ≠ []

/-- A line that code can begin with: an instruction, or a label with a point before it. -/
inductive Begins : List Char → Prop
  | instruction {line : List Char} {i : Instruction} (h : Fits .code line (.instruction i)) :
      Begins line
  | label {line : List Char} {name : String} (h : Fits .code line (.label name))
      (hp : line.head? = some '.') : Begins line

/-- The first word of a line, as far as no blank ends it. -/
def firstWord (line : List Char) : List Char := line.takeWhile fun c => !Text.isBlank c

/-- A line that code is seen to begin with: a label, or an opcode that no comma touches. -/
def Recognized (line : List Char) : Prop := line.getLast? = some ':' ∨ ',' ∉ firstWord line

theorem lines_header (listing : String) : Text.lines (".code\n" ++ listing).toList =
    ".code".toList :: Text.lines listing.toList := by
  have hl := Text.lines_append ".code".toList listing.toList
  rw [String.toList_append]
  exact hl

theorem contents_header (listing : String) :
    contents (".code\n" ++ listing) = ".code".toList :: contents listing := by
  rw [contents, lines_header]
  rfl

/-- With a header before it, a listing is read as code from its first line. -/
theorem readLines_header (listing : String) :
    Reader.initial.readLines 1 (Text.lines (".code\n" ++ listing).toList) =
      (((⟨.code, .empty⟩ : Reader).readLines 1 (Text.lines listing.toList)).map
        (Reader.renumber (· + 1))).mapError (Located.renumber (· + 1)) := by
  have hc : Reader.initial.readLine 1 (content ".code".toList) = .ok ⟨.code, .empty⟩ := rfl
  have he : (⟨.code, .empty⟩ : Reader).renumber (· + 1) = ⟨.code, .empty⟩ := by
    simp [Reader.renumber, Program.renumber, Program.empty]
  rw [lines_header, ← readLines_renumber, Reader.readLines_cons hc, he]

/-- Where code is seen to begin, a header would tell the reader nothing. -/
theorem readLines_code_eq {lines rest : List (List Char)} {program : Program}
    (hl : lines.map content = blank ++ line :: rest) (hb : ∀ l ∈ blank, l = [])
    (hc : BeginsCode line) :
    (⟨.code, program⟩ : Reader).readLines number lines =
      (⟨.before, program⟩ : Reader).readLines number lines := by
  induction blank generalizing lines number with
  | nil =>
    obtain ⟨first, lines, rfl, rfl, -⟩ := List.map_eq_cons_iff.1 hl
    have hr : (⟨.code, program⟩ : Reader).readLine number (content first) =
        (⟨.before, program⟩ : Reader).readLine number (content first) := by
      have hn : content first ≠ [] := by
        intro hn
        rw [hn] at hc
        exact absurd hc (by decide)
      simp only [Reader.readLine, List.isEmpty_iff, hn, beginsCode_eq_true_iff.2 hc, if_true,
        if_false]
    rw [content] at hr
    rw [Reader.readLines, Reader.readLines, hr]
  | cons l blank ih =>
    obtain ⟨first, lines, rfl, hf, ht⟩ := List.map_eq_cons_iff.1 hl
    obtain ⟨rfl, hrest⟩ := List.forall_mem_cons.1 hb
    have hr : ∀ reader : Reader, reader.readLine number (content first) = .ok reader := by
      intro reader
      rw [hf]
      rfl
    rw [Reader.readLines_cons (hr _), Reader.readLines_cons (hr _)]
    exact ih ht hrest

/-- What becomes of a listing when all its lines have been read. -/
def verdict (reader : Reader) : Except (Located AssemblyError) Program :=
  match undefined? reader.program with
  | none => .ok reader.program
  | some e => .error e

theorem read_eq (listing : String) :
    read listing = Reader.initial.readLines 1 (Text.lines listing.toList) >>= verdict :=
  rfl

theorem verdict_renumber (count : Nat → Nat) (reader : Reader) :
    verdict (reader.renumber count) = renumber count (verdict reader) := by
  have hu := undefined?_renumber count reader.program
  rw [verdict, verdict, Reader.renumber, hu]
  cases undefined? reader.program <;> rfl

theorem headerIsOptional_of_beginsCode (h : Opens listing line) (hc : BeginsCode line) :
    HeaderIsOptional listing := by
  obtain ⟨blank, rest, hl, hb, -⟩ := h
  have hr : (⟨.code, .empty⟩ : Reader).readLines 1 (Text.lines listing.toList) =
      Reader.initial.readLines 1 (Text.lines listing.toList) := readLines_code_eq hl hb hc
  rw [HeaderIsOptional, read_eq, read_eq, readLines_header, hr]
  cases Reader.initial.readLines 1 (Text.lines listing.toList) with
  | error e => rfl
  | ok reader => exact verdict_renumber _ reader

theorem findSome?_header?_blank (hb : ∀ l ∈ blank, l = []) :
    blank.reverse.findSome? header? = none := by
  refine List.findSome?_eq_none_iff.2 fun l hl => ?_
  rw [hb l (List.mem_reverse.1 hl)]
  rfl

/-- Behind the header blank lines lead no further. -/
theorem partAfter_header (hb : ∀ l ∈ blank, l = []) :
    partAfter (".code".toList :: blank) = .code := by
  rw [partAfter, List.reverse_cons, List.findSome?_append, findSome?_header?_blank hb]
  rfl

theorem partAfter_blank (hb : ∀ l ∈ blank, l = []) : partAfter blank = .before := by
  have hc : ¬∃ l ∈ blank, BeginsCode l := by
    rintro ⟨l, hl, hl'⟩
    rw [hb l hl] at hl'
    exact absurd hl' (by decide)
  rw [partAfter, findSome?_header?_blank hb]
  exact if_neg hc

theorem header?_of_fits {i : Instruction} (hf : Fits .code line (.instruction i)) :
    header? line = none := by
  have hr := readItem_of_fits hf
  refine header?_eq_none_iff.2 ⟨?_, ?_⟩
  · rintro rfl
    rw [show readItem .code ".data".toList = .error (.unknownOpcode ".data") by rfl] at hr
    cases hr
  · rintro rfl
    rw [show readItem .code ".code".toList = .error (.unknownOpcode ".code") by rfl] at hr
    cases hr

/-- An instruction that code is not seen to begin with is passed over, and stands in the program
only behind a header. -/
theorem not_headerIsOptional (h : Opens listing line) {i : Instruction}
    (hf : Fits .code line (.instruction i)) (hc : ¬BeginsCode line)
    {program : Program} (hr : read listing = .ok program) : ¬HeaderIsOptional listing := by
  obtain ⟨blank, rest, hl, hb, hn⟩ := h
  intro hopt
  have hh := header?_of_fits hf
  have hread : read (".code\n" ++ listing) = .ok (program.renumber (· + 1)) := by
    rw [hopt, hr]
    rfl
  obtain ⟨-, hd, -⟩ := describes_of_read hr
  obtain ⟨-, hd', -⟩ := describes_of_read hread
  rw [contents_header, hl] at hd'
  rw [hl] at hd
  have hbehind : partAfter (".code".toList :: blank ++ [line]) = .code := by
    rw [partAfter_of_not_begins hh fun hp => hc hp.2, partAfter_header hb]
  have hbefore : partAfter (blank ++ [line]) = .before := by
    rw [partAfter_of_not_begins hh fun hp => hc hp.2, partAfter_blank hb]
  have hsays : Says (".code".toList :: (blank ++ line :: rest)) (blank.length + 1 + 1)
      (.instruction i) :=
    ⟨".code".toList :: blank, line, ⟨rest, by simp⟩, rfl, ⟨hn, hh, by rw [hbehind]; nofun⟩,
      hbehind ▸ hf⟩
  have hmem := (hd'.instruction _ _).2 hsays
  have hi : ⟨blank.length + 1, i⟩ ∈ program.instructions.toList := by
    rw [Program.renumber, Array.toList_map] at hmem
    obtain ⟨⟨n, j⟩, hj, he⟩ := List.mem_map.1 hmem
    cases he
    exact hj
  have hline : OnLine (blank ++ line :: rest) (blank.length + 1) fun earlier last =>
      earlier = blank ∧ last = line := ⟨blank, line, ⟨rest, by simp⟩, rfl, rfl, rfl⟩
  obtain ⟨_, _, hcounts, rfl, rfl⟩ := ((hd.instruction _ _).1 hi).exists_and hline
  exact hcounts.1.part hbefore

end Header

section Word

/-- What is left of a line begins with no blank. -/
theorem head?_content (line : List Char) : ∀ c ∈ (content line).head?, Text.isBlank c = false := by
  intro c hc
  let rest := (uncommented line).dropWhile Text.isBlank
  have hp : Text.trim (uncommented line) <+: rest := by
    rw [Text.trim, Text.trimEnd, ← List.reverse_suffix, List.reverse_reverse]
    exact List.dropWhile_suffix _
  obtain ⟨more, hm⟩ := hp
  obtain ⟨s, hs⟩ := List.head?_eq_some_iff.1 hc
  have hr : rest.head? = some c := by
    rw [← hm]
    exact congrArg (fun s => (s ++ more).head?) hs
  have hd := List.head?_dropWhile_not Text.isBlank (uncommented line)
  rw [show ((uncommented line).dropWhile Text.isBlank).head? = some c from hr] at hd
  simpa using hd

/-- Without a comma in it the first word is the one that is read for the opcode. -/
theorem firstWord_eq {name : List Char} {words : List (List Char)}
    (hb : ∀ c ∈ line.head?, Text.isBlank c = false) (hc : ',' ∉ firstWord line)
    (hw : Text.Words isGap line (name :: words)) : firstWord line = name := by
  have hgap : ∀ {c : Char} {s : List Char}, ',' ∉ firstWord (c :: s) → isGap c = true →
      Text.isBlank c = true := by
    intro c s hn hg
    by_contra hblank
    obtain rfl : c = ',' := by simpa [isGap, hblank] using hg
    rw [firstWord, List.takeWhile_cons_of_pos rfl] at hn
    exact hn (List.mem_cons_self ..)
  cases hw with
  | @gap c s _ hg _ =>
    have hblank := hgap hc hg
    rw [hb c rfl] at hblank
    cases hblank
  | @word _ s _ hn hw hs _ =>
    have hword : ∀ c ∈ name, (!Text.isBlank c) = true := by
      intro c hm
      have hg := hw c hm
      simp only [isGap, Bool.or_eq_false_iff] at hg
      simp [hg.1]
    have hf : ∀ t, firstWord (name ++ t) = name ++ firstWord t :=
      fun t => List.takeWhile_append_of_pos hword
    cases s with
    | nil => exact (hf []).trans (List.append_nil name)
    | cons c s =>
      rw [hf] at hc ⊢
      have hblank := hgap (fun hm => hc (List.mem_append_right _ hm)) (hs c rfl)
      simp [firstWord, hblank]

theorem comma_notMem_of_named? {word : List Char} (h : (Opcode.named? word).isSome = true) :
    ',' ∉ word := by
  intro hm
  obtain ⟨op, ho⟩ := Option.isSome_iff_exists.1 h
  have hl : (',' : Char).toLower ∈ op.name.toList := by
    rw [Opcode.named?_eq_some_iff.1 ho]
    exact List.mem_map_of_mem hm
  exact absurd (Opcode.isMark_of_mem_name hl) (by decide)

/-- Code is seen to begin with its first line unless a comma touches the opcode. -/
theorem beginsCode_iff (hb : ∀ c ∈ line.head?, Text.isBlank c = false) (h : Begins line) :
    BeginsCode line ↔ Recognized line := by
  rw [← beginsCode_eq_true_iff]
  cases h with
  | label h hp =>
    cases h with
    | label s =>
      have hl : (s ++ [':']).getLast? = some ':' := List.getLast?_concat
      refine iff_of_true ?_ (.inl hl)
      simp [Reader.beginsCode, isLabel_iff.2 hl, hp]
  | instruction h =>
    cases h with
    | instruction hl hi =>
      have hnot : Reader.isLabel line = false := Bool.eq_false_iff.2 (mt isLabel_iff.1 hl)
      have hbegins : Reader.beginsCode line = (Opcode.named? (firstWord line)).isSome := by
        simp [Reader.beginsCode, hnot, firstWord]
      rw [hbegins, Recognized, or_iff_right hl]
      refine ⟨comma_notMem_of_named?, fun hc => ?_⟩
      obtain ⟨hw, hn, -⟩ := hi
      rw [firstWord_eq hb hc hw, Opcode.named?_eq_some_iff.2 hn]
      rfl

end Word

/-- Where a listing opens with an instruction or with a label that has a point, the header of the
code may be left out, unless a comma touches the opcode of that instruction: then the instruction is
passed over, and no listing that is read is read the same behind a header. -/
theorem headerIsOptional_iff (listing : String) (line : List Char) (h : Opens listing line)
    (hb : Begins line) : HeaderIsOptional listing ↔ Recognized line ∨
      ∃ e, read listing = .error e ∧
        read (".code\n" ++ listing) = .error (e.renumber (· + 1)) := by
  have hcontent : ∀ c ∈ line.head?, Text.isBlank c = false := by
    obtain ⟨blank, rest, hl, -⟩ := h
    have hm : line ∈ contents listing := by simp [hl]
    obtain ⟨written, -, rfl⟩ := List.mem_map.1 hm
    exact head?_content written
  rw [← beginsCode_iff hcontent hb]
  constructor
  · intro hopt
    refine or_iff_not_imp_left.2 fun hc => ?_
    cases hr : read listing with
    | error e =>
      rw [HeaderIsOptional, hr] at hopt
      exact ⟨e, rfl, hopt⟩
    | ok program =>
      cases hb with
      | label hf hp =>
        cases hf with
        | label s =>
          have hs : Reader.beginsCode (s ++ [':']) = true := by
            simp [Reader.beginsCode, Reader.isLabel, hp]
          exact absurd (beginsCode_eq_true_iff.1 hs) hc
      | instruction hf => exact absurd hopt (not_headerIsOptional h hf hc hr)
  · rintro (hc | ⟨e, hr, hh⟩)
    · exact headerIsOptional_of_beginsCode h hc
    · rw [HeaderIsOptional, hr, hh]
      rfl

/-- Blanks of any kind may stand around the opcode, and its letters may be capitals. -/
theorem headerIsOptional_iff_blanks :
    let listing := "; three\n\t\u2003MaV\u00a0,r3 ; a comma behind a blank\nnov"
    Opens listing "MaV\u00a0,r3".toList ∧ HeaderIsOptional listing := by
  have ho : Opens "; three\n\t\u2003MaV\u00a0,r3 ; a comma behind a blank\nnov"
      "MaV\u00a0,r3".toList :=
    ⟨[[]], ["nov".toList], by decide +kernel, by simp, by decide⟩
  have hf : Fits .code "MaV\u00a0,r3".toList (.instruction ⟨.mav, [.register 3]⟩) :=
    .instruction (by decide) (Instruction.read_eq_ok_iff.1 (by decide +kernel))
  exact ⟨ho, (headerIsOptional_iff _ _ ho (.instruction hf)).2 (.inl (.inr (by decide +kernel)))⟩

/-- An instruction like any other behind the header, and nothing at all without it. -/
theorem not_headerIsOptional_comma :
    Opens "mav,r3" "mav,r3".toList ∧ Begins "mav,r3".toList ∧
    read "mav,r3" = .ok .empty ∧
    read ".code\nmav,r3" = .ok (Program.empty.addInstruction 2 ⟨.mav, [.register 3]⟩) ∧
    ¬HeaderIsOptional "mav,r3" := by
  have hread : read "mav,r3" = .ok .empty := by decide +kernel
  have hheader : read ".code\nmav,r3" =
      .ok (Program.empty.addInstruction 2 ⟨.mav, [.register 3]⟩) := by decide +kernel
  have hf : Fits .code "mav,r3".toList (.instruction ⟨.mav, [.register 3]⟩) :=
    .instruction (by decide) (Instruction.read_eq_ok_iff.1 (by decide +kernel))
  have ho : Opens "mav,r3" "mav,r3".toList := ⟨[], [], by decide +kernel, nofun, by decide⟩
  exact ⟨ho, .instruction hf, hread, hheader,
    not_headerIsOptional ho hf (by decide +kernel) hread⟩

end Octet.Assembly
