import Octet.Proofs.Console.Dialogue
import Octet.Proofs.Machine.Renumbering
import Octet.Proofs.Toolchain.Stages

namespace Octet

/-- The line below another. Line 0 is no line and stays. -/
def lineBelow (line : Nat) : Nat := if line = 0 then 0 else line + 1

/-- The same failure of a listing whose lines are counted anew. -/
def Failure.renumber (count : Nat → Nat) : Failure → Failure
  | assembling e => assembling (e.renumber count)
  | running e => running (e.renumber count)
  | failure => failure

namespace Program

theorem renumber_addTexts (count : Nat → Nat) (program : Program) (n : Nat) (texts : List String) :
    (program.addTexts n texts).renumber count = (program.renumber count).addTexts n texts := by
  induction texts generalizing program n with
  | nil => rfl
  | cons text texts ih => exact ih _ _

theorem renumber_addLines {number : Nat} (hn : number ≠ 0) (program : Program)
    (code : List Listing.Line) : (program.addLines number code).renumber lineBelow =
      (program.renumber lineBelow).addLines (number + 1) code := by
  induction code generalizing program number with
  | nil => rfl
  | cons line code ih =>
    have hl : (program.addLine number line).renumber lineBelow =
        (program.renumber lineBelow).addLine (number + 1) line := by
      cases line with
      | label n => simp [addLine, addLabel, renumber]
      | instruction i comment =>
        simp [addLine, addInstruction, renumber, Located.renumber, lineBelow, hn]
    rw [addLines, ih number.succ_ne_zero, hl, addLines]

end Program

/-- The line with the name pushes all code one line down. -/
theorem Listing.assembled_some (listing : Listing) (name : String) :
    listing.assembled (some name) = (listing.assembled none).renumber lineBelow := by
  have hf : listing.firstLine (some name) = listing.firstLine none + 1 := by
    simp [firstLine, heading]
    omega
  have hz : listing.firstLine none ≠ 0 := Nat.succ_ne_zero _
  have he : Program.empty.renumber lineBelow = .empty := by
    simp [Program.renumber, Program.empty]
  rw [assembled, assembled, hf, Program.renumber_addLines hz, Program.renumber_addTexts, he]

namespace Assembly

theorem Reader.exists_of_readLines_append {reader last : Reader} {number : Nat}
    {lines more : List (List Char)} (h : reader.readLines number (lines ++ more) = .ok last) :
    ∃ mid : Reader, mid.readLines (number + lines.length) more = .ok last := by
  rw [readLines_append] at h
  cases hr : reader.readLines number lines with
  | error e =>
    rw [hr] at h
    cases h
  | ok mid =>
    rw [hr] at h
    exact ⟨mid, h⟩

theorem exists_of_read {listing : String} {program : Program} (h : read listing = .ok program) :
    ∃ part, Reader.initial.readLines 1 (Text.lines listing.toList) = .ok ⟨part, program⟩ := by
  rw [read] at h
  cases hr : Reader.initial.readLines 1 (Text.lines listing.toList) with
  | error e =>
    rw [hr] at h
    cases h
  | ok reader =>
    rw [hr] at h
    dsimp only [bind, Except.bind] at h
    split at h <;> cases h
    exact ⟨reader.part, rfl⟩

end Assembly

namespace Listing

variable {listing : Listing} {name : String}

/-- The first two lines of a listing that bears a name. -/
def title (name : String) : List Char :=
  ("; === GRUND (DAS-8 Q4) ===\n; source: " ++ name).toList

theorem count_title (name : String) : (title name).count '\n' = name.toList.count '\n' + 1 := by
  have hs : "; === GRUND (DAS-8 Q4) ===\n; source: ".toList.count '\n' = 1 := by decide
  rw [title, String.toList_append, List.count_append, hs, Nat.add_comm]

/-- The lines of the title are as many as the name makes them, and the others follow. -/
theorem lines_render_some (h : listing.Legible) (name : String) :
    Text.lines (listing.render (some name)).toList = (Text.pieces (title name) ++
      (["; compiled by " ++ signature, ""] ++ listing.bodyTexts).map String.toList).map
        Text.chomp := by
  let rest := ["; compiled by " ++ signature, ""] ++ listing.bodyTexts
  have ht : (listing.render (some name)).toList =
      title name ++ '\n' :: (rest.map String.toList).flatMap (· ++ ['\n']) := by
    rw [toList_render, lineTexts_eq]
    simp [heading, title, rest]
  have hn : ∀ l ∈ rest.map String.toList, '\n' ∉ l := by
    intro l hl
    obtain ⟨line, hm, rfl⟩ := List.mem_map.1 hl
    have hl : line ∈ listing.lineTexts none := by
      rw [lineTexts_eq]
      exact List.mem_cons_of_mem _ hm
    exact newline_notMem_lineTexts h (by simp) line hl
  rw [ht, Text.lines_append, Text.lines_flatMap _ hn, ← List.map_append]

/-- Whatever the reader makes of the lines of a name, it reads the code behind them, as many lines
further down as there are line feeds in the name. -/
theorem exists_of_read_render_some {read : Program} (h : listing.Legible)
    (hr : Assembly.read (listing.render (some name)) = .ok read) :
    ∃ front : Program, read = (front.addTexts 0 listing.texts).addLines
      (listing.firstLine (some name) + name.toList.count '\n') listing.code := by
  have hl : 1 + (Text.pieces (title name)).length + 2 =
      (heading (some name)).length + 1 + name.toList.count '\n' := by
    rw [Text.length_pieces, count_title]
    simp only [heading, List.length_append, List.length_cons, List.length_nil]
    omega
  have hb : ∀ line ∈ ["; compiled by " ++ signature, ""].map String.toList,
      Assembly.content line = [] := fun line hm =>
    Assembly.content_heading none line (List.mem_cons_of_mem _ hm)
  obtain ⟨part, hp⟩ := Assembly.exists_of_read hr
  rw [lines_render_some h, Assembly.Reader.readLines_map_chomp] at hp
  obtain ⟨front, hf⟩ := Assembly.Reader.exists_of_readLines_append hp
  -- The name may have left the reader in any part; the headers lead it to the code again.
  rw [List.map_append, Assembly.Reader.readLines_append_of_content_eq_nil hb] at hf
  change front.readLines (_ + 2) _ = _ at hf
  rw [hl, Assembly.readLines_bodyTexts h.lines] at hf
  cases hf
  exact ⟨front.program, rfl⟩

end Listing

namespace Toolchain

variable {name : String}

/-- The name of a source is no more than a remark: whatever the program, the listing that bears
the name is read and executed like the one that bears none, but for the lines, which lie one
further down. -/
def IsRemark (name : String) : Prop :=
  ∀ program : Block, ∃ read,
    Assembly.read (program.compile.render none) = .ok read ∧
    Assembly.read (program.compile.render (some name)) = .ok (read.renumber lineBelow) ∧
    ∀ registers script, execute (program.compile.render (some name)) registers script =
      (execute (program.compile.render none) registers script).mapError
        (Failure.renumber lineBelow)

theorem isRemark_of_newline_notMem (h : '\n' ∉ name.toList) : IsRemark name := by
  intro program
  have hp : Assembly.read (program.compile.render none) = .ok (program.compile.assembled none) :=
    Assembly.read_render program.legible_compile nofun
  have hn : Assembly.read (program.compile.render (some name)) =
      .ok ((program.compile.assembled none).renumber lineBelow) := by
    rw [← Listing.assembled_some]
    exact Assembly.read_render program.legible_compile fun text ht => Option.some.inj ht ▸ h
  refine ⟨_, hp, hn, fun registers script => ?_⟩
  have hs : ((program.compile.assembled none).renumber lineBelow).instructions.size =
      (program.compile.assembled none).instructions.size := Array.size_map
  rw [execute_of_read hp, execute_of_read hn, Machine.run_renumber _ _ rfl, hs]
  obtain ⟨signals, result⟩ := Machine.run (program.compile.assembled none) registers script
  cases result <;> rfl

/-- Whatever the lines of a name do to the reader, the code behind them lies further down than one
line for each of them. -/
theorem newline_notMem_of_isRemark (h : IsRemark name) : '\n' ∉ name.toList := by
  -- One instruction shows how far down the code lies.
  obtain ⟨read, hp, hn, -⟩ := h (.halt 1 .done)
  have hl := (Block.halt 1 .done).legible_compile
  obtain rfl := Except.ok.inj (hp.symm.trans (Assembly.read_render hl nofun))
  obtain ⟨front, hf⟩ := Listing.exists_of_read_render_some hl hn
  change Program.renumber lineBelow (Program.empty.addInstruction 5 ⟨.nov, []⟩) =
    front.addInstruction (6 + name.toList.count '\n') ⟨.nov, []⟩ at hf
  have hb := congrArg (fun program => program.instructions.back?.map Located.line) hf
  have hc : name.toList.count '\n' = 0 := by
    simpa [Program.renumber, Program.addInstruction, Program.empty, Located.renumber, lineBelow]
      using hb
  exact List.count_eq_zero.1 hc

/-- A name is no more than a remark if and only if it is no more than one line. -/
theorem isRemark_iff : IsRemark name ↔ '\n' ∉ name.toList :=
  ⟨newline_notMem_of_isRemark, isRemark_of_newline_notMem⟩

/-- The second line of this name is an instruction, which shows a register. -/
theorem not_isRemark_mav :
    exchanges (execute (Block.done.compile.render none) .initial []).signals =
      [.print endNotice] ∧
    exchanges (execute (Block.done.compile.render (some "x\nmav r3")) .initial []).signals =
      [.display "4", .print endNotice] ∧
    ¬IsRemark "x\nmav r3" := by
  refine ⟨by decide +kernel, by decide +kernel, fun h => ?_⟩
  exact absurd (newline_notMem_of_isRemark h) (by decide)

end Toolchain

end Octet
