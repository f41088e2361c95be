import Octet.Proofs.Assembly.Reading
import Mathlib.Data.List.Nodup

namespace Octet

namespace Listing

def Line.instruction? : Line → Option Instruction
  | label _ => none
  | instruction i _ => some i

def Line.label? : Line → Option Nat
  | label n => some n
  | instruction _ _ => none

def instructions (code : List Line) : List Instruction := code.filterMap Line.instruction?

/-- The labels that code gives a place, in order. -/
def defined (code : List Line) : List Nat := code.filterMap Line.label?

/-- How many instructions code has. -/
def size (code : List Line) : Nat := (instructions code).length

variable (n : Nat) (i : Instruction) (comment : Option String) (code rest : List Line)

@[simp] theorem instructions_nil : instructions [] = [] := rfl

@[simp] theorem instructions_instruction :
    instructions (.instruction i comment :: code) = i :: instructions code := rfl

@[simp] theorem instructions_append :
    instructions (code ++ rest) = instructions code ++ instructions rest :=
  List.filterMap_append

@[simp] theorem defined_nil : defined [] = [] := rfl

@[simp] theorem defined_label : defined (.label n :: code) = n :: defined code := rfl

@[simp] theorem defined_append : defined (code ++ rest) = defined code ++ defined rest :=
  List.filterMap_append

@[simp] theorem size_nil : size [] = 0 := rfl

@[simp] theorem size_label : size (.label n :: code) = size code := rfl

@[simp] theorem size_instruction : size (.instruction i comment :: code) = size code + 1 := rfl

@[simp] theorem size_append : size (code ++ rest) = size code + size rest := by simp [size]

@[simp] theorem instructions_annotate (text : String) :
    instructions (annotate text code) = instructions code := by
  unfold annotate
  split <;> rfl

@[simp] theorem defined_annotate (text : String) :
    defined (annotate text code) = defined code := by
  unfold annotate
  split <;> rfl

@[simp] theorem size_annotate (text : String) : size (annotate text code) = size code := by
  simp [size]

/-- Code stands in a program: its instructions are fetched from a position on, and its labels lead
to the instructions behind them. -/
def Placed (program : Program) : Nat → List Line → Prop
  | _, [] => True
  | pc, .label n :: code =>
    program.labels.get? (labelName n) = some pc ∧ Placed program pc code
  | pc, .instruction i _ :: code =>
    program.instructions[pc]?.map Located.val = some i ∧ Placed program (pc + 1) code

variable {program : Program}

theorem placed_append {pc : Nat} : Placed program pc (code ++ rest) ↔
    Placed program pc code ∧ Placed program (pc + size code) rest := by
  induction code generalizing pc with
  | nil => simp [Placed]
  | cons line code ih =>
    cases line with
    | label n => simp [Placed, ih, and_assoc]
    | instruction i comment =>
      rw [List.cons_append, Placed, Placed, ih, size_instruction, and_assoc, Nat.add_assoc pc 1,
        Nat.add_comm 1]

@[simp] theorem placed_annotate {pc : Nat} (text : String) :
    Placed program pc (annotate text code) ↔ Placed program pc code := by
  unfold annotate
  split <;> rfl

theorem digits_inj {m n : Nat} (h : Nat.toDigits 10 m = Nat.toDigits 10 n) : m = n := by
  rw [← Text.decimal_toDigits m, h, Text.decimal_toDigits]

theorem labelName_inj {m n : Nat} : labelName m = labelName n ↔ m = n := by
  refine ⟨fun h => digits_inj ?_, congrArg labelName⟩
  simpa [labelName] using congrArg String.toList h

theorem dataKey_inj {m n : Nat} : dataKey m = dataKey n ↔ m = n := by
  refine ⟨fun h => digits_inj ?_, congrArg dataKey⟩
  simpa [dataKey] using congrArg String.toList h

end Listing

namespace Program

open Listing

variable (program : Program) (number : Nat) (code : List Line)

theorem instructions_addLines : (program.addLines number code).instructions.toList.map Located.val =
    program.instructions.toList.map Located.val ++ Listing.instructions code := by
  induction code generalizing program number with
  | nil => simp [addLines]
  | cons line code ih =>
    rw [addLines, ih]
    cases line with
    | label n => rfl
    | instruction i comment => simp [addLine, addInstruction]

theorem data_addLines : (program.addLines number code).data = program.data := by
  induction code generalizing program number with
  | nil => rfl
  | cons line code ih =>
    rw [addLines, ih]
    cases line <;> rfl

/-- Code changes nothing about a label that it does not define. -/
theorem get?_addLines_of_forall_ne {name : String} (h : ∀ n ∈ defined code, name ≠ labelName n) :
    (program.addLines number code).labels.get? name = program.labels.get? name := by
  induction code generalizing program number with
  | nil => rfl
  | cons line code ih =>
    cases line with
    | label n =>
      have hn : name ≠ labelName n := h n (by simp)
      rw [addLines, ih _ _ fun m hm => h m (by simp [hm])]
      simp only [addLine, addLabel]
      rw [Table.get?_put, if_neg hn]
    | instruction i comment => exact ih _ _ h

theorem fetch_addLines {pc : Nat} (h : pc < program.instructions.size) :
    (program.addLines number code).instructions[pc]? = program.instructions[pc]? := by
  induction code generalizing program number with
  | nil => rfl
  | cons line code ih =>
    cases line with
    | label n => exact ih _ _ h
    | instruction i comment =>
      have hp : pc < (program.addLine number (.instruction i comment)).instructions.size := by
        simp [addLine, addInstruction]
        omega
      rw [addLines, ih _ _ hp]
      simp [addLine, addInstruction, Array.getElem?_push, Nat.ne_of_lt h]

/-- Code whose labels are defined once stands behind what it is added to. -/
theorem placed_addLines (h : (defined code).Nodup) :
    Placed (program.addLines number code) program.instructions.size code := by
  induction code generalizing program number with
  | nil => trivial
  | cons line code ih =>
    cases line with
    | label n =>
      obtain ⟨hn, hc⟩ := List.nodup_cons.1 h
      refine ⟨?_, ih _ _ hc⟩
      -- The label keeps its place because no later line defines it again.
      have hlast : ∀ m ∈ defined code, labelName n ≠ labelName m :=
        fun m hm he => hn (labelName_inj.1 he ▸ hm)
      rw [addLines, get?_addLines_of_forall_ne _ _ _ hlast]
      simp only [addLine, addLabel]
      rw [Table.get?_put, if_pos rfl]
    | instruction i comment =>
      have hs : (program.addLine number (.instruction i comment)).instructions.size =
          program.instructions.size + 1 := by simp [addLine, addInstruction]
      refine ⟨?_, hs ▸ ih (program.addLine number (.instruction i comment)) (number + 1) h⟩
      rw [addLines, fetch_addLines _ _ _ (by omega)]
      simp [addLine, addInstruction]

variable (n : Nat) (texts : List String)

theorem get?_addTexts_of_forall_ne {key : String}
    (h : ∀ m, n ≤ m → m < n + texts.length → key ≠ dataKey m) :
    (program.addTexts n texts).data.get? key = program.data.get? key := by
  induction texts generalizing program n with
  | nil => rfl
  | cons text texts ih =>
    have hk : key ≠ dataKey n := h n (Nat.le_refl n) (by simp)
    rw [addTexts, ih _ _ fun m hl hm => h m (by omega) (by simp; omega)]
    simp only [addData]
    rw [Table.get?_put, if_neg hk]

theorem get?_addTexts (m : Nat) (hm : m < texts.length) :
    (program.addTexts n texts).data.get? (dataKey (n + m)) = texts[m]? := by
  induction texts generalizing program n m with
  | nil => simp at hm
  | cons text texts ih =>
    cases m with
    | zero =>
      rw [addTexts, get?_addTexts_of_forall_ne]
      · simp only [addData]
        rw [Table.get?_put, Nat.add_zero, if_pos rfl, List.getElem?_cons_zero]
      · intro m hl _ he
        have := dataKey_inj.1 he
        omega
    | succ m =>
      have ht := ih (program.addData (dataKey n) text) (n + 1) m (by simpa using hm)
      rw [addTexts, List.getElem?_cons_succ, ← ht, Nat.add_assoc, Nat.add_comm 1]

theorem instructions_addTexts : (program.addTexts n texts).instructions = program.instructions := by
  induction texts generalizing program n with
  | nil => rfl
  | cons text texts ih => exact ih _ _

theorem labels_addTexts : (program.addTexts n texts).labels = program.labels := by
  induction texts generalizing program n with
  | nil => rfl
  | cons text texts ih => exact ih _ _

end Program

namespace Listing

variable (listing : Listing) (name : Option String)

theorem instructions_assembled : (listing.assembled name).instructions.toList.map Located.val =
    Listing.instructions listing.code := by
  rw [assembled, Program.instructions_addLines, Program.instructions_addTexts]
  rfl

theorem size_assembled : (listing.assembled name).instructions.size = size listing.code := by
  rw [size, ← instructions_assembled listing name, List.length_map, Array.length_toList]

theorem get?_data_assembled (n : Nat) :
    (listing.assembled name).data.get? (dataKey n) = listing.texts[n]? := by
  rw [assembled, Program.data_addLines]
  by_cases hn : n < listing.texts.length
  · simpa using Program.get?_addTexts Program.empty 0 listing.texts n hn
  · rw [List.getElem?_eq_none (by omega), Program.get?_addTexts_of_forall_ne]
    · rfl
    · intro m _ hm he
      have := dataKey_inj.1 he
      omega

/-- Only the keys of the texts are in the data table. -/
theorem exists_of_get?_data_assembled {key text : String}
    (h : (listing.assembled name).data.get? key = some text) :
    ∃ n < listing.texts.length, key = dataKey n := by
  by_contra hn
  rw [assembled, Program.data_addLines, Program.get?_addTexts_of_forall_ne] at h
  · cases h
  · intro m _ hm he
    exact hn ⟨m, by omega, he⟩

/-- Only the labels that the code defines are in the table of labels. -/
theorem exists_of_get?_labels_assembled {label : String} {target : Nat}
    (h : (listing.assembled name).labels.get? label = some target) :
    ∃ n ∈ defined listing.code, label = labelName n := by
  by_contra hn
  rw [assembled, Program.get?_addLines_of_forall_ne, Program.labels_addTexts] at h
  · cases h
  · intro m hm he
    exact hn ⟨m, hm, he⟩

/-- An assembled listing holds its own code from the first instruction on. -/
theorem placed_assembled (h : (defined listing.code).Nodup) :
    Placed (listing.assembled name) 0 listing.code := by
  have hp := Program.placed_addLines (Program.empty.addTexts 0 listing.texts)
    (listing.firstLine name) listing.code h
  rwa [Program.instructions_addTexts] at hp

end Listing

end Octet
