import Mathlib.Data.List.Induction
import Mathlib.Order.Bounds.Basic
import Octet.Proofs.Assembly.Reading
import Octet.Proofs.Assembly.Sections

namespace Octet.Assembly

variable {line last : List Char} {lines other : List (List Char)} {n m : Nat} {item : Item}
  {e : AssemblyError} {p q : List (List Char) → List Char → Prop}

section OnLine

/-- Something holds of the line with a number and the lines before it. -/
def OnLine (lines : List (List Char)) (n : Nat) (p : List (List Char) → List Char → Prop) : Prop :=
  ∃ earlier line, earlier ++ [line] <+: lines ∧ earlier.length + 1 = n ∧ p earlier line

theorem OnLine.le (h : OnLine lines n p) : n ≤ lines.length := by
  obtain ⟨earlier, line, hp, rfl, -⟩ := h
  simpa using hp.length_le

theorem onLine_concat :
    OnLine (lines ++ [last]) n p ↔ OnLine lines n p ∨ n = lines.length + 1 ∧ p lines last := by
  constructor
  · rintro ⟨earlier, line, hl, rfl, h⟩
    obtain he | hl := List.prefix_concat_iff.1 hl
    · obtain ⟨rfl, hs⟩ := List.append_inj' he rfl
      cases hs
      exact .inr ⟨rfl, h⟩
    · exact .inl ⟨earlier, line, hl, rfl, h⟩
  · rintro (⟨earlier, line, hl, rfl, h⟩ | ⟨rfl, h⟩)
    · exact ⟨earlier, line, hl.trans (List.prefix_append ..), rfl, h⟩
    · exact ⟨lines, last, List.prefix_rfl, rfl, h⟩

/-- What holds of a line depends on no line behind it. -/
theorem OnLine.of_take (h : OnLine lines n p) (ht : other.take n = lines.take n) :
    OnLine other n p := by
  obtain ⟨earlier, line, hl, rfl, h⟩ := h
  refine ⟨earlier, line, ?_, rfl, h⟩
  have he : earlier ++ [line] = lines.take (earlier.length + 1) := by
    simpa using List.prefix_iff_eq_take.1 hl
  rw [he, ← ht]
  exact List.take_prefix ..

theorem OnLine.exists_and (h : OnLine lines n p) (hq : OnLine lines n q) :
    ∃ earlier line, p earlier line ∧ q earlier line := by
  obtain ⟨earlier, line, hl, rfl, h⟩ := h
  obtain ⟨earlier', line', hl', hn, hq⟩ := hq
  have he : earlier ++ [line] = earlier' ++ [line'] := by
    rw [List.prefix_iff_eq_take.1 hl, List.prefix_iff_eq_take.1 hl']
    simp [hn]
  obtain ⟨rfl, hs⟩ := List.append_inj' he rfl
  cases hs
  exact ⟨earlier, line, h, hq⟩

end OnLine

/-- A line stands for an item. -/
def Says (lines : List (List Char)) (n : Nat) (item : Item) : Prop :=
  OnLine lines n fun earlier line =>
    Counts earlier line ∧ Fits (partAfter (earlier ++ [line])) line item

/-- A line is the wrong one for its part. -/
def Objects (lines : List (List Char)) (n : Nat) (e : AssemblyError) : Prop :=
  OnLine lines n fun earlier line =>
    Counts earlier line ∧ Offends (partAfter (earlier ++ [line])) line e

section Concat

theorem says_concat_of_not_counts (h : ¬Counts lines last) :
    Says (lines ++ [last]) n item ↔ Says lines n item := by
  rw [Says, onLine_concat]
  exact or_iff_left fun hl => h hl.2.1

theorem says_concat {new : Item} (hc : Counts lines last)
    (hf : Fits (partAfter (lines ++ [last])) last new) :
    Says (lines ++ [last]) n item ↔ Says lines n item ∨ n = lines.length + 1 ∧ item = new := by
  rw [Says, onLine_concat]
  refine or_congr Iff.rfl (and_congr Iff.rfl ⟨fun h => ?_, fun h => h ▸ ⟨hc, hf⟩⟩)
  exact Except.ok.inj ((readItem_of_fits h.2).symm.trans (readItem_of_fits hf))

theorem objects_concat : Objects (lines ++ [last]) n e ↔ Objects lines n e ∨
    n = lines.length + 1 ∧ Counts lines last ∧ Offends (partAfter (lines ++ [last])) last e :=
  onLine_concat

theorem Says.le (h : Says lines n item) : n ≤ lines.length := OnLine.le h

end Concat

/-- A program is the one that the lines of a listing describe: an instruction for each line that
writes one, each label where its last line puts it and each text of the last entry under its key. -/
structure Describes (lines : List (List Char)) (program : Program) : Prop where
  sorted : (program.instructions.toList.map Located.line).Pairwise (· < ·)
  instruction : ∀ n i, ⟨n, i⟩ ∈ program.instructions.toList ↔ Says lines n (.instruction i)
  label : ∀ name k, program.labels.get? name = some k ↔
    ∃ n, IsGreatest {n | Says lines n (.label name)} n ∧
      k = program.instructions.toList.countP (·.line < n)
  data : ∀ key text, program.data.get? key = some text ↔
    ∃ n, IsGreatest {n | ∃ text, Says lines n (.entry key text)} n ∧ Says lines n (.entry key text)

section Describes

variable {program : Program}

theorem describes_nil : Describes [] .empty := by
  have hn : ∀ n item, ¬Says [] n item := by
    rintro n item ⟨earlier, line, hl, -⟩
    simp at hl
  constructor
  · exact .nil
  · simp [Program.empty, hn]
  · simp [Program.empty, hn, IsGreatest]
  · simp [Program.empty, hn]

theorem Describes.concat_of_not_counts (h : Describes lines program) (hc : ¬Counts lines last) :
    Describes (lines ++ [last]) program := by
  have hs : ∀ n item, Says (lines ++ [last]) n item ↔ Says lines n item :=
    fun n item => says_concat_of_not_counts hc
  constructor
  · exact h.sorted
  · simpa only [hs] using h.instruction
  · simpa only [hs] using h.label
  · simpa only [hs] using h.data

/-- The instructions of a program are on the lines that have been read. -/
theorem Describes.line_le (h : Describes lines program) {i : Located Instruction}
    (hi : i ∈ program.instructions.toList) : i.line ≤ lines.length :=
  ((h.instruction i.line i.val).1 hi).le

theorem Describes.concat_instruction {i : Instruction} (h : Describes lines program)
    (hc : Counts lines last) (hf : Fits (partAfter (lines ++ [last])) last (.instruction i)) :
    Describes (lines ++ [last]) (program.addInstruction (lines.length + 1) i) := by
  have hs : ∀ n item, Says (lines ++ [last]) n item ↔
      Says lines n item ∨ n = lines.length + 1 ∧ item = .instruction i :=
    fun _ _ => says_concat hc hf
  have hl : (program.addInstruction (lines.length + 1) i).instructions.toList =
      program.instructions.toList ++ [⟨lines.length + 1, i⟩] := Array.toList_push ..
  constructor
  · rw [hl, List.map_append, List.pairwise_append]
    refine ⟨h.sorted, List.pairwise_singleton .., ?_⟩
    simp only [List.mem_map, List.map_cons, List.map_nil, List.mem_singleton]
    rintro _ ⟨j, hj, rfl⟩ _ rfl
    exact Nat.lt_succ_of_le (h.line_le hj)
  · intro n j
    rw [hl, List.mem_append, h.instruction, hs, List.mem_singleton]
    simp
  · intro name k
    have hset : {n | Says (lines ++ [last]) n (.label name)} =
        {n | Says lines n (.label name)} := by
      simp [hs]
    rw [hset]
    refine (h.label name k).trans (exists_congr fun n => and_congr_right fun hn => ?_)
    have hlt : ¬lines.length + 1 < n := Nat.not_lt.2 (Nat.le_succ_of_le (Says.le hn.1))
    rw [hl, List.countP_append, List.countP_singleton]
    simp [hlt]
  · simp only [hs, reduceCtorEq, and_false, or_false]
    exact h.data

theorem isGreatest_insert_succ {s : Set Nat} {k : Nat} (h : ∀ n ∈ s, n ≤ k) :
    IsGreatest {n | n ∈ s ∨ n = k + 1} n ↔ n = k + 1 := by
  have hg : IsGreatest {n | n ∈ s ∨ n = k + 1} (k + 1) := by
    refine ⟨.inr rfl, ?_⟩
    rintro m (hm | rfl)
    · exact Nat.le_succ_of_le (h m hm)
    · exact Nat.le_refl _
  exact ⟨fun hn => hn.unique hg, fun hn => hn ▸ hg⟩

theorem Describes.concat_label {new : String} (h : Describes lines program)
    (hc : Counts lines last) (hf : Fits (partAfter (lines ++ [last])) last (.label new)) :
    Describes (lines ++ [last]) (program.addLabel new) := by
  have hs : ∀ n item, Says (lines ++ [last]) n item ↔
      Says lines n item ∨ n = lines.length + 1 ∧ item = .label new :=
    fun _ _ => says_concat hc hf
  constructor
  · exact h.sorted
  · simp only [hs, reduceCtorEq, and_false, or_false]
    exact h.instruction
  · intro name k
    rw [Program.addLabel, Table.get?_put]
    split
    · next hn =>
      subst hn
      have hset : {n | Says (lines ++ [last]) n (.label name)} =
          {n | n ∈ {n | Says lines n (.label name)} ∨ n = lines.length + 1} := by
        simp [hs]
      have hcount : program.instructions.toList.countP (·.line < lines.length + 1) =
          program.instructions.size := by
        rw [List.countP_eq_length.2, Array.length_toList]
        exact fun i hi => decide_eq_true (Nat.lt_succ_of_le (h.line_le hi))
      have hle : ∀ n ∈ {n | Says lines n (.label name)}, n ≤ lines.length := fun n hn => Says.le hn
      rw [hset]
      simp only [isGreatest_insert_succ hle, exists_eq_left]
      rw [hcount, Option.some.injEq, eq_comm]
    · next hn =>
      have hset : {n | Says (lines ++ [last]) n (.label name)} =
          {n | Says lines n (.label name)} := by
        simp [hs, hn]
      rw [hset]
      exact h.label name k
  · simp only [hs, reduceCtorEq, and_false, or_false]
    exact h.data

theorem Describes.concat_entry {new newText : String} (h : Describes lines program)
    (hc : Counts lines last) (hf : Fits (partAfter (lines ++ [last])) last (.entry new newText)) :
    Describes (lines ++ [last]) (program.addData new newText) := by
  have hs : ∀ n item, Says (lines ++ [last]) n item ↔
      Says lines n item ∨ n = lines.length + 1 ∧ item = .entry new newText :=
    fun _ _ => says_concat hc hf
  constructor
  · exact h.sorted
  · simp only [hs, reduceCtorEq, and_false, or_false]
    exact h.instruction
  · simp only [hs, reduceCtorEq, and_false, or_false]
    exact h.label
  · intro key text
    rw [Program.addData, Table.get?_put]
    split
    · next hn =>
      subst hn
      have hset : {n | ∃ text, Says (lines ++ [last]) n (.entry key text)} =
          {n | n ∈ {n | ∃ text, Says lines n (.entry key text)} ∨ n = lines.length + 1} := by
        simp [hs, exists_or]
      have hle : ∀ n ∈ {n | ∃ text, Says lines n (.entry key text)}, n ≤ lines.length := by
        rintro n ⟨text, hn⟩
        exact hn.le
      have hnot : ¬Says lines (lines.length + 1) (.entry key text) := fun hn =>
        Nat.not_succ_le_self _ hn.le
      rw [hset]
      simp only [isGreatest_insert_succ hle, exists_eq_left]
      simp [hs, hnot, eq_comm]
    · next hn =>
      simpa [hs, hn] using h.data key text

end Describes

section Reading

variable {reader : Reader}

/-- The first line that is the wrong one for its part. -/
def FirstObjection (lines : List (List Char)) (n : Nat) (e : AssemblyError) : Prop :=
  Objects lines n e ∧ ∀ m < n, ∀ e, ¬Objects lines m e

theorem FirstObjection.concat (h : FirstObjection lines n e) (last : List Char) :
    FirstObjection (lines ++ [last]) n e := by
  refine ⟨objects_concat.2 (.inl h.1), fun m hm d hd => ?_⟩
  obtain hd | ⟨rfl, -⟩ := objects_concat.1 hd
  · exact h.2 m hm d hd
  · exact absurd (OnLine.le h.1) (Nat.not_le_of_gt (Nat.lt_of_succ_lt hm))

theorem FirstObjection.unique {d : AssemblyError} (h : FirstObjection lines n e)
    (h' : FirstObjection lines m d) : n = m ∧ e = d := by
  obtain hlt | rfl | hlt := Nat.lt_trichotomy n m
  · exact absurd h.1 (h'.2 n hlt e)
  · obtain ⟨earlier, line, ho, ho'⟩ := h.1.exists_and h'.1
    have he := (readItem_of_offends ho.2).symm.trans (readItem_of_offends ho'.2)
    exact ⟨rfl, Except.error.inj he⟩
  · exact absurd h'.1 (h.2 m hlt d)

/-- The first line that is wrong does not depend on what follows it. -/
theorem FirstObjection.of_take (h : FirstObjection lines n e) (ht : other.take n = lines.take n) :
    FirstObjection other n e := by
  refine ⟨h.1.of_take ht, fun m hm d hd => h.2 m hm d (OnLine.of_take hd ?_)⟩
  have hmin : min m n = m := Nat.min_eq_left (Nat.le_of_lt hm)
  rw [← hmin, ← List.take_take, ← ht, List.take_take]

/-- What is read of some lines: the program that they describe, or the first of them that is
wrong. -/
def Reads (lines : List (List Char)) : Except (Located AssemblyError) Reader → Prop
  | .ok reader => reader.part = partAfter lines ∧ (∀ n e, ¬Objects lines n e) ∧
      Describes lines reader.program
  | .error e => FirstObjection lines e.line e.val

/-- One more line keeps what is said of a program, or is the first that is wrong. -/
theorem reads_readLine (hp : reader.part = partAfter lines) (hn : ∀ n e, ¬Objects lines n e)
    (hd : Describes lines reader.program) (line : List Char) :
    Reads (lines ++ [line]) ((reader.readLine (lines.length + 1) line).mapError
      (Located.mk (lines.length + 1))) := by
  by_cases hc : Counts lines line
  · rw [readLine_of_counts hp hc]
    obtain ⟨item, hf⟩ | ⟨e, ho⟩ := fits_or_offends hc.part line
    · have hn' : ∀ n e, ¬Objects (lines ++ [line]) n e := by
        intro n e he
        obtain he | ⟨-, -, ho⟩ := objects_concat.1 he
        · exact hn n e he
        · cases (readItem_of_fits hf).symm.trans (readItem_of_offends ho)
      rw [readItem_of_fits hf]
      refine ⟨rfl, hn', ?_⟩
      cases item with
      | entry key text => exact hd.concat_entry hc hf
      | label name => exact hd.concat_label hc hf
      | instruction i => exact hd.concat_instruction hc hf
    · rw [readItem_of_offends ho]
      refine ⟨objects_concat.2 (.inr ⟨rfl, hc, ho⟩), fun m hm d hd => ?_⟩
      obtain hd | ⟨rfl, -⟩ := objects_concat.1 hd
      · exact hn m d hd
      · exact absurd hm (Nat.lt_irrefl _)
  · rw [readLine_of_not_counts hp hc]
    refine ⟨rfl, fun n e he => ?_, hd.concat_of_not_counts hc⟩
    obtain he | ⟨-, hc', -⟩ := objects_concat.1 he
    · exact hn n e he
    · exact hc hc'

theorem reads_readLines (lines : List (List Char)) :
    Reads (lines.map content) (Reader.initial.readLines 1 lines) := by
  induction lines using List.reverseRecOn with
  | nil =>
    refine ⟨rfl, ?_, describes_nil⟩
    rintro n e ⟨earlier, line, hl, -⟩
    simp at hl
  | append_singleton lines line ih =>
    rw [Reader.readLines_append, List.map_append, List.map_singleton]
    cases hr : Reader.initial.readLines 1 lines with
    | error e =>
      rw [hr] at ih
      exact ih.concat _
    | ok reader =>
      rw [hr] at ih
      obtain ⟨hp, hn, hd⟩ := ih
      have hstep := reads_readLine hp hn hd (content line)
      have hone : reader.readLines (1 + lines.length) [line] =
          (reader.readLine ((lines.map content).length + 1) (content line)).mapError
            (Located.mk ((lines.map content).length + 1)) := by
        rw [List.length_map, Nat.add_comm 1, Reader.readLines, content]
        cases reader.readLine (lines.length + 1) (Text.trim (uncommented line)) <;> rfl
      rw [← hone] at hstep
      exact hstep

end Reading

end Octet.Assembly
