import Octet.Proofs.Compiler.Blame
import Octet.Proofs.Toolchain.Agreement

namespace Octet

namespace Listing

variable {code own : List Line} {lines : List Nat} {stop line k : Nat} {text : String}

theorem size_take_le (n : Nat) (code : List Line) : size (code.take n) ≤ size code := by
  have h := size_append (code.take n) (code.drop n)
  rw [List.take_append_drop] at h
  exact h ▸ Nat.le_add_right ..

/-- The comment beside some code is the only one in each beginning of it. -/
theorem Bare.comments_take (h : Bare own) (hk : k < own.length) :
    comments ((Listing.annotate text own).take (k + 1)) = [text] := by
  cases own with
  | nil => exact absurd hk k.not_lt_zero
  | cons line rest =>
    cases line with
    | label n => exact absurd rfl (h.opening n)
    | instruction i comment =>
      have hr : comments (rest.take k) = [] := comments_eq_nil fun line hl =>
        h.uncommented line (List.mem_cons_of_mem _ (List.mem_of_mem_take hl))
      exact congrArg (text :: ·) hr

theorem length_annotate (text : String) (code : List Line) :
    (annotate text code).length = code.length := by
  unfold annotate
  split <;> rfl

/-- The last comment up to an instruction is that of the statement that it belongs to. -/
theorem Owns.getLast?_take (h : Owns 0 code lines stop line) (hk : size (code.take k) = stop)
    (hs : size (code.take (k + 1)) = stop + 1) :
    (lines.take (comments (code.take (k + 1))).length).getLast? = some line := by
  obtain ⟨before, text, own, after, earlier, later, rfl, hb, rfl, hc, hl, hlt⟩ := h
  rw [Nat.zero_add] at hl hlt
  have hle : before.length ≤ k := by
    by_contra hn
    rw [List.take_append_of_le_length (by omega)] at hs
    have := size_take_le (k + 1) before
    omega
  have hlt' : k < before.length + own.length := by
    by_contra hn
    rw [← List.append_assoc, List.take_append, size_append, List.take_of_length_le,
      size_append, size_annotate] at hk
    · omega
    · rw [List.length_append, length_annotate]
      omega
  obtain ⟨m, rfl⟩ := Nat.exists_eq_add_of_le hle
  have hm : m < own.length := by omega
  have ht : (before ++ (annotate text own ++ after)).take (before.length + m + 1) =
      before ++ (annotate text own).take (m + 1) := by
    rw [Nat.add_assoc, List.take_length_add_append, List.take_append_of_le_length]
    rw [length_annotate]
    exact hm
  have hn : (comments ((before ++ (annotate text own ++ after)).take
      (before.length + m + 1))).length = earlier.length + 1 := by
    rw [ht, comments_append, hb.comments_take hm, List.length_append, hc, List.length_singleton]
  rw [hn, List.take_length_add_append]
  simp

end Listing

namespace Program

open Listing

/-- The line of an instruction counts all lines of code in front of it. -/
theorem exists_fetch_addLines (program : Program) (number : Nat) (code : List Line) {i : Nat}
    (h : i < size code) :
    ∃ k instruction, (program.addLines number code).instructions[program.instructions.size + i]? =
        some ⟨number + k, instruction⟩ ∧
      size (code.take k) = i ∧ size (code.take (k + 1)) = i + 1 := by
  induction code generalizing program number i with
  | nil => exact absurd h i.not_lt_zero
  | cons line code ih =>
    cases line with
    | label n =>
      obtain ⟨k, instruction, hf, hk, hs⟩ := ih (program.addLine number (.label n)) (number + 1) h
      exact ⟨k + 1, instruction, by rw [Nat.add_comm k, ← Nat.add_assoc]; exact hf, hk, hs⟩
    | instruction j comment =>
      have hsize : (program.addLine number (.instruction j comment)).instructions.size =
          program.instructions.size + 1 := by simp [addLine, addInstruction]
      cases i with
      | zero =>
        refine ⟨0, j, ?_, rfl, rfl⟩
        rw [addLines, fetch_addLines _ _ _ (by omega)]
        simp [addLine, addInstruction]
      | succ i =>
        obtain ⟨k, instruction, hf, hk, hs⟩ :=
          ih (program.addLine number (.instruction j comment)) (number + 1)
            (Nat.lt_of_succ_lt_succ h)
        refine ⟨k + 1, instruction, ?_, congrArg (· + 1) hk, congrArg (· + 1) hs⟩
        rw [hsize, Nat.add_assoc, Nat.add_comm 1, Nat.add_assoc, Nat.add_comm 1] at hf
        exact hf

end Program

/-- The line of the statement that a line of the listing is for. Each statement has one comment in
the listing, and the last one down to the line is that of the statement. -/
def Block.origin? (program : Block) (line : Nat) : Option Nat :=
  let code := program.compile.code.take (line + 1 - program.compile.firstLine none)
  (program.lines.take (Listing.comments code).length).getLast?

namespace Machine

variable {program : Program} {memory : Memory} {script : Script} {seen : List Signal} {stop : Nat}
  {fault : Fault}

/-- A run ends at the instruction that fails, and on its line, unless the budget is used up. -/
theorem BreaksAt.result_run
    (h : BreaksAt program 0 ⟨memory, .empty, .clear, script⟩ seen stop fault) :
    (run program memory script).result = .error (.unplaced (.overheat stepLimit)) ∨
      ∃ located, program.instructions[stop]? = some located ∧
        (run program memory script).result = .error ⟨located.line, fault⟩ := by
  obtain ⟨before, own, next, hr, ⟨instruction, signals, ha, hf, -⟩, -⟩ := h
  obtain ⟨located, fetched, rfl⟩ := Option.map_eq_some_iff.1 ha
  obtain ⟨-, he⟩ | ⟨rest, -, he⟩ := hr.overheats_or stepLimit
  · exact .inl he
  · cases rest with
    | zero =>
      rw [runFrom_zero fetched] at he
      exact .inl he
    | succ rest =>
      rw [runFrom_fault fetched hf] at he
      exact .inr ⟨located, fetched, he⟩

end Machine

namespace Toolchain

open Compiler (IsWork Matches)

variable {source : String} {program : Block} {memory : Memory} {script : Script}
  {e e' : Located Fault}

theorem exec_eq_error (h : (parse source).result = .ok program)
    (hw : (walk source memory script).result = .error (.running e)) :
    (Walker.exec program ⟨memory, .clear, script⟩).result = .error e := by
  rw [walk_of_ok h, Walker.run] at hw
  generalize Walker.exec program ⟨memory, .clear, script⟩ = run at hw ⊢
  obtain ⟨signals, fault | ⟨flow, walker⟩⟩ := run
  · cases hw
    rfl
  · cases flow <;> cases hw

/-- Where a run of the language fails, the run of its listing fails alike, on a line that is for the
same statement. The two lines are one just where the listing has a line of that number for the
statement on the line of that number. -/
theorem origin?_of_errors (source : String) (program : Block) (memory : Memory) (script : Script)
    (e e' : Located Fault) (h : (parse source).result = .ok program)
    (ha : program.Every fun e => e.Avoids IsWork)
    (ht : ∀ t ∈ program.trials ⟨memory, .clear, script⟩, t.Regular)
    (hw : (walk source memory script).result = .error (.running e))
    (hc : (compileAndExecute source memory script).result = .error (.running e'))
    (ho : ∀ limit, e.val ≠ .overheat limit) (ho' : ∀ limit, e'.val ≠ .overheat limit) :
    e'.val = e.val ∧ program.origin? e'.line = some e.line ∧
      (e'.line = e.line ↔ program.origin? e'.line = some e'.line) := by
  have hm : Matches ⟨memory, .clear, script⟩ ⟨memory, .empty, .clear, script⟩ :=
    ⟨fun _ _ => rfl, rfl, rfl, rfl⟩
  have hl := Compiler.locates_block (workable_of_parse h ha) program.emits_compile
    (Compiler.placed_compile program none) (Compiler.stocked_compile program none)
  obtain ⟨stop, hb, hown⟩ := hl hm ht e (exec_eq_error h hw) (ho loopLimit)
  obtain ⟨preface, -, hr⟩ := compileAndExecute_of_ok h memory script
  rw [hr] at hc
  obtain hx | ⟨located, fetched, hx⟩ := hb.result_run
  · rw [hx] at hc
    cases hc
    exact absurd rfl (ho' stepLimit)
  · rw [hx] at hc
    cases hc
    have hlt : stop < Listing.size program.compile.code := by
      rw [← Listing.size_assembled program.compile none]
      exact (Array.getElem?_eq_some_iff.1 fetched).1
    obtain ⟨k, instruction, hf, hk, hs⟩ := Program.exists_fetch_addLines
      (Program.empty.addTexts 0 program.compile.texts) (program.compile.firstLine none)
      program.compile.code hlt
    rw [Program.instructions_addTexts] at hf
    have hstop : Program.empty.instructions.size + stop = stop := Nat.zero_add stop
    rw [hstop] at hf
    obtain rfl := Option.some.inj (fetched.symm.trans hf)
    have horigin : program.origin? (program.compile.firstLine none + k) = some e.line := by
      rw [Block.origin?, Nat.add_assoc, Nat.add_sub_cancel_left]
      exact hown.getLast?_take hk hs
    refine ⟨rfl, horigin, ?_⟩
    rw [horigin, Option.some.injEq, eq_comm]

/-- The quotient on line 2 fails on line 7 of the listing. -/
theorem origin?_of_errors_quotient :
    let program := Block.assign 2 0 (.binary (.number 1) (.arith .div) (.number 0)) (.halt 3 .done)
    let e : Located Fault := ⟨2, .divisionByZero⟩
    let e' : Located Fault := ⟨7, .divisionByZero⟩
    e'.val = e.val ∧ program.origin? e'.line = some e.line ∧
      (e'.line = e.line ↔ program.origin? e'.line = some e'.line) :=
  origin?_of_errors "ERWACHE\nDING 0 = 1 / 0\nVERNEINUNG" _ .initial [] ⟨2, .divisionByZero⟩
    ⟨7, .divisionByZero⟩ (by decide +kernel) ⟨⟨trivial, trivial⟩, trivial⟩ (by decide +kernel)
    (by decide +kernel) (by decide +kernel) nofun nofun

/-- The two lines are not one for each program. Line 7 of this one is never run. -/
theorem not_forall_line_eq : ¬∀ (source : String) (memory : Memory) (script : Script)
    (e e' : Located Fault), (walk source memory script).result = .error (.running e) →
      (compileAndExecute source memory script).result = .error (.running e') → e'.val = e.val →
      (∀ limit, e.val ≠ .overheat limit) →
      (walk source memory script).dialogue = (compileAndExecute source memory script).dialogue →
      e'.line = e.line := by
  intro h
  let source := "ERWACHE\nDING 0 = 1 / 0\nDING 1 = 2\nDING 2 = 3\nDING 3 = 4\nDING 4 = 5\n" ++
    "VORSTELLUNG DING 4\nVERNEINUNG\n"
  have hw : (walk source .initial []).result = .error (.running ⟨2, .divisionByZero⟩) := by
    decide +kernel
  obtain ⟨hc, hd⟩ : (compileAndExecute source .initial []).result =
        .error (.running ⟨7, .divisionByZero⟩) ∧
      (walk source .initial []).dialogue = (compileAndExecute source .initial []).dialogue := by
    decide +kernel
  have hl := h source .initial [] ⟨2, .divisionByZero⟩ ⟨7, .divisionByZero⟩ hw hc rfl nofun hd
  exact absurd hl (by decide)

end Toolchain

end Octet
