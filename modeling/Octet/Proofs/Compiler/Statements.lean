import Octet.Proofs.Compiler.Balance

namespace Octet

namespace Listing

def Line.comment? : Line → Option String
  | label _ => none
  | instruction _ comment => comment

def comments (code : List Line) : List String := code.filterMap Line.comment?

@[simp] theorem comments_nil : comments [] = [] := rfl

@[simp] theorem comments_label (n : Nat) (code : List Line) :
    comments (.label n :: code) = comments code := rfl

@[simp] theorem comments_append (code rest : List Line) :
    comments (code ++ rest) = comments code ++ comments rest :=
  List.filterMap_append ..

/-- The positions of the instructions that carry a comment, for code that stands at a position. -/
def starts (pc : Nat) : List Line → List Nat
  | [] => []
  | .label _ :: code => starts pc code
  | .instruction _ (some _) :: code => pc :: starts (pc + 1) code
  | .instruction _ none :: code => starts (pc + 1) code

theorem starts_append (pc : Nat) (code rest : List Line) :
    starts pc (code ++ rest) = starts pc code ++ starts (pc + size code) rest := by
  induction code generalizing pc with
  | nil => rfl
  | cons line code ih =>
    cases line with
    | label n => exact ih pc
    | instruction i comment =>
      have hn : pc + 1 + size code = pc + (size code + 1) := by omega
      cases comment with
      | none => rw [List.cons_append, starts, starts, ih, size_instruction, hn]
      | some text =>
        rw [List.cons_append, starts, starts, ih, size_instruction, hn, List.cons_append]

/-- As many positions carry a comment as there are comments. -/
theorem length_starts (pc : Nat) (code : List Line) :
    (starts pc code).length = (comments code).length := by
  induction code generalizing pc with
  | nil => rfl
  | cons line code ih =>
    cases line with
    | label n => exact ih pc
    | instruction i comment =>
      cases comment with
      | none => exact ih (pc + 1)
      | some text => exact congrArg (· + 1) (ih (pc + 1))

variable {pc : Nat} {code rest : List Line} {text : String}

theorem comments_eq_nil (h : ∀ line ∈ code, line.comment? = none) : comments code = [] :=
  List.filterMap_eq_nil_iff.2 h

theorem starts_eq_nil (h : ∀ line ∈ code, line.comment? = none) (pc : Nat) : starts pc code = [] :=
  List.length_eq_zero_iff.1 (by rw [length_starts, comments_eq_nil h, List.length_nil])

/-- Code without comments that does not begin with a label, so that a comment finds its place. -/
structure Bare (code : List Line) : Prop where
  uncommented : ∀ line ∈ code, line.comment? = none
  opening : ∀ n, code.head? ≠ some (.label n)

theorem bare_nil : Bare [] := ⟨nofun, nofun⟩

theorem Bare.append (h : Bare code) (hr : Bare rest) : Bare (code ++ rest) where
  uncommented line hl := (List.mem_append.1 hl).elim (h.uncommented line) (hr.uncommented line)
  opening n := by
    cases code with
    | nil => exact hr.opening n
    | cons line code => exact h.opening n

/-- A comment stands at the first of the instructions that it is put beside. -/
theorem Bare.annotate (h : Bare code) (hn : code ≠ []) (pc : Nat) :
    comments (annotate text code) = [text] ∧ starts pc (annotate text code) = [pc] := by
  obtain ⟨line, rest, rfl⟩ := List.exists_cons_of_ne_nil hn
  cases line with
  | label n => exact absurd rfl (h.opening n)
  | instruction i comment =>
    have hr : ∀ line ∈ rest, line.comment? = none :=
      fun line hl => h.uncommented line (List.mem_cons_of_mem _ hl)
    refine ⟨?_, ?_⟩
    · exact congrArg (text :: ·) (comments_eq_nil hr)
    · rw [Listing.annotate, starts, starts_eq_nil hr]

end Listing

/-- What the comments beside a block say: each statement in order, with those inside it. -/
def Block.captions : Block → List String
  | done => []
  | halt _ rest => "VERNEINUNG" :: rest.captions
  | assign _ slot value rest =>
    ("DING " ++ slot.val.repr ++ " = " ++ value.display) :: rest.captions
  | output _ value rest => ("VORSTELLUNG " ++ value.display) :: rest.captions
  | input _ slot rest => ("WILLE " ++ slot.val.repr) :: rest.captions
  | branch _ condition body otherwise rest =>
    ("WENN " ++ condition.display) :: (body.captions ++ otherwise.captions ++ rest.captions)
  | loop _ condition body rest =>
    ("SOLANGE " ++ condition.display) :: (body.captions ++ rest.captions)

namespace Compiler

open Listing

variable {program : Program} {pc : Nat} {scope after : Scope} {code rest : List Line}
  {e left right : Expr} {target l r : Slot} {op : Comparison}

section Bare

theorem bare_line (op : Opcode) (operands : List Operand) : Bare [line op operands] :=
  ⟨fun l hl => by rw [List.mem_singleton.1 hl]; rfl, nofun⟩

theorem bare_test (op : Comparison) (l r : Slot) : Bare [test op l r] := by
  cases op <;> exact bare_line ..

theorem bare_jumps (op : Comparison) (label : Nat) : Bare (jumps op label) := by
  cases op with
  | equal | notEqual | less | greater => exact bare_line ..
  | lessOrEqual | greaterOrEqual => exact (bare_line ..).append (bare_line ..)

/-- An instruction and the place of a label behind it. -/
theorem bare_line_label (op : Opcode) (operands : List Operand) (label : Nat) :
    Bare [line op operands, .label label] := by
  refine ⟨fun l hl => ?_, nofun⟩
  obtain rfl | rfl := List.mem_pair.1 hl <;> rfl

theorem bare_truth (h : Emits (truth op target l r) scope code after) : Bare code := by
  obtain ⟨rfl, -⟩ := emits_truth h
  have hfirst := (bare_test op l r).append (bare_line .tar [.register target, .immediate (hit op)])
  exact (hfirst.append (bare_jumps op scope.labels)).append (bare_line_label ..)

theorem bare_load {text : String} (h : Emits (load target text) scope code after) :
    Bare code ∧ code ≠ [] := by
  obtain ⟨n, rfl, -⟩ := emits_load h
  exact ⟨bare_line .., nofun⟩

theorem bare_fill {emitter : StateM Scope (List Line)} (h : Emits (fill e emitter) scope code after)
    (he : Emits emitter scope code after → Bare code ∧ code ≠ []) : Bare code := by
  obtain ⟨i, -, rfl, -⟩ | ⟨-, h⟩ := emits_fill h
  · exact bare_nil
  · exact (he h).1

theorem bare_operands
    (hl : ∀ {scope code after}, Emits (compute left leftWork) scope code after →
      Bare code ∧ code ≠ [])
    (hr : ∀ {scope code after}, Emits (compute right rightWork) scope code after →
      Bare code ∧ code ≠ [])
    (h : Emits (operands left right) scope code after) : Bare code := by
  obtain ⟨first, mid, second, hf, hs, rfl⟩ := emits_bothOperands h
  have hf := bare_fill hf hl
  have hs := bare_fill hs hr
  split
  · exact ((hf.append (bare_line ..)).append hs).append (bare_line ..)
  · exact hf.append hs

theorem bare_compute (h : Emits (compute e target) scope code after) : Bare code ∧ code ≠ [] := by
  induction e generalizing target scope code after with
  | number n =>
    obtain ⟨rfl, -⟩ := emits_compute_number h
    exact ⟨bare_line .., nofun⟩
  | text s => exact bare_load h
  | slot i =>
    obtain ⟨rfl, -⟩ := emits_compute_slot h
    exact ⟨bare_line .., nofun⟩
  | binary left op right ihl ihr =>
    cases hv : (Expr.binary left op right).folded? with
    | some v => exact bare_load (emits_compute_folded hv h)
    | none =>
      cases op with
      | arith op =>
        obtain ⟨both, hb, rfl⟩ := emits_compute_arith hv h
        exact ⟨(bare_operands ihl ihr hb).append (bare_line ..), by simp⟩
      | compare op =>
        obtain ⟨both, mid, rest, hb, ht, rfl⟩ := emits_compute_compare h
        refine ⟨(bare_operands ihl ihr hb).append (bare_truth ht), ?_⟩
        obtain ⟨rfl, -⟩ := emits_truth ht
        simp

theorem bare_guard {otherwise : Nat} (h : Emits (guard e otherwise) scope code after) :
    Bare code ∧ code ≠ [] := by
  obtain hc | ⟨left, op, right, rfl⟩ := isPlain_or e
  · obtain ⟨first, hf, rfl⟩ := emits_guard_plain hc h
    have hlast := (bare_line .pav [.register (home leftWork e), .immediate 0]).append
      (bare_line .rev [.label (labelName otherwise)])
    exact ⟨(bare_fill hf bare_compute).append hlast, by simp⟩
  · obtain ⟨both, mid, hb, hc⟩ := emits_guard_compare h
    have hfirst := (bare_operands bare_compute bare_compute hb).append
      (bare_test op (home leftWork left) (home rightWork right))
    split at hc
    · obtain ⟨rfl, -⟩ := hc
      exact ⟨hfirst.append (bare_jumps ..), by simp⟩
    · obtain ⟨rfl, -⟩ := hc
      exact ⟨(hfirst.append (bare_jumps ..)).append (bare_line_label ..), by simp⟩

end Bare

section Block

@[simp] theorem comments_jump (op : Opcode) (label : Nat) (code : List Line) :
    comments (jump op label :: code) = comments code := rfl

/-- Each statement has its comment, and nothing else has one. -/
theorem comments_block {b : Block} (h : Emits (block b) scope code after) :
    comments code = b.captions := by
  have hc : ∀ {text code}, Bare code ∧ code ≠ [] → comments (annotate text code) = [text] :=
    fun hb => (hb.1.annotate hb.2 0).1
  induction b generalizing scope code after with
  | done =>
    obtain ⟨rfl, -⟩ := emits_done h
    rfl
  | halt number rest ih =>
    obtain ⟨next, hn, rfl⟩ := emits_halt h
    rw [comments_append, hc ⟨bare_line .., nofun⟩, ih hn]
    rfl
  | assign number slot value rest ih =>
    obtain ⟨first, mid, next, hf, hn, rfl⟩ := emits_assign h
    rw [comments_append, hc (bare_compute hf), ih hn]
    rfl
  | output number value rest ih =>
    obtain ⟨first, mid, next, hf, hn, rfl⟩ := emits_output h
    have hb := (bare_fill hf bare_compute).append (bare_line .mav [.register (home leftWork value)])
    rw [comments_append, hc ⟨hb, by simp⟩, ih hn]
    rfl
  | input number slot rest ih =>
    obtain ⟨next, hn, rfl⟩ := emits_input h
    rw [comments_append, hc ⟨bare_line .., nofun⟩, ih hn]
    rfl
  | branch number condition body otherwise rest ihb iho ihr =>
    by_cases ho : otherwise = .done
    · subst ho
      obtain ⟨test, first, inner, last, next, ht, hi, hn, rfl⟩ := emits_branch_done h
      simp only [comments_append, hc (bare_guard ht), ihb hi, ihr hn]
      simp [Block.captions]
    · obtain ⟨test, first, inner, second, other, third, next, ht, hi, he, hn, rfl⟩ :=
        emits_branch ho h
      simp only [comments_append, hc (bare_guard ht), ihb hi, iho he, ihr hn]
      simp [Block.captions]
  | loop number condition body rest ihb ihr =>
    obtain ⟨test, first, inner, second, next, ht, hi, hn, rfl⟩ := emits_loop h
    simp only [comments_append, hc (bare_guard ht), ihb hi, ihr hn]
    simp [Block.captions]

/-- If nothing waits in the ring before some code, then nothing does behind it, nor at the start of
a statement in it. -/
def Grounded (program : Program) (pc : Nat) (code : List Line) : Prop :=
  Machine.height program pc = 0 →
    (∀ p ∈ starts pc code, Machine.height program p = 0) ∧
      Machine.height program (pc + size code) = 0

theorem Grounded.append (h : Grounded program pc code)
    (hr : Grounded program (pc + size code) rest) : Grounded program pc (code ++ rest) := by
  intro h0
  obtain ⟨hs, hm⟩ := h h0
  obtain ⟨hsr, hl⟩ := hr hm
  rw [starts_append, size_append, ← Nat.add_assoc]
  exact ⟨fun p hp => (List.mem_append.1 hp).elim (hs p) (hsr p), hl⟩

theorem grounded_nil : Grounded program pc [] := fun h0 => ⟨nofun, h0⟩

theorem grounded_label (n : Nat) : Grounded program pc [.label n] := fun h0 => ⟨nofun, h0⟩

theorem grounded_jump {n label : Nat}
    (hj : Machine.At program pc ⟨.rav, [.label (labelName n)]⟩) :
    Grounded program pc [jump .rav n, .label label] :=
  fun h0 => ⟨nofun, (height_next hj rfl).trans h0⟩

theorem grounded_annotate {text : String} (hb : Bare code ∧ code ≠ [])
    (hh : Machine.height program (pc + size code) = Machine.height program pc) :
    Grounded program pc (annotate text code) := by
  intro h0
  rw [size_annotate, (hb.1.annotate hb.2 pc).2, hh]
  exact ⟨fun p hp => (List.mem_singleton.1 hp).symm ▸ h0, h0⟩

/-- Where a block stands, nothing waits in the ring at the start of a statement. -/
theorem grounded_block {b : Block} (h : Emits (block b) scope code after)
    (hp : Placed program pc code) (hd : Stocked program after.texts) :
    Grounded program pc code := by
  induction b generalizing scope code after pc with
  | done =>
    obtain ⟨rfl, -⟩ := emits_done h
    exact grounded_nil
  | halt number rest ih =>
    obtain ⟨next, hn, rfl⟩ := emits_halt h
    obtain ⟨hpf, hp⟩ := (placed_append ..).1 hp
    exact (grounded_annotate ⟨bare_line .., nofun⟩ (height_next hpf.1 rfl)).append (ih hn hp hd)
  | assign number slot value rest ih =>
    obtain ⟨first, mid, next, hf, hn, rfl⟩ := emits_assign h
    obtain ⟨hpf, hp⟩ := (placed_append ..).1 hp
    have hi : Installed program (compute value slot) scope mid pc (pc + size first) :=
      ⟨first, hf, (placed_annotate ..).1 hpf, stocked_of_block hn hd, rfl⟩
    exact (grounded_annotate (bare_compute hf) (height_compute hi)).append (ih hn hp hd)
  | output number value rest ih =>
    obtain ⟨first, mid, next, hf, hn, rfl⟩ := emits_output h
    obtain ⟨hpf, hp⟩ := (placed_append ..).1 hp
    obtain ⟨hpf, hm⟩ := (placed_append ..).1 ((placed_annotate ..).1 hpf)
    have hi : Installed program (fill value (compute value leftWork)) scope mid pc
        (pc + size first) := ⟨first, hf, hpf, stocked_of_block hn hd, rfl⟩
    have hh := (height_next hm.1 rfl).trans (height_fill hi height_compute)
    have hb := (bare_fill hf bare_compute).append (bare_line .mav [.register (home leftWork value)])
    exact (grounded_annotate ⟨hb, by simp⟩ (by rwa [size_append])).append (ih hn hp hd)
  | input number slot rest ih =>
    obtain ⟨next, hn, rfl⟩ := emits_input h
    obtain ⟨hpf, hp⟩ := (placed_append ..).1 hp
    exact (grounded_annotate ⟨bare_line .., nofun⟩ (height_next hpf.1 rfl)).append (ih hn hp hd)
  | branch number condition body otherwise rest ihb iho ihr =>
    by_cases ho : otherwise = .done
    · subst ho
      obtain ⟨test, first, inner, last, next, ht, hi, hn, rfl⟩ := emits_branch_done h
      simp only [List.append_assoc, placed_append] at hp ⊢
      obtain ⟨hpt, hpi, -, hpn⟩ := hp
      have hds := stocked_of_block hn hd
      have hg : Installed program (guard condition scope.labels) _ first pc (pc + size test) :=
        ⟨test, ht, (placed_annotate ..).1 hpt, stocked_of_block hi hds, rfl⟩
      exact (grounded_annotate (bare_guard ht) (height_guard hg)).append
        ((ihb hi hpi hds).append ((grounded_label _).append (ihr hn hpn hd)))
    · obtain ⟨test, first, inner, second, other, third, next, ht, hi, he, hn, rfl⟩ :=
        emits_branch ho h
      simp only [List.append_assoc, placed_append] at hp ⊢
      obtain ⟨hpt, hpi, ⟨hj, -⟩, hpo, -, hpn⟩ := hp
      have hdt := stocked_of_block hn hd
      have hds := stocked_of_block he hdt
      have hg : Installed program (guard condition scope.labels) _ first pc (pc + size test) :=
        ⟨test, ht, (placed_annotate ..).1 hpt, stocked_of_block hi hds, rfl⟩
      exact (grounded_annotate (bare_guard ht) (height_guard hg)).append
        ((ihb hi hpi hds).append ((grounded_jump hj).append
          ((iho he hpo hdt).append ((grounded_label _).append (ihr hn hpn hd)))))
  | loop number condition body rest ihb ihr =>
    obtain ⟨test, first, inner, second, next, ht, hi, hn, rfl⟩ := emits_loop h
    simp only [List.append_assoc, placed_append] at hp ⊢
    obtain ⟨-, hpt, hpi, ⟨hj, -⟩, hpn⟩ := hp
    have hds := stocked_of_block hn hd
    have hg : Installed program (guard condition (scope.labels + 1)) _ first pc (pc + size test) :=
      ⟨test, ht, (placed_annotate ..).1 hpt, stocked_of_block hi hds, rfl⟩
    exact (grounded_label _).append ((grounded_annotate (bare_guard ht) (height_guard hg)).append
      ((ihb hi hpi hds).append ((grounded_jump hj).append (ihr hn hpn hd))))

end Block

end Compiler

namespace Block

open Compiler Machine

variable (program : Block) (name : Option String)

/-- Nothing waits in the ring at the start of a statement of a compiled program. -/
theorem height_starts_compile {p : Nat} (hp : p ∈ Listing.starts 0 program.compile.code) :
    height (program.compile.assembled name) p = 0 := by
  have hg := grounded_block program.emits_compile (placed_compile program name)
    (stocked_compile program name)
  exact (hg (height_zero _)).1 p hp

theorem comments_compile : Listing.comments program.compile.code = program.captions :=
  comments_block program.emits_compile

/-- A compiled program of normal expressions is sound at all its instructions. -/
theorem allSound_compile (hn : program.Every Expr.Normal) :
    AllSound (program.compile.assembled name) := by
  intro pc instruction ha
  obtain ⟨located, hl, -⟩ := Option.map_eq_some_iff.1 ha
  have hlt := (Array.getElem?_eq_some_iff.1 hl).1
  exact soundOn_block hn (height_zero _) (installed_compile program name) pc pc.zero_le
    (Listing.size_assembled program.compile name ▸ hlt)

end Block

end Octet
