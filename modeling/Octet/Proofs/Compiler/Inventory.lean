import Octet.Proofs.Compiler.Emission
import Octet.Proofs.Listing.RoundTrip

namespace Octet

/-- The texts that the code of an expression loads, in order: literals, and joined constants. -/
def Expr.loads : Expr → List String
  | .number _ | .slot _ => []
  | .text s => [s]
  | .binary left op right =>
    match (Expr.binary left op right).folded? with
    | some v => [v.display]
    | none => left.loads ++ right.loads

def Block.loads : Block → List String
  | done => []
  | halt _ rest | input _ _ rest => rest.loads
  | assign _ _ value rest | output _ value rest => value.loads ++ rest.loads
  | branch _ condition body otherwise rest =>
    condition.loads ++ body.loads ++ otherwise.loads ++ rest.loads
  | loop _ condition body rest => condition.loads ++ body.loads ++ rest.loads

namespace Compiler

open Listing (Line)

/-- The key of a text that an instruction loads. -/
def key? : Instruction → Option String
  | ⟨.tar, [.register _, .data key]⟩ => some key
  | _ => none

def isJump : Opcode → Bool
  | .rav | .rev | .rgv => true
  | _ => false

/-- What every generated instruction keeps to: only a load names a key, and a jump has one operand,
a label below a bound. -/
structure Fits (labels : Nat) (i : Instruction) : Prop where
  keys : ∀ key, .data key ∈ i.operands → key? i = some key
  jumps : isJump i.opcode = true → ∃ n < labels, i.operands = [.label (Listing.labelName n)]

/-- Code accounts for the texts that its scope has gained, which are those that it loads, and it
jumps only to labels that are taken. -/
structure Accounts (scope : Scope) (code : List Line) (loads : List String) (after : Scope) :
    Prop where
  labels_le : scope.labels ≤ after.labels
  legible : ∀ line ∈ code, line.Legible
  fits : ∀ i ∈ Listing.instructions code, Fits after.labels i
  texts : after.texts = loads.foldl addText scope.texts
  keys : List.Forall₂ (fun key text => ∃ n, key = Listing.dataKey n ∧ after.texts[n]? = some text)
    ((Listing.instructions code).filterMap key?) loads

theorem addText_isPrefix (texts : List String) (text : String) : texts <+: addText texts text := by
  rw [addText]
  split
  · exact List.prefix_rfl
  · exact List.prefix_append ..

theorem foldl_addText_isPrefix (texts loads : List String) :
    texts <+: loads.foldl addText texts := by
  induction loads generalizing texts with
  | nil => exact List.prefix_rfl
  | cons text loads ih => exact (addText_isPrefix texts text).trans (ih _)

theorem Fits.mono {labels more : Nat} (hl : labels ≤ more) {i : Instruction} (h : Fits labels i) :
    Fits more i where
  keys := h.keys
  jumps hj :=
    have ⟨n, hn, ho⟩ := h.jumps hj
    ⟨n, Nat.lt_of_lt_of_le hn hl, ho⟩

/-- A line that loads nothing: the place of a label, work on registers and numbers, or a jump to a
label that is taken. -/
def IsQuiet (labels : Nat) : Line → Prop
  | .label _ => True
  | .instruction i comment => comment = none ∧
    if isJump i.opcode then ∃ n < labels, i.operands = [.label (Listing.labelName n)]
    else ∀ o ∈ i.operands, (∃ r, o = .register r) ∨ ∃ n, o = .immediate n ∧ Text.isInt64 n = true

namespace IsQuiet

variable {labels : Nat} {line : Line}

theorem legible (h : IsQuiet labels line) : line.Legible := by
  cases line with
  | label n => trivial
  | instruction i comment =>
    obtain ⟨rfl, ho⟩ := h
    refine ⟨fun o hm => ?_, nofun⟩
    split at ho
    · obtain ⟨n, -, ho⟩ := ho
      rw [ho, List.mem_singleton] at hm
      exact hm ▸ ⟨n, rfl⟩
    · obtain ⟨r, rfl⟩ | ⟨n, rfl, hn⟩ := ho o hm
      · trivial
      · exact hn

theorem fits {i : Instruction} {comment : Option String}
    (h : IsQuiet labels (.instruction i comment)) : Fits labels i ∧ key? i = none := by
  have hd : ∀ key, .data key ∉ i.operands := by
    intro key hm
    obtain ⟨-, ho⟩ := h
    split at ho
    · obtain ⟨n, -, ho⟩ := ho
      simp [ho] at hm
    · obtain ⟨r, hr⟩ | ⟨n, hn, -⟩ := ho _ hm
      · cases hr
      · cases hn
  refine ⟨⟨fun key hm => absurd hm (hd key), fun hj => ?_⟩, ?_⟩
  · exact (if_pos hj ▸ h.2 :)
  · unfold key?
    split
    · next r key => exact absurd (by simp) (hd key)
    · rfl

end IsQuiet

namespace Accounts

variable {scope mid after : Scope} {code rest : List Line} {loads more : List String}

theorem texts_isPrefix (h : Accounts scope code loads after) : scope.texts <+: after.texts :=
  h.texts ▸ foldl_addText_isPrefix ..

theorem append (h : Accounts scope code loads mid) (hr : Accounts mid rest more after) :
    Accounts scope (code ++ rest) (loads ++ more) after where
  labels_le := h.labels_le.trans hr.labels_le
  legible line hl := (List.mem_append.1 hl).elim (h.legible line) (hr.legible line)
  fits i hi := by
    rw [Listing.instructions_append] at hi
    exact (List.mem_append.1 hi).elim (fun hi => (h.fits i hi).mono hr.labels_le) (hr.fits i)
  texts := by rw [List.foldl_append, ← h.texts, hr.texts]
  keys := by
    rw [Listing.instructions_append, List.filterMap_append]
    refine List.rel_append (h.keys.imp ?_) hr.keys
    rintro key text ⟨n, hk, ht⟩
    obtain ⟨added, ha⟩ := hr.texts_isPrefix
    exact ⟨n, hk, by rw [← ha, List.getElem?_append_left (List.getElem?_eq_some_iff.1 ht).1, ht]⟩

/-- Labels may be taken before the code begins. -/
theorem of_labels {labels : Nat} (hl : scope.labels ≤ labels)
    (h : Accounts { scope with labels } code loads after) : Accounts scope code loads after :=
  { h with labels_le := hl.trans h.labels_le }

theorem annotate (h : Accounts scope code loads after) {comment : String}
    (hc : '\n' ∉ comment.toList) :
    Accounts scope (Listing.annotate comment code) loads after where
  labels_le := h.labels_le
  legible line hl := by
    unfold Listing.annotate at hl
    split at hl
    · obtain rfl | hl := List.mem_cons.1 hl
      · exact ⟨(h.legible _ List.mem_cons_self).1, fun _ ht => Option.some.inj ht ▸ hc⟩
      · exact h.legible line (List.mem_cons_of_mem _ hl)
    · exact h.legible line hl
  fits i hi := h.fits i (by rwa [Listing.instructions_annotate] at hi)
  texts := h.texts
  keys := by rw [Listing.instructions_annotate]; exact h.keys

theorem of_quiet {labels : Nat} (hl : scope.labels ≤ labels)
    (h : ∀ line ∈ code, IsQuiet labels line) :
    Accounts scope code [] { scope with labels } := by
  have hi : ∀ i ∈ Listing.instructions code, Fits labels i ∧ key? i = none := by
    intro i hi
    obtain ⟨line, hm, hi⟩ := List.mem_filterMap.1 hi
    cases line with
    | label n => cases hi
    | instruction j comment =>
      cases hi
      exact (h _ hm).fits
  have hk : (Listing.instructions code).filterMap key? = [] :=
    List.filterMap_eq_nil_iff.2 fun i hm => (hi i hm).2
  refine ⟨hl, fun line hm => (h line hm).legible, fun i hm => (hi i hm).1, rfl, ?_⟩
  rw [hk]
  exact .nil

theorem nil : Accounts scope [] [] scope := of_quiet (Nat.le_refl _) nofun

theorem loadLine {target : Slot} {text : String} {n : Nat} (hs : after.labels = scope.labels)
    (ht : after.texts = addText scope.texts text) (hn : after.texts[n]? = some text) :
    Accounts scope [line .tar [.register target, .data (Listing.dataKey n)]] [text] after where
  labels_le := hs.ge
  legible := by simp [line, Line.Legible, Operand.Legible]
  fits := by
    simp only [line, Listing.instructions_instruction, Listing.instructions_nil, List.mem_singleton]
    rintro i rfl
    refine ⟨fun key hk => ?_, nofun⟩
    simp only [List.mem_cons, List.not_mem_nil, or_false, reduceCtorEq, false_or,
      Operand.data.injEq] at hk
    rw [hk]
    rfl
  texts := ht
  keys := .cons ⟨n, rfl, hn⟩ .nil

end Accounts

theorem isQuiet_test (labels : Nat) (op : Comparison) (left right : Slot) :
    IsQuiet labels (test op left right) := by
  cases op <;> simp [test, line, IsQuiet, isJump]

/-- Work on registers and numbers alone. -/
theorem isQuiet_line {labels : Nat} {op : Opcode} {operands : List Operand}
    (hj : isJump op = false)
    (ho : ∀ o ∈ operands, (∃ r, o = .register r) ∨ ∃ n, o = .immediate n ∧ Text.isInt64 n = true) :
    IsQuiet labels (line op operands) := by
  refine ⟨rfl, ?_⟩
  rw [hj]
  exact ho

theorem isQuiet_jump {labels n : Nat} (hn : n < labels) {op : Opcode} (hj : isJump op = true) :
    IsQuiet labels (jump op n) := by
  refine ⟨rfl, ?_⟩
  rw [if_pos hj]
  exact ⟨n, hn, rfl⟩

theorem isQuiet_jumps {labels n : Nat} (hn : n < labels) (op : Comparison) :
    ∀ line ∈ jumps op n, IsQuiet labels line := by
  have he : IsQuiet labels (jump .rev n) := isQuiet_jump hn rfl
  have hg : IsQuiet labels (jump .rgv n) := isQuiet_jump hn rfl
  cases op <;> simp [jumps, he, hg]

theorem isInt64_toNat (n : UInt32) : Text.isInt64 n.toNat = true := by
  have := n.toNat_lt
  simp [Text.isInt64]
  omega

theorem isInt64_hit (op : Comparison) : Text.isInt64 (hit op) = true := by
  cases op <;> rfl

theorem isInt64_one_sub_hit (op : Comparison) : Text.isInt64 (1 - hit op) = true := by
  cases op <;> rfl

variable {scope after : Scope} {code : List Line} {target : Slot}

theorem accounts_truth {op : Comparison} {left right : Slot}
    (h : Emits (truth op target left right) scope code after) : Accounts scope code [] after := by
  obtain ⟨rfl, rfl⟩ := emits_truth h
  refine .of_quiet (Nat.le_succ _) fun line hm => ?_
  simp only [List.mem_append, List.mem_cons, List.not_mem_nil, or_false] at hm
  obtain ((rfl | rfl) | hm) | rfl | rfl := hm
  · exact isQuiet_test ..
  · exact isQuiet_line rfl (by simp [isInt64_hit])
  · exact isQuiet_jumps (Nat.lt_succ_self _) op line hm
  · exact isQuiet_line rfl (by simp [isInt64_one_sub_hit])
  · trivial

theorem accounts_load {text : String} (h : Emits (load target text) scope code after) :
    Accounts scope code [text] after := by
  obtain ⟨n, rfl, rfl, hn⟩ := emits_load h
  exact .loadLine rfl rfl hn

theorem accounts_line {op : Opcode} {operands : List Operand} (hj : isJump op = false)
    (ho : ∀ o ∈ operands, (∃ r, o = .register r) ∨ ∃ n, o = .immediate n ∧ Text.isInt64 n = true) :
    Accounts scope [line op operands] [] scope := by
  refine .of_quiet (Nat.le_refl _) fun l hm => ?_
  rw [List.mem_singleton.1 hm]
  exact isQuiet_line hj ho

theorem accounts_fill {e : Expr} {emitter : StateM Scope (List Line)}
    (h : Emits (fill e emitter) scope code after)
    (he : ∀ {code}, Emits emitter scope code after → Accounts scope code e.loads after) :
    Accounts scope code e.loads after := by
  obtain ⟨i, rfl, rfl, rfl⟩ | ⟨-, h⟩ := emits_fill h
  · exact .nil
  · exact he h

theorem accounts_bothOperands {left right : Expr} {leftCode rightCode : StateM Scope (List Line)}
    (h : Emits (bothOperands left right leftCode rightCode) scope code after)
    (hl : ∀ {scope code after}, Emits leftCode scope code after →
      Accounts scope code left.loads after)
    (hr : ∀ {scope code after}, Emits rightCode scope code after →
      Accounts scope code right.loads after) :
    Accounts scope code (left.loads ++ right.loads) after := by
  obtain ⟨first, mid, second, hf, hs, rfl⟩ := emits_bothOperands h
  have hf := accounts_fill hf hl
  have hs := accounts_fill hs hr
  split
  · have hin : Accounts mid [line .tin [.register leftWork]] [] mid := accounts_line rfl (by simp)
    have hout : Accounts after [line .tab [.register leftWork]] [] after :=
      accounts_line rfl (by simp)
    simpa using ((hf.append hin).append hs).append hout
  · exact hf.append hs

theorem accounts_compute {e : Expr} (h : Emits (compute e target) scope code after) :
    Accounts scope code e.loads after := by
  induction e generalizing scope code after target with
  | number n =>
    obtain ⟨rfl, rfl⟩ := emits_compute_number h
    exact accounts_line rfl (by simp [isInt64_toNat])
  | text s => exact accounts_load h
  | slot i =>
    obtain ⟨rfl, rfl⟩ := emits_compute_slot h
    exact accounts_line rfl (by simp)
  | binary left op right ihl ihr =>
    rw [Expr.loads]
    cases hv : (Expr.binary left op right).folded? with
    | some v => exact accounts_load (emits_compute_folded hv h)
    | none =>
      cases op with
      | arith op =>
        obtain ⟨both, hb, rfl⟩ := emits_compute_arith hv h
        have hb := accounts_bothOperands hb ihl ihr
        simpa using hb.append (accounts_line (by cases op <;> rfl) (by simp))
      | compare op =>
        obtain ⟨both, mid, rest, hb, ht, rfl⟩ := emits_compute_compare h
        simpa using (accounts_bothOperands hb ihl ihr).append (accounts_truth ht)

/-- A guard jumps to where its caller says, so that label has to be taken already. -/
theorem accounts_guard {condition : Expr} {otherwise : Nat} (ho : otherwise < scope.labels)
    (h : Emits (guard condition otherwise) scope code after) :
    Accounts scope code condition.loads after := by
  obtain hc | ⟨left, op, right, rfl⟩ := isPlain_or condition
  · obtain ⟨first, hf, rfl⟩ := emits_guard_plain hc h
    have hf := accounts_fill hf accounts_compute
    have hq : Accounts after [line .pav [.register (home leftWork condition), .immediate 0],
        jump .rev otherwise] [] after := by
      refine .of_quiet (Nat.le_refl _) fun line hl => ?_
      simp only [List.mem_cons, List.not_mem_nil, or_false] at hl
      obtain rfl | rfl := hl
      · exact isQuiet_line rfl (by simp [Text.isInt64])
      · exact isQuiet_jump (ho.trans_le hf.labels_le) rfl
    simpa using hf.append hq
  · obtain ⟨both, mid, hb, h⟩ := emits_guard_compare h
    have hb := accounts_bothOperands hb accounts_compute accounts_compute
    have hm := ho.trans_le hb.labels_le
    rw [Expr.loads, folded?_compare]
    split at h
    · obtain ⟨rfl, rfl⟩ := h
      have hq : Accounts after ([test op (home leftWork left) (home rightWork right)] ++
          jumps op otherwise) [] after := by
        refine .of_quiet (Nat.le_refl _) fun line hl => ?_
        obtain hl | hl := List.mem_append.1 hl
        · exact List.mem_singleton.1 hl ▸ isQuiet_test ..
        · exact isQuiet_jumps hm op line hl
      simpa using hb.append hq
    · obtain ⟨rfl, rfl⟩ := h
      have hq : Accounts mid ([test op (home leftWork left) (home rightWork right)] ++
          (jumps op mid.labels ++ [jump .rav otherwise, .label mid.labels])) []
          { mid with labels := mid.labels + 1 } := by
        refine .of_quiet (Nat.le_succ _) fun line hl => ?_
        simp only [List.mem_append, List.mem_cons, List.not_mem_nil, or_false] at hl
        obtain rfl | hl | rfl | rfl := hl
        · exact isQuiet_test ..
        · exact isQuiet_jumps (Nat.lt_succ_self _) op line hl
        · exact isQuiet_jump (by omega) rfl
        · trivial
      simpa using hb.append hq

section Block

theorem newline_notMem_toDigits {base : Nat} (hb : 1 < base) (hs : base ≤ 16) (n : Nat) :
    '\n' ∉ Nat.toDigits base n := by
  have hd : ∀ d < 16, '\n' ≠ Nat.digitChar d := by decide
  induction n using Nat.strong_induction_on with
  | _ n ih =>
    rw [Nat.toDigits_eq_if hb]
    split
    · next hn => simp [hd n (by omega)]
    · have hr : n % base < 16 := (Nat.mod_lt n (by omega)).trans_le hs
      simp [ih (n / base) (Nat.div_lt_self (by omega) hb), hd _ hr]

theorem newline_notMem_repr (n : Nat) : '\n' ∉ Nat.toDigits 10 n :=
  newline_notMem_toDigits (by decide) (by decide) n

theorem newline_notMem_encode (c : Char) : '\n' ∉ Text.encode '"' c := by
  have hd : '\n' ∉ Nat.toDigits 16 c.toNat := newline_notMem_toDigits (by decide) (by decide) _
  rw [Text.encode]
  split
  · next hc => obtain rfl | rfl := hc <;> decide
  · split
    · decide
    · next hn =>
      split_ifs
      · decide
      · decide
      · decide
      · simpa using Ne.symm hn
      · simp [hd]

theorem newline_notMem_quote (s : String) : '\n' ∉ (Text.quote s).toList := by
  simp [Text.quote, newline_notMem_encode]

theorem newline_notMem_display (e : Expr) : '\n' ∉ e.display.toList := by
  induction e with
  | number n => simp [Expr.display, newline_notMem_repr]
  | text s => exact newline_notMem_quote s
  | slot i => simp [Expr.display, newline_notMem_repr]
  | binary left op right ihl ihr =>
    have ho : '\n' ∉ op.symbol.toList := by
      cases op with
      | arith op => cases op <;> decide
      | compare op => cases op <;> decide
    simp [Expr.display, ihl, ihr, ho]

/-- The place of a label that is taken already. -/
theorem accounts_label (n : Nat) : Accounts scope [.label n] [] scope :=
  .of_quiet (Nat.le_refl _) (by simp [IsQuiet])

theorem accounts_jump {n : Nat} (hn : n < scope.labels) :
    Accounts scope [jump .rav n] [] scope := by
  have hj : IsQuiet scope.labels (jump .rav n) := isQuiet_jump hn rfl
  exact .of_quiet (Nat.le_refl _) (by simp [hj])

theorem accounts_block {b : Block} (h : Emits (block b) scope code after) :
    Accounts scope code b.loads after := by
  induction b generalizing scope code after with
  | done =>
    obtain ⟨rfl, rfl⟩ := emits_done h
    exact .nil
  | halt number rest ih =>
    obtain ⟨next, hn, rfl⟩ := emits_halt h
    have hl : Accounts scope [line .nov []] [] scope := accounts_line rfl (by simp)
    exact (hl.annotate (by decide)).append (ih hn)
  | assign number slot value rest ih =>
    obtain ⟨first, mid, next, hf, hn, rfl⟩ := emits_assign h
    refine ((accounts_compute hf).annotate ?_).append (ih hn)
    simp [newline_notMem_repr, newline_notMem_display]
  | output number value rest ih =>
    obtain ⟨first, mid, next, hf, hn, rfl⟩ := emits_output h
    have hf := accounts_fill hf accounts_compute
    have hm : Accounts mid [line .mav [.register (home leftWork value)]] [] mid :=
      accounts_line rfl (by simp)
    have hc : '\n' ∉ ("VORSTELLUNG " ++ value.display).toList := by simp [newline_notMem_display]
    simpa [Block.loads] using ((hf.append hm).annotate hc).append (ih hn)
  | input number slot rest ih =>
    obtain ⟨next, hn, rfl⟩ := emits_input h
    have hl : Accounts scope [line .vir [.register slot]] [] scope := accounts_line rfl (by simp)
    exact (hl.annotate (by simp [newline_notMem_repr])).append (ih hn)
  | branch number condition body otherwise rest ihb iho ihr =>
    have hc : '\n' ∉ ("WENN " ++ condition.display).toList := by simp [newline_notMem_display]
    by_cases ho : otherwise = .done
    · subst ho
      obtain ⟨test, first, inner, last, next, ht, hi, hn, rfl⟩ := emits_branch_done h
      have ht := (accounts_guard (Nat.lt_succ_self _) ht).of_labels (Nat.le_succ _)
      simpa [Block.loads] using
        (((ht.annotate hc).append (ihb hi)).append (accounts_label scope.labels)).append (ihr hn)
    · obtain ⟨test, first, inner, second, other, third, next, ht, hi, he, hn, rfl⟩ :=
        emits_branch ho h
      have ht := accounts_guard (show scope.labels < scope.labels + 2 by omega) ht
      have hi := ihb hi
      have hl : scope.labels + 1 < second.labels := ht.labels_le.trans hi.labels_le
      have hj := (accounts_jump hl).append (accounts_label scope.labels)
      have ht := (ht.of_labels (Nat.le_add_right _ 2)).annotate hc
      have ha := ((ht.append hi).append (hj.append (iho he))).append
        (accounts_label (scope.labels + 1))
      simpa [Block.loads] using ha.append (ihr hn)
  | loop number condition body rest ihb ihr =>
    obtain ⟨test, first, inner, second, next, ht, hi, hn, rfl⟩ := emits_loop h
    have ht := accounts_guard (show scope.labels + 1 < scope.labels + 2 by omega) ht
    have hi := ihb hi
    have hl : scope.labels + 1 < second.labels := ht.labels_le.trans hi.labels_le
    have hj := (accounts_jump (Nat.lt_of_succ_lt hl)).append (accounts_label (scope.labels + 1))
    have hc : '\n' ∉ ("SOLANGE " ++ condition.display).toList := by simp [newline_notMem_display]
    have ht := (ht.of_labels (Nat.le_add_right _ 2)).annotate hc
    have ha := (((accounts_label scope.labels).append ht).append hi).append hj
    simpa [Block.loads] using ha.append (ihr hn)

end Block

end Compiler

end Octet
