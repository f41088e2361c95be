import Octet.Listing
import Octet.Tree.Block

namespace Octet

/-- The value of an expression that no slot and no flag has a part in. The sum of two numbers is
left to the machine, which takes the carry in. -/
def Expr.folded? : Expr → Option Value
  | number n => some (.ofInt n.toNat)
  | text s => some (.text s)
  | slot _ => none
  | binary left op right =>
    match op, left.folded?, right.folded? with
    | .arith .add, some l, some r =>
      if l.isText || r.isText then some (.text (l.display ++ r.display)) else none
    | _, _, _ => none

namespace Compiler

open Listing (Line)

/-- The labels and texts that are taken. -/
structure Scope where
  labels : Nat
  texts : List String

def newLabel : StateM Scope Nat := fun scope =>
  (scope.labels, { scope with labels := scope.labels + 1 })

/-- The number of a text. Equal texts share one. -/
def textNumber (text : String) : StateM Scope Nat := fun scope =>
  match scope.texts.idxOf? text with
  | some n => (n, scope)
  | none => (scope.texts.length, { scope with texts := scope.texts ++ [text] })

/-- The work register for left operands. -/
def leftWork : Slot := 7

/-- The work register for right operands. -/
def rightWork : Slot := 6

def line (opcode : Opcode) (operands : List Operand) : Line := .instruction ⟨opcode, operands⟩ none

def jump (opcode : Opcode) (label : Nat) : Line := line opcode [.label (Listing.labelName label)]

def load (target : Slot) (text : String) : StateM Scope (List Line) := do
  let n ← textNumber text
  return [line .tar [.register target, .data (Listing.dataKey n)]]

def arithOpcode : Arith → Opcode
  | .add => .kur
  | .sub => .sur
  | .mul => .mur
  | .div => .dur
  | .mod => .rur

/-- Compares two registers. The flags know equal and greater, so "less" is turned around. -/
def test (op : Comparison) (left right : Slot) : Line :=
  match op with
  | .less | .lessOrEqual => line .pav [.register right, .register left]
  | _ => line .pav [.register left, .register right]

/-- The jumps that are taken after `test` where the comparison holds, and for `notEqual` where it
does not. -/
def jumps (op : Comparison) (label : Nat) : List Line :=
  match op with
  | .equal | .notEqual => [jump .rev label]
  | .less | .greater => [jump .rgv label]
  | .lessOrEqual | .greaterOrEqual => [jump .rgv label, jump .rev label]

/-- The register where an operand is found: a slot has its own. -/
def home (fallback : Slot) : Expr → Slot
  | .slot i => i
  | _ => fallback

/-- The code that brings an operand home. -/
def fill (e : Expr) (code : StateM Scope (List Line)) : StateM Scope (List Line) :=
  match e with
  | .slot _ => return []
  | _ => code

/-- The code for two operands. A right operand that is worked out uses the work register of the
left one, which then waits in the ring. -/
def bothOperands (left right : Expr) (leftCode rightCode : StateM Scope (List Line)) :
    StateM Scope (List Line) := do
  let leftCode ← fill left leftCode
  let rightCode ← fill right rightCode
  if home leftWork left = leftWork ∧ right.isBinary then
    return leftCode ++ [line .tin [.register leftWork]] ++ rightCode ++
      [line .tab [.register leftWork]]
  else return leftCode ++ rightCode

/-- Leaves in a register whether a comparison of two others holds. -/
def truth (op : Comparison) (target left right : Slot) : StateM Scope (List Line) := do
  let finish ← newLabel
  let hit : Int := if op = .notEqual then 0 else 1
  return [test op left right, line .tar [.register target, .immediate hit]] ++ jumps op finish ++
    [line .tar [.register target, .immediate (1 - hit)], .label finish]

/-- Works out an expression into a register. -/
def compute : Expr → Slot → StateM Scope (List Line)
  | .number n, target => return [line .tar [.register target, .immediate n.toNat]]
  | .text s, target => load target s
  | .slot i, target => return [line .tar [.register target, .register i]]
  | .binary left op right, target =>
    match (Expr.binary left op right).folded? with
    | some v => load target v.display
    | none => do
      let code ← bothOperands left right (compute left leftWork) (compute right rightWork)
      let l := home leftWork left
      let r := home rightWork right
      match op with
      | .arith op =>
        return code ++ [line (arithOpcode op) [.register target, .register l, .register r]]
      | .compare op => return code ++ (← truth op target l r)

/-- Goes on only if the condition holds, and else to the label. -/
def guard (condition : Expr) (otherwise : Nat) : StateM Scope (List Line) :=
  match condition with
  | .binary left (.compare op) right => do
    let code ← bothOperands left right (compute left leftWork) (compute right rightWork)
    let code := code ++ [test op (home leftWork left) (home rightWork right)]
    if op = .notEqual then return code ++ jumps op otherwise
    else
      let skip ← newLabel
      return code ++ jumps op skip ++ [jump .rav otherwise, .label skip]
  | _ => do
    let code ← fill condition (compute condition leftWork)
    return code ++ [line .pav [.register (home leftWork condition), .immediate 0],
      jump .rev otherwise]

def block : Block → StateM Scope (List Line)
  | .done => return []
  | .halt _ rest => do
    let after ← block rest
    return Listing.annotate "VERNEINUNG" [line .nov []] ++ after
  | .assign _ slot value rest => do
    let code ← compute value slot
    let after ← block rest
    return Listing.annotate ("DING " ++ slot.val.repr ++ " = " ++ value.display) code ++ after
  | .output _ value rest => do
    let code ← fill value (compute value leftWork)
    let code := code ++ [line .mav [.register (home leftWork value)]]
    let after ← block rest
    return Listing.annotate ("VORSTELLUNG " ++ value.display) code ++ after
  | .input _ slot rest => do
    let after ← block rest
    return Listing.annotate ("WILLE " ++ slot.val.repr) [line .vir [.register slot]] ++ after
  | .branch _ condition body otherwise rest => do
    let miss ← newLabel
    let finish ← if otherwise.isEmpty then pure miss else newLabel
    let code ← guard condition miss
    let body ← block body
    let other ← block otherwise
    let after ← block rest
    return Listing.annotate ("WENN " ++ condition.display) code ++ body ++
      (if otherwise.isEmpty then [] else [jump .rav finish, .label miss] ++ other) ++
      [.label finish] ++ after
  | .loop _ condition body rest => do
    let start ← newLabel
    let finish ← newLabel
    let code ← guard condition finish
    let body ← block body
    let after ← block rest
    return [.label start] ++ Listing.annotate ("SOLANGE " ++ condition.display) code ++ body ++
      [jump .rav start, .label finish] ++ after

end Compiler

/-- The listing of a program. Slot `n` is register `n`. -/
def Block.compile (program : Block) : Listing :=
  let compiled := (Compiler.block program).run ⟨0, []⟩
  ⟨compiled.2.texts, compiled.2.labels, compiled.1⟩

end Octet
