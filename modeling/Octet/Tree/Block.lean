import Octet.Located
import Octet.Tree.Expr

namespace Octet

/-- A list of statements, each with its line and followed by the rest of the list. -/
inductive Block
  | done
  | halt (line : Nat) (rest : Block)
  | assign (line : Nat) (slot : Slot) (value : Expr) (rest : Block)
  | output (line : Nat) (value : Expr) (rest : Block)
  | input (line : Nat) (slot : Slot) (rest : Block)
  | branch (line : Nat) (condition : Expr) (body otherwise : Block) (rest : Block)
  | loop (line : Nat) (condition : Expr) (body : Block) (rest : Block)
deriving DecidableEq

/-- A statement by itself. -/
inductive Statement
  | halt
  | assign (slot : Slot) (value : Expr)
  | output (value : Expr)
  | input (slot : Slot)
  | branch (condition : Expr) (body otherwise : Block)
  | loop (condition : Expr) (body : Block)
deriving DecidableEq

namespace Block

/-- A statement in front of a block. -/
def cons (statement : Located Statement) (rest : Block) : Block :=
  match statement.val with
  | .halt => halt statement.line rest
  | .assign slot value => assign statement.line slot value rest
  | .output value => output statement.line value rest
  | .input slot => input statement.line slot rest
  | .branch condition body otherwise => branch statement.line condition body otherwise rest
  | .loop condition body => loop statement.line condition body rest

def isEmpty : Block → Bool
  | done => true
  | _ => false

def length : Block → Nat
  | done => 0
  | halt _ rest | assign _ _ _ rest | output _ _ rest | input _ _ rest | branch _ _ _ _ rest
  | loop _ _ _ rest => rest.length + 1

/-- The statements in reverse, in front of a block. The blocks inside them stay as they are. -/
def reverseOnto : Block → Block → Block
  | done, after => after
  | halt line rest, after => rest.reverseOnto (halt line after)
  | assign line slot value rest, after => rest.reverseOnto (assign line slot value after)
  | output line value rest, after => rest.reverseOnto (output line value after)
  | input line slot rest, after => rest.reverseOnto (input line slot after)
  | branch line condition body otherwise rest, after =>
    rest.reverseOnto (branch line condition body otherwise after)
  | loop line condition body rest, after => rest.reverseOnto (loop line condition body after)

def reverse (block : Block) : Block := block.reverseOnto done

theorem reverse_reverseOnto (block after : Block) :
    (block.reverseOnto after).reverse = after.reverseOnto block := by
  induction block generalizing after <;> simp_all [reverseOnto, reverse]

@[simp] theorem reverse_reverse (block : Block) : block.reverse.reverse = block :=
  reverse_reverseOnto block done

end Block

end Octet
