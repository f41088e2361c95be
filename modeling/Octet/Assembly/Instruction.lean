import Octet.Memory

namespace Octet

inductive Opcode
  | mav
  | vir
  | mak
  | pav
  | tar
  | tir
  | tin
  | tab
  | kur
  | sur
  | mur
  | dur
  | rur
  | rav
  | rev
  | rgv
  | nov
deriving DecidableEq

namespace Opcode

def all : List Opcode :=
  [mav, vir, mak, pav, tar, tir, tin, tab, kur, sur, mur, dur, rur, rav, rev, rgv, nov]

def name : Opcode → String
  | mav => "mav"
  | vir => "vir"
  | mak => "mak"
  | pav => "pav"
  | tar => "tar"
  | tir => "tir"
  | tin => "tin"
  | tab => "tab"
  | kur => "kur"
  | sur => "sur"
  | mur => "mur"
  | dur => "dur"
  | rur => "rur"
  | rav => "rav"
  | rev => "rev"
  | rgv => "rgv"
  | nov => "nov"

/-- The opcode of that name in capital or small letters. -/
def named? (word : List Char) : Option Opcode :=
  all.find? fun op => op.name.toList == word.map Char.toLower

theorem mem_all (op : Opcode) : op ∈ all := by
  cases op <;> decide

theorem named?_name (op : Opcode) : named? op.name.toList = some op := by
  cases op <;> decide

end Opcode

inductive Operand
  | register (r : Slot)
  | immediate (i : Int)
  | label (name : String)
  | data (key : String)
deriving DecidableEq

def Operand.display : Operand → String
  | register r => "r" ++ r.val.repr
  | immediate i => i.repr
  | label name => name
  | data key => key

structure Instruction where
  opcode : Opcode
  operands : List Operand
deriving DecidableEq

def Instruction.display (instruction : Instruction) : String :=
  match instruction.operands with
  | [] => instruction.opcode.name
  | operands => instruction.opcode.name ++ " " ++ ", ".intercalate (operands.map Operand.display)

end Octet
