import Octet.Text.Quoted

namespace Octet

inductive Keyword
  | erwache
  | verneinung
  | ding
  | vorstellung
  | wille
  | wenn
  | dann
  | sonst
  | solange
  | ende
  | mod
deriving DecidableEq

namespace Keyword

def all : List Keyword :=
  [erwache, verneinung, ding, vorstellung, wille, wenn, dann, sonst, solange, ende, mod]

def name : Keyword → String
  | erwache => "ERWACHE"
  | verneinung => "VERNEINUNG"
  | ding => "DING"
  | vorstellung => "VORSTELLUNG"
  | wille => "WILLE"
  | wenn => "WENN"
  | dann => "DANN"
  | sonst => "SONST"
  | solange => "SOLANGE"
  | ende => "ENDE"
  | mod => "MOD"

/-- The keyword that a word spells in capital or small letters. -/
def named? (word : List Char) : Option Keyword :=
  all.find? fun k => k.name.toList == word.map Char.toUpper

theorem mem_all (k : Keyword) : k ∈ all := by
  cases k <;> decide

theorem named?_name (k : Keyword) : named? k.name.toList = some k := by
  cases k <;> decide

end Keyword

inductive Token
  | keyword (k : Keyword)
  | number (n : UInt32)
  | text (s : String)
  | equal
  | notEqual
  | greater
  | less
  | greaterOrEqual
  | lessOrEqual
  | plus
  | minus
  | times
  | slash
  | newline
  | eof
deriving DecidableEq

/-- A token as messages name it. -/
def Token.display : Token → String
  | keyword k => "keyword `" ++ k.name ++ "`"
  | number n => "literal `" ++ n.toNat.repr ++ "`"
  | text s => "text " ++ Text.quote s
  | equal => "`=`"
  | notEqual => "`!=`"
  | greater => "`>`"
  | less => "`<`"
  | greaterOrEqual => "`>=`"
  | lessOrEqual => "`<=`"
  | plus => "`+`"
  | minus => "`-`"
  | times => "`*`"
  | slash => "`/`"
  | newline => "end of line"
  | eof => "end of file"

end Octet
