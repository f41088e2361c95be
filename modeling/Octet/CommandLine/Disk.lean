namespace Octet

namespace CommandLine

/-- Why a file cannot be read or written. -/
inductive Cause
  | missing
  | folder
  | notFolder
  | tooLong
  | notText
  | other (text : String)
deriving DecidableEq

def Cause.message : Cause → String
  | missing => "No such file or directory (os error 2)"
  | folder => "Is a directory (os error 21)"
  | notFolder => "Not a directory (os error 20)"
  | tooLong => "File name too long (os error 36)"
  | notText => "stream did not contain valid UTF-8"
  | other text => text

/-- The files that a command can see, and where it may write one. -/
structure Disk where
  read : String → Except Cause String
  create : String → Except Cause Unit

/-- The disk after a file has been written. -/
def Disk.put (disk : Disk) (path text : String) : Disk :=
  { disk with read := fun other => if other = path then .ok text else disk.read other }

end CommandLine

end Octet
