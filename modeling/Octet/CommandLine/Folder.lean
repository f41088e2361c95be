import Octet.CommandLine.Disk
import Octet.Text.Line

namespace Octet

namespace CommandLine

/-- The files of one folder and of the folders in it, by their paths from there. A file that is no
text has no content here. -/
structure Folder where
  files : List (List String × Option String)

/-- Where a path leads, seen from a folder: to a folder above it, to what else is outside, of which
nothing is known, or to a place below it, which may be free. -/
inductive Place
  | above
  | outside
  | inside (path : List String)
deriving DecidableEq

namespace Folder

def parts (path : String) : List String :=
  (Text.split (· == '/') path.toList).map String.ofList

def ofFiles (files : List (String × Option String)) : Folder :=
  ⟨files.map fun file => (parts file.1, file.2)⟩

def isFolder (folder : Folder) (place : List String) : Bool :=
  place.isEmpty || folder.files.any fun file => place.isPrefixOf file.1 && place != file.1

/-- The part of a path that names a file or a folder has at most so many bytes. -/
def partLimit : Nat := 255

/-- A path has fewer bytes than this. -/
def pathLimit : Nat := 4096

/-- Goes on from a place to a part of it. -/
def enter (folder : Folder) : Place → String → Except Cause Place
  | .above, part =>
    if ["", ".", ".."].contains part then .ok .above
    else if partLimit < part.utf8ByteSize then .error .tooLong
    else .ok .outside
  | .outside, _ => .error .missing
  | .inside path, part =>
    if folder.isFolder path then
      if part = "" ∨ part = "." then .ok (.inside path)
      else if part = ".." then .ok (if path.isEmpty then .above else .inside path.dropLast)
      else if partLimit < part.utf8ByteSize then .error .tooLong
      else .ok (.inside (path ++ [part]))
    else if (folder.files.lookup path).isSome then .error .notFolder
    else .error .missing

def place (folder : Folder) (path : String) : Except Cause Place :=
  if pathLimit ≤ path.utf8ByteSize then .error .tooLong
  else
    match parts path with
    | [""] => .error .missing
    | "" :: parts => parts.foldlM folder.enter .above
    | parts => parts.foldlM folder.enter (.inside [])

def read (folder : Folder) (path : String) : Except Cause String := do
  match ← folder.place path with
  | .above => .error .folder
  | .outside => .error .missing
  | .inside path =>
    if folder.isFolder path then .error .folder
    else
      match folder.files.lookup path with
      | some (some text) => .ok text
      | some none => .error .notText
      | none => .error .missing

/-- The folder in which a path with a slash at its end names another one. -/
def holder (path : String) : String :=
  let name := (path.toList.reverse.dropWhile (· == '/')).reverse
  "/".intercalate ((parts (String.ofList name)).dropLast ++ ["."])

/-- No file is made under the name of a folder, whether there is that folder or not. -/
def create (folder : Folder) (path : String) : Except Cause Unit := do
  if pathLimit ≤ path.utf8ByteSize then .error .tooLong
  match ← folder.place (if path.endsWith "/" then holder path else path) with
  | .above => .error .folder
  | .outside => .ok ()
  | .inside path => if folder.isFolder path then .error .folder else .ok ()

def disk (folder : Folder) : Disk := ⟨folder.read, folder.create⟩

/-- The file that changes when a text is written to a path, by its path from here. -/
def changed? (folder : Folder) (path text : String) : Option (String × String) :=
  match folder.place path with
  | .ok (.inside path) =>
    if folder.files.lookup path = some (some text) then none
    else some ("/".intercalate path, text)
  | _ => none

end Folder

end CommandLine

end Octet
