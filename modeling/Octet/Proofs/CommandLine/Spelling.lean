import Mathlib.Data.List.Permutation
import Octet.CommandLine.Session

namespace Octet.CommandLine

/-- What a part of a command line asks for. -/
inductive Item
  | file (path : String)
  | flag (flag : Flag)
  | setting (setting : Setting) (value : String)

/-- A text that cannot be taken for an option. A lone hyphen is none. -/
def IsPlain (text : String) : Prop := text = "-" ∨ text.toList.head? ≠ some '-'

def Setting.letter : Setting → Char
  | output => 'o'
  | boot => 'm'

/-- The spellings of an item. The flag that makes the log louder has none here. -/
inductive Spells : Item → List String → Prop
  | file {path : String} (h : IsPlain path) : Spells (.file path) [path]
  | listing : Spells (.flag .listing) ["-S"]
  | assembly : Spells (.flag .assembly) ["--grund"]
  | compiled : Spells (.flag .compiled) ["--compiled"]
  | apart {setting : Setting} {value : String} (h : IsPlain value) :
      Spells (.setting setting value) [String.ofList ['-', setting.letter], value]
  | joined {setting : Setting} {value : String} :
      Spells (.setting setting value) [String.ofList ('-' :: setting.letter :: '=' :: value.toList)]

/-- Items are spelled one after another. -/
inductive Writes : List Item → List String → Prop
  | nil : Writes [] []
  | cons {item : Item} {items : List Item} {part rest : List String} (h : Spells item part)
      (hr : Writes items rest) : Writes (item :: items) (part ++ rest)

/-- Arguments give a file and options in any order. Two hyphens may stand between the options and
the file. -/
def Asks (file : String) (options : List Item) (arguments : List String) : Prop :=
  (∃ items, items.Perm (.file file :: options) ∧ Writes items arguments) ∨
    ∃ items before, items.Perm options ∧ Writes items before ∧ arguments = before ++ ["--", file]

def modeFlags : Mode → List Flag
  | .walk => []
  | .execute => [.assembly]
  | .compile => [.compiled]

/-- The arguments ask for a command, in one of its spellings. A listing that is to go to standard
output, and the version, are left out. -/
def Command.Asked : Command → List String → Prop
  | version, _ | compile _ none _, _ => False
  | run mode file boot, arguments =>
    Asks file ((modeFlags mode).map .flag ++ boot.toList.map (.setting .boot)) arguments
  | compile file (some target) boot, arguments =>
    target ≠ "-" ∧ Asks file ([.flag .listing, .setting .output target] ++
      boot.toList.map (.setting .boot)) arguments

namespace Arguments

variable {arguments : Arguments} {item : Item} {items : List Item} {part rest : List String}

def put (arguments : Arguments) : Item → Arguments
  | .file path => { arguments with file := some path }
  | .flag flag => arguments.addFlag flag
  | .setting setting value =>
    { arguments with settings := (setting, some value) :: arguments.settings }

theorem waiting_put (arguments : Arguments) (item : Item) :
    (arguments.put item).waiting = arguments.waiting := by
  cases item <;> rfl

theorem ended_put (arguments : Arguments) (item : Item) :
    (arguments.put item).ended = arguments.ended := by
  cases item <;> rfl

theorem settle_eq (h : arguments.waiting = none) : arguments.settle = arguments := by
  rw [settle, h]

theorem take_of_isPlain {text : String} (he : arguments.ended = false) (h : IsPlain text) :
    arguments.take text =
      match arguments.waiting with
      | some setting =>
        .ok (some { arguments with
          settings := (setting, some text) :: arguments.settings, waiting := none })
      | none => some <$> arguments.addFile text := by
  rw [take, he]
  obtain rfl | hc := h
  · rfl
  · cases hl : text.toList with
    | nil => rfl
    | cons c cs =>
      have hn : c ≠ '-' := by
        intro hc'
        rw [hl, hc'] at hc
        exact hc rfl
      rw [if_neg Bool.false_ne_true]
      split
      · next h => exact absurd (List.cons.inj h).1 hn
      · next h => exact absurd (List.cons.inj h).1 hn
      · next h => exact absurd (List.cons.inj h).1 hn
      · rfl

theorem take_setting (setting : Setting) (value : List Char) (hw : arguments.waiting = none)
    (he : arguments.ended = false) :
    arguments.take (String.ofList ('-' :: setting.letter :: value)) =
      .ok (some (arguments.assign setting value)) := by
  rw [take, he, String.toList_ofList, settle_eq hw]
  cases setting <;> rfl

theorem readFrom_of_spells (h : Spells item part) (hw : arguments.waiting = none)
    (he : arguments.ended = false) (hf : ∀ path, item = .file path → arguments.file = none)
    (rest : List String) :
    arguments.readFrom (part ++ rest) = (arguments.put item).readFrom rest := by
  cases h with
  | file h =>
    rw [List.singleton_append, readFrom, take_of_isPlain he h, hw, addFile, hf _ rfl]
    rfl
  | listing | assembly | compiled =>
    rw [List.singleton_append, readFrom, take, he, settle_eq hw]
    rfl
  | @apart setting value h =>
    have ht := @take_of_isPlain { arguments with waiting := some setting } value he h
    rw [List.cons_append, List.singleton_append, readFrom, take_setting setting [] hw he]
    change Arguments.readFrom { arguments with waiting := some setting } (value :: rest) = _
    rw [readFrom, ht]
    obtain ⟨file, flags, settings, waiting, ended⟩ := arguments
    cases hw
    rfl
  | @joined setting value =>
    rw [List.singleton_append, readFrom, take_setting setting _ hw he, assign, String.ofList_toList]
    rfl

/-- The files among items. -/
def files (items : List Item) : List String :=
  items.filterMap fun
    | .file path => some path
    | _ => none

def flagsOf (items : List Item) : List Flag :=
  items.filterMap fun
    | .flag flag => some flag
    | _ => none

def settingsOf (items : List Item) : List (Setting × Option String) :=
  items.filterMap fun
    | .setting setting value => some (setting, some value)
    | _ => none

/-- Options and at most one file are taken one after another. -/
theorem readFrom_of_writes {written : List String} (h : Writes items written)
    (hw : arguments.waiting = none) (he : arguments.ended = false)
    (hf : (arguments.file.toList ++ files items).length ≤ 1) (rest : List String) :
    arguments.readFrom (written ++ rest) = (items.foldl put arguments).readFrom rest := by
  induction h generalizing arguments with
  | nil => rfl
  | @cons item items part more h hr ih =>
    have hnone : ∀ path, item = .file path → arguments.file = none := by
      rintro path rfl
      cases hfile : arguments.file with
      | none => rfl
      | some other => simp [hfile, files] at hf
    have hf' : ((arguments.put item).file.toList ++ files items).length ≤ 1 := by
      cases item with
      | file path => simpa [hnone path rfl, files, put] using hf
      | flag flag => exact hf
      | setting setting value => exact hf
    rw [List.append_assoc, readFrom_of_spells h hw he hnone]
    exact ih ((waiting_put _ _).trans hw) ((ended_put _ _).trans he) hf'

theorem foldl_put (arguments : Arguments) (items : List Item) :
    items.foldl put arguments =
      { arguments with
        file := (files items).getLast?.or arguments.file
        flags := (flagsOf items).reverse ++ arguments.flags
        settings := (settingsOf items).reverse ++ arguments.settings } := by
  induction items generalizing arguments with
  | nil => rfl
  | cons item items ih =>
    rw [List.foldl_cons, ih]
    cases item with
    | file path =>
      have hl : (files (.file path :: items)).getLast? = (files items).getLast?.or (some path) := by
        change (path :: files items).getLast? = _
        rw [List.getLast?_cons]
        cases (files items).getLast? <;> rfl
      simp [hl, flagsOf, settingsOf, put]
    | flag flag => simp [files, flagsOf, settingsOf, put, addFlag]
    | setting setting value => simp [files, flagsOf, settingsOf, put]

/-- Items that are written leave themselves, whatever follows them. -/
theorem exists_of_writes {wanted : List Item} {written : List String} (hp : items.Perm wanted)
    (h : Writes items written) (hl : (files wanted).length ≤ 1) :
    ∃ flags settings, flags.Perm (flagsOf wanted) ∧ settings.Perm (settingsOf wanted) ∧
      ∀ rest, empty.readFrom (written ++ rest) =
        readFrom ⟨(files wanted).head?, flags, settings, none, false⟩ rest := by
  have hf : (files items).Perm (files wanted) := hp.filterMap _
  have hflags : (flagsOf items).Perm (flagsOf wanted) := hp.filterMap _
  have hsettings : (settingsOf items).Perm (settingsOf wanted) := hp.filterMap _
  have hlast : (files items).getLast? = (files wanted).head? := by
    generalize files wanted = paths at hf hl
    match paths, hl with
    | [], _ =>
      rw [List.perm_nil.1 hf]
      rfl
    | [file], _ =>
      rw [List.perm_singleton.1 hf]
      rfl
  have hle : (empty.file.toList ++ files items).length ≤ 1 := hf.length_eq.trans_le hl
  refine ⟨(flagsOf items).reverse ++ [], (settingsOf items).reverse ++ [], by simpa using hflags,
    by simpa using hsettings, fun rest => ?_⟩
  rw [readFrom_of_writes h rfl rfl hle, foldl_put, hlast]
  cases (files wanted).head? <;> rfl

/-- Arguments that ask for a file with options leave this file and these options. -/
theorem exists_of_asks {file : String} {options : List Item} {written : List String}
    (ho : files options = []) (h : Asks file options written) :
    ∃ flags settings ended, flags.Perm (flagsOf options) ∧ settings.Perm (settingsOf options) ∧
      Command.read written = command ⟨some file, flags, settings, none, ended⟩ := by
  obtain ⟨items, hp, hw⟩ | ⟨items, before, hp, hw, rfl⟩ := h
  · have hf : files (.file file :: options) = [file] := congrArg (file :: ·) ho
    obtain ⟨flags, settings, hl, hs, hr⟩ := exists_of_writes hp hw (by rw [hf]; rfl)
    have hr := hr []
    rw [hf, List.append_nil] at hr
    exact ⟨flags, settings, false, hl, hs, hr⟩
  · obtain ⟨flags, settings, hl, hs, hr⟩ := exists_of_writes hp hw (by rw [ho]; decide)
    have hr := hr ["--", file]
    rw [ho] at hr
    exact ⟨flags, settings, true, hl, hs, hr⟩

end Arguments

theorem read_of_asked {command : Command} {written : List String} (h : command.Asked written) :
    Command.read written = .ok command := by
  cases command with
  | version => cases h
  | run mode file boot =>
    have ho : Arguments.files ((modeFlags mode).map .flag ++ boot.toList.map (.setting .boot)) =
        [] := by
      cases mode <;> cases boot <;> rfl
    obtain ⟨flags, settings, ended, hl, hs, hr⟩ := Arguments.exists_of_asks ho h
    have hflags : flags = modeFlags mode := by
      cases mode with
      | walk => cases boot <;> exact List.perm_nil.1 hl
      | execute | compile => cases boot <;> exact List.perm_singleton.1 hl
    have hsettings : settings = boot.toList.map fun file => (.boot, some file) := by
      cases boot with
      | none => cases mode <;> exact List.perm_nil.1 hs
      | some file => cases mode <;> exact List.perm_singleton.1 hs
    rw [hr, hflags, hsettings]
    cases mode <;> cases boot <;> rfl
  | compile file target boot =>
    cases target with
    | none => cases h
    | some target =>
      obtain ⟨ht, h⟩ := h
      obtain ⟨flags, settings, ended, hl, hs, hr⟩ :=
        Arguments.exists_of_asks (by cases boot <;> rfl) h
      have hfilter : (some target).filter (· != "-") = some target := by simp [ht]
      rw [hr]
      cases boot with
      | none =>
        obtain rfl : flags = [.listing] := List.perm_singleton.1 hl
        obtain rfl : settings = [(.output, some target)] := List.perm_singleton.1 hs
        exact congrArg (fun target => Except.ok (Command.compile _ target none)) hfilter
      | some file =>
        obtain rfl : flags = [.listing] := List.perm_singleton.1 hl
        obtain rfl | rfl := List.perm_pair.1 hs
        · exact congrArg (fun target => Except.ok (Command.compile _ target (some file))) hfilter
        · exact congrArg (fun target => Except.ok (Command.compile _ target (some file))) hfilter

end Octet.CommandLine
