import Octet.Proofs.CommandLine.Spelling
import Octet.Proofs.Text.Layout
import Octet.Proofs.Toolchain.Hearing

namespace Octet.CommandLine

/-- A terminal: what has not been read from it yet, and what has been written to it. -/
structure Terminal where
  unread : List Char
  written : String

namespace Terminal

/-- A terminal on which a text has been typed. -/
def on (stdin : String) : Terminal := ⟨stdin.toList, ""⟩

/-- The next line that is read: up to the first line feed and with it, or to the end if there is
none. -/
inductive Takes : List Char → List Char → List Char → Prop
  | feed {line rest : List Char} (h : '\n' ∉ line) :
      Takes (line ++ '\n' :: rest) (line ++ ['\n']) rest
  | last {line : List Char} (h : '\n' ∉ line) : Takes line line []

/-- What a line is heard as: the line without the line feeds and carriage returns at its end. -/
def Hears (line : List Char) (text : String) : Prop :=
  Text.Strips (fun c => c = '\n' ∨ c = '\r') line text.toList

/-- What an entry of a log does to a terminal. A line that it tells of is the next one. -/
inductive Serves (terminal : Terminal) : Entry → Terminal → Prop
  | output (text : String) : Serves terminal (.output text)
      { terminal with written := terminal.written ++ (text ++ "\n") }
  | input {line unread : List Char} {text : String} (ht : Takes terminal.unread line unread)
      (hl : Hears line text) : Serves terminal (.input (some text)) { terminal with unread }
  | event (e : Event) : Serves terminal (.event e) terminal
  | note (n : Note) : Serves terminal (.note n) terminal

inductive ServesAll : Terminal → List Entry → Terminal → Prop
  | nil (terminal : Terminal) : ServesAll terminal [] terminal
  | cons {terminal mid last : Terminal} {entry : Entry} {log : List Entry}
      (h : Serves terminal entry mid) (hs : ServesAll mid log last) :
      ServesAll terminal (entry :: log) last

/-- A script holds the lines that have not been read, as they are heard, and then empty ones. -/
inductive Supplies : Script → List Char → Prop
  | nil : Supplies [] []
  | cons {script : Script} {unread line rest : List Char} {text : String}
      (ht : Takes unread line rest) (hl : Hears line text) (hs : Supplies script rest) :
      Supplies (some text :: script) unread

variable {terminal mid last : Terminal} {script rest : Script} {line unread : List Char}
  {text : String} {log more : List Entry} {signals : List Signal}

theorem Takes.unique {rest rest' line' : List Char} (h : Takes unread line rest)
    (h' : Takes unread line' rest') : line = line' ∧ rest = rest' := by
  generalize hs : unread = s at h'
  cases h with
  | @feed front rest hn =>
    cases h' with
    | @feed front' rest' hn' =>
      have hp := congrArg Text.pieces hs
      rw [Text.pieces_append_feed hn, Text.pieces_append_feed hn'] at hp
      obtain rfl : front = front' := (List.cons.inj hp).1
      exact ⟨rfl, (List.cons.inj (List.append_cancel_left hs)).2⟩
    | last hn' => exact absurd (by simp [← hs]) hn'
  | last hn =>
    cases h' with
    | feed hn' => exact absurd (by simp [hs]) hn
    | last hn' => exact ⟨hs, rfl⟩

theorem hears_inputLine (line : List Char) : Hears line (inputLine line) := by
  rw [Hears, inputLine, String.toList_ofList]
  exact Text.strips_dropWhile (by simp) line

theorem Hears.unique {text' : String} (h : Hears line text) (h' : Hears line text') :
    text = text' :=
  String.toList_inj.1 (Text.Strips.unique h h')

/-- What is typed supplies its own lines. -/
theorem supplies_inputs (stdin : String) : Supplies (inputs stdin) stdin.toList := by
  rw [inputs]
  generalize stdin.toList = unread
  induction hn : unread.count '\n' generalizing unread with
  | zero =>
    have h : '\n' ∉ unread := List.count_eq_zero.1 hn
    rw [Text.pieces_of_not_mem h]
    exact .cons (.last h) (hears_inputLine unread) .nil
  | succ n ih =>
    have hm : '\n' ∈ unread := List.count_pos_iff.1 (by omega)
    obtain ⟨line, rest, rfl, h⟩ := List.eq_append_cons_of_mem hm
    have hl : inputLine (line ++ ['\n']) = inputLine line := by simp [inputLine]
    have hc : rest.count '\n' = n := by
      simpa [List.count_eq_zero_of_not_mem h] using hn
    rw [Text.pieces_append_feed h, List.map_cons, ← hl]
    exact .cons (.feed h) (hears_inputLine _) (ih rest hc)

/-- The next line of the script is the one that the terminal reads. -/
theorem Supplies.next (h : Supplies script unread) :
    ∃ line rest text, Takes unread line rest ∧ Hears line text ∧ script.next.1 = some text ∧
      Supplies script.next.2 rest := by
  cases h with
  | nil => exact ⟨[], [], inputLine [], .last nofun, hears_inputLine [], rfl, .nil⟩
  | cons ht hl hs => exact ⟨_, _, _, ht, hl, rfl, hs⟩

theorem Serves.unique {entry : Entry} {last' : Terminal} (h : Serves terminal entry last)
    (h' : Serves terminal entry last') : last = last' := by
  cases h with
  | input ht hl =>
    cases h' with
    | input ht' hl' =>
      rw [(ht.unique ht').2]
  | output text | event e | note n =>
    cases h'
    rfl

theorem ServesAll.append (h : ServesAll terminal log mid) (hm : ServesAll mid more last) :
    ServesAll terminal (log ++ more) last := by
  induction h with
  | nil terminal => exact hm
  | cons h hs ih => exact .cons h (ih hm)

/-- What a terminal serves behind a log that it can serve, it serves from where that leaves it. -/
theorem ServesAll.behind (h : ServesAll terminal log mid)
    (ha : ServesAll terminal (log ++ more) last) : ServesAll mid more last := by
  induction h with
  | nil terminal => exact ha
  | cons h hs ih =>
    cases ha with
    | cons h' hs' => exact ih (h.unique h' ▸ hs')

/-- What has been written in the end are the outputs, each on a line. -/
theorem ServesAll.written (h : ServesAll terminal log last) :
    last.written = terminal.written ++ shown log := by
  induction h with
  | nil terminal => simp [shown]
  | cons h hs ih =>
    cases h with
    | output text => simpa [shown, String.append_assoc] using ih
    | input | event | note => exact ih

/-- All but the readings leave what is unread. -/
theorem exists_servesAll_receive {signal : Signal} (h : signal.isRead = false) (console : Console)
    (terminal : Terminal) : ∃ last, ServesAll terminal (console.receive signal).1 last ∧
      last.unread = terminal.unread := by
  cases signal with
  | read line => cases h
  | display text | print text => exact ⟨_, .cons (.output _) (.nil _), rfl⟩
  | event e => exact ⟨_, .cons (.event e) (.nil _), rfl⟩
  | note n => exact ⟨_, .cons (.note n) (.nil _), rfl⟩
  | tick =>
    simp only [Console.receive, Odometer.tick, Odometer.remark]
    split
    · exact ⟨_, .cons (.note _) (.cons (.output _) (.cons (.event _) (.nil _))), rfl⟩
    · split
      · exact ⟨_, .cons (.note _) (.cons (.output _) (.cons (.event _) (.nil _))), rfl⟩
      · exact ⟨_, .nil _, rfl⟩

/-- A terminal can serve what reads the lines of a script that it supplies. -/
theorem exists_servesAll_transcript (h : script.Gives signals rest)
    (hs : Supplies script terminal.unread) (console : Console) :
    ∃ last, ServesAll terminal (console.transcript signals) last ∧ Supplies rest last.unread := by
  induction h generalizing terminal console with
  | nil script => exact ⟨terminal, .nil terminal, hs⟩
  | @read script rest signals h ih =>
    obtain ⟨line, unread, text, ht, hl, he, hn⟩ := hs.next
    obtain ⟨last, hv, hr⟩ := @ih { terminal with unread } hn console
    refine ⟨last, ?_, hr⟩
    rw [Console.transcript_cons, he]
    exact .cons (.input ht hl) hv
  | @other script rest signal signals hq h ih =>
    obtain ⟨mid, hm, hu⟩ := exists_servesAll_receive hq console terminal
    obtain ⟨last, hv, hr⟩ := ih (hu ▸ hs) (console.receive signal).2
    refine ⟨last, ?_, hr⟩
    rw [Console.transcript_cons]
    exact hm.append hv

theorem transcript_concat_read (console : Console) (signals : List Signal) (line : Option String) :
    console.transcript (signals ++ [.read line]) = console.transcript signals ++ [.input line] :=
  console.transcript_append signals [.read line]

/-- A terminal serves one run only: what else could be read, it does not supply. -/
theorem eq_of_told {ε α : Type} {run run' : Run ε α}
    (h : Run.Told (fun _ _ a b => a = b) script rest run run')
    (hs : Supplies script terminal.unread) (hv : ServesAll terminal run'.log last) :
    run' = run := by
  cases h with
  | ok h h' hp => rw [hp]
  | error h h' e => rfl
  | @apart signals more more' mid mid' result result' h h' hne =>
    obtain ⟨served, hm, hu⟩ := exists_servesAll_transcript h hs .new
    have hp : signals ++ [.read mid'.next.1] <+: signals ++ .read mid'.next.1 :: more' := by
      simp
    obtain ⟨tail, hl⟩ := Console.transcript_isPrefix hp .new
    rw [transcript_concat_read, List.append_assoc, List.singleton_append] at hl
    have hb : ServesAll served (.input mid'.next.1 :: tail) last := hm.behind (hl ▸ hv)
    obtain ⟨line, rest, text, ht, hh, he, -⟩ := hu.next
    generalize mid'.next.1 = line' at hb hne
    cases hb with
    | cons h _ =>
      cases h with
      | input ht' hh' =>
        obtain ⟨rfl, -⟩ := ht.unique ht'
        exact absurd (he.trans (congrArg some (hh.unique hh'))) hne

end Terminal

/-- The memory that a boot program leaves, if there is one, and the initial one if not. -/
def Boots (disk : Disk) (boot : Option String) (memory : Memory) : Prop :=
  match boot with
  | none => memory = .initial
  | some file => ∃ text, disk.read file = .ok text ∧ Toolchain.boot text = .ok memory

section Session

variable {disk : Disk} {mode : Mode} {file text : String} {boot : Option String} {memory : Memory}

theorem memory_eq_ok_iff : Session.memory disk boot = .ok memory ↔ Boots disk boot memory := by
  cases boot with
  | none => exact ⟨fun h => (Except.ok.inj h).symm, fun h => congrArg _ h.symm⟩
  | some file =>
    rw [Session.memory, Boots]
    cases disk.read file with
    | error cause =>
      constructor
      · rintro ⟨⟩
      · rintro ⟨program, ⟨⟩, -⟩
    | ok program => cases hb : Toolchain.boot program <;> simp [hb, Except.mapError]

/-- A text that can be read is run from the memory that is booted. -/
theorem commandLine_eq {arguments : List String}
    (asked : (Command.run mode file boot).Asked arguments) (source : disk.read file = .ok text)
    (booted : Boots disk boot memory) (script : Script) :
    commandLine arguments disk script = Session.run mode ⟨file, text⟩ memory script := by
  simp only [commandLine, read_of_asked asked, Command.perform, Session.prepare, Session.source,
    source, memory_eq_ok_iff.2 booted]
  rfl

theorem stdout_run (mode : Mode) (origin : Origin) (memory : Memory) (script : Script) :
    (Session.run mode origin memory script).stdout =
      shown (mode.run origin.text memory script).log := by
  rw [Session.run]
  cases (mode.run origin.text memory script).result <;> rfl

end Session

end Octet.CommandLine
