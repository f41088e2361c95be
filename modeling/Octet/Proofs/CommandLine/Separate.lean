import Octet.Proofs.CommandLine.Terminal
import Octet.Proofs.Toolchain.Naming

namespace Octet.CommandLine

/-- The file can be read, the boot program can be read and runs to its end, and the text of the file
compiles. -/
def Compiles (disk : Disk) (file : String) (boot : Option String) : Prop :=
  ∃ text memory listing, disk.read file = .ok text ∧ Boots disk boot memory ∧
    (Toolchain.compile text (some file)).result = .ok listing

section Preface

/-- Notes stand in the log only. -/
theorem shown_transcript_preface {preface : List Signal} (h : Toolchain.IsPreface preface)
    (signals : List Signal) :
    shown (transcript (preface ++ signals)) = shown (transcript signals) := by
  obtain ⟨notes, rfl, -⟩ := h
  induction notes with
  | nil => rfl
  | cons note notes ih =>
    rw [← ih, List.map_cons, List.cons_append, transcript, Console.transcript_cons]
    rfl

theorem isPreface_execute (instructions labels data : Nat) :
    Toolchain.IsPreface
      [.note (.listed instructions labels data), .note (.assembled instructions)] :=
  ⟨[.listed instructions labels data, .assembled instructions], rfl, by simp⟩

/-- The listing of a program that bears a name shows what the program does, and ends as it does. -/
theorem execute_render {text name : String} {program : Block} (hn : '\n' ∉ name.toList)
    (h : (Toolchain.parse text).result = .ok program) (memory : Memory) (script : Script) :
    let separate := Toolchain.execute (program.compile.render (some name)) memory script
    let direct := Toolchain.compileAndExecute text memory script
    shown separate.log = shown direct.log ∧ separate.result.isOk = direct.result.isOk := by
  have hr : Assembly.read (program.compile.render none) = .ok (program.compile.assembled none) :=
    Assembly.read_render program.legible_compile nofun
  obtain ⟨-, -, -, hs⟩ := Toolchain.isRemark_of_newline_notMem hn program
  obtain ⟨preface, hp, hd⟩ := Toolchain.compileAndExecute_of_ok h memory script
  intro separate direct
  have he : separate = _ := (hs memory script).trans
    (congrArg _ (Toolchain.execute_of_read hr))
  rw [he, show direct = _ from hd]
  constructor
  · exact (shown_transcript_preface (isPreface_execute ..) _).trans
      (shown_transcript_preface hp _).symm
  · cases (Machine.run (program.compile.assembled none) memory script).result <;> rfl

end Preface

section Disk

variable {disk : Disk} {file out text : String} {boot : Option String} {memory : Memory}

theorem Disk.read_put (disk : Disk) (path text other : String) :
    (disk.put path text).read other = if other = path then .ok text else disk.read other := rfl

/-- A new file changes none that could be read before. -/
theorem read_put_of_fresh (fresh : disk.read out = .error .missing)
    (h : disk.read file = .ok text) (listing : String) :
    (disk.put out listing).read file = .ok text := by
  rw [Disk.read_put, if_neg]
  · exact h
  · rintro rfl
    cases fresh.symm.trans h

theorem Boots.put (h : Boots disk boot memory) (fresh : disk.read out = .error .missing)
    (listing : String) : Boots (disk.put out listing) boot memory := by
  cases boot with
  | none => exact h
  | some file =>
    obtain ⟨program, hr, hb⟩ := h
    exact ⟨program, read_put_of_fresh fresh hr listing, hb⟩

end Disk

section Compile

variable {disk before after : Disk} {file out text : String} {boot : Option String}
  {memory : Memory} {program : Block} {compiling executing direct : List String}

theorem result_compile (source : String) (name : Option String) :
    (Toolchain.compile source name).result =
      (Toolchain.parse source).result.map fun program => program.compile.render name := by
  cases hp : (Toolchain.parse source).result with
  | error failure => exact congrArg Run.result (Run.bind_of_error hp _)
  | ok program => exact congrArg Run.result (Run.bind_of_ok hp _)

theorem exists_of_compile {source listing : String} {name : Option String}
    (h : (Toolchain.compile source name).result = .ok listing) :
    ∃ program, (Toolchain.parse source).result = .ok program ∧
      program.compile.render name = listing := by
  rw [result_compile] at h
  cases hp : (Toolchain.parse source).result with
  | error failure =>
    rw [hp] at h
    cases h
  | ok program =>
    rw [hp] at h
    exact ⟨program, rfl, Except.ok.inj h⟩

/-- The boot program is run before the file is compiled, and has no part in the listing. -/
theorem commandLine_compile (asked : (Command.compile file (some out) boot).Asked compiling)
    (source : disk.read file = .ok text) (booted : Boots disk boot memory) (script : Script) :
    commandLine compiling disk script = Session.compile disk ⟨file, text⟩ (some out) := by
  simp only [commandLine, read_of_asked asked, Command.perform, Session.prepare, Session.source,
    source, memory_eq_ok_iff.2 booted]
  rfl

theorem commandLine_of_compiles (asked : (Command.compile file (some out) boot).Asked compiling)
    (writable : disk.create out = .ok ()) (source : disk.read file = .ok text)
    (booted : Boots disk boot memory) {listing : String}
    (compiled : (Toolchain.compile text (some file)).result = .ok listing) (script : Script) :
    commandLine compiling disk script = { saved := some (out, listing) } := by
  rw [commandLine_compile asked source booted]
  simp only [Session.compile, compiled, writable]

/-- Whatever is missing, nothing is written. -/
theorem commandLine_of_not_compiles
    (asked : (Command.compile file (some out) boot).Asked compiling)
    (h : ¬Compiles disk file boot) (script : Script) :
    ∃ message, commandLine compiling disk script = ({} : Outcome).fail message := by
  cases source : disk.read file with
  | error cause =>
    simp only [commandLine, read_of_asked asked, Command.perform, Session.prepare, Session.source,
      source]
    exact ⟨_, rfl⟩
  | ok text =>
    cases booted : Session.memory disk boot with
    | error message =>
      simp only [commandLine, read_of_asked asked, Command.perform, Session.prepare,
        Session.source, source, booted]
      exact ⟨_, rfl⟩
    | ok memory =>
      have booted := memory_eq_ok_iff.1 booted
      cases compiled : (Toolchain.compile text (some file)).result with
      | ok listing => exact absurd ⟨text, memory, listing, source, booted, compiled⟩ h
      | error failure =>
        rw [commandLine_compile asked source booted]
        simp only [Session.compile, compiled]
        exact ⟨_, rfl⟩

theorem code_run (mode : Mode) (origin : Origin) (memory : Memory) (script : Script) :
    (Session.run mode origin memory script).code =
      if (mode.run origin.text memory script).result.isOk then 0 else 1 := by
  rw [Session.run]
  cases (mode.run origin.text memory script).result <;> rfl

/-- A file with the listing is executed like the source, on disks that boot one memory. -/
theorem commandLine_execute_eq (newline : '\n' ∉ file.toList)
    (parsed : (Toolchain.parse text).result = .ok program)
    (listed : after.read out = .ok (program.compile.render (some file)))
    (source : before.read file = .ok text) (hafter : Boots after boot memory)
    (hbefore : Boots before boot memory) (he : (Command.run .execute out boot).Asked executing)
    (hd : (Command.run .compile file boot).Asked direct) (script : Script) :
    (commandLine executing after script).stdout = (commandLine direct before script).stdout ∧
      (commandLine executing after script).code = (commandLine direct before script).code := by
  obtain ⟨hshown, hok⟩ := execute_render newline parsed memory script
  rw [commandLine_eq he listed hafter, commandLine_eq hd source hbefore, stdout_run, stdout_run,
    code_run, code_run]
  exact ⟨hshown, congrArg (fun ok => if ok = true then 0 else 1) hok⟩

/-- To compile a file into a new one and to execute that is to compile and execute the file at
once. A file that does not compile leaves the disk as it is. -/
theorem separate_eq_direct (newline : '\n' ∉ file.toList)
    (fresh : disk.read out = .error .missing) (writable : disk.create out = .ok ())
    (hc : (Command.compile file (some out) boot).Asked compiling)
    (he : (Command.run .execute out boot).Asked executing)
    (hd : (Command.run .compile file boot).Asked direct) (script : Script) :
    let made := commandLine compiling disk script
    let after := made.disk disk
    (Compiles disk file boot → made.code = 0 ∧ made.stdout = "" ∧ made.stderr = "" ∧
      (∃ listing, made.saved = some (out, listing)) ∧
      (∀ path ≠ out, after.read path = disk.read path) ∧
      ∀ before ∈ [disk, after], ∀ script,
        (commandLine executing after script).stdout = (commandLine direct before script).stdout ∧
        (commandLine executing after script).code = (commandLine direct before script).code) ∧
    (¬Compiles disk file boot → made.code = 1 ∧ made.stdout = "" ∧ made.saved = none) := by
  intro made after
  constructor
  · rintro ⟨text, memory, listing, source, booted, compiled⟩
    obtain ⟨program, parsed, rfl⟩ := exists_of_compile compiled
    have hmade : made = { saved := some (out, program.compile.render (some file)) } :=
      commandLine_of_compiles hc writable source booted compiled script
    have hafter : after = disk.put out (program.compile.render (some file)) :=
      congrArg (Outcome.disk · disk) hmade
    have listed : after.read out = .ok (program.compile.render (some file)) := by
      rw [hafter, Disk.read_put, if_pos rfl]
    have hbooted : Boots after boot memory := by
      rw [hafter]
      exact booted.put fresh _
    rw [hmade]
    refine ⟨rfl, rfl, rfl, ⟨_, rfl⟩, ?_, ?_⟩
    · intro path hp
      rw [hafter, Disk.read_put, if_neg hp]
    · simp only [List.forall_mem_cons, List.not_mem_nil, false_implies, implies_true, and_true]
      constructor
      · exact commandLine_execute_eq newline parsed listed source hbooted booted he hd
      · have hsource : after.read file = .ok text := by
          rw [hafter]
          exact read_put_of_fresh fresh source _
        exact commandLine_execute_eq newline parsed listed hsource hbooted hbooted he hd
  · intro h
    obtain ⟨message, hm⟩ := commandLine_of_not_compiles hc h script
    rw [show made = _ from hm]
    exact ⟨rfl, rfl, rfl⟩

/-- A program that shows what it reads, by way of a file and at once. -/
theorem separate_eq_direct_echo :
    let disk : Disk := ⟨fun path =>
      if path = "echo" then .ok "ERWACHE\nWILLE 0\nVORSTELLUNG DING 0" else .error .missing,
      fun _ => .ok ()⟩
    let made := commandLine ["-S", "-o", "listing", "echo"] disk []
    Compiles disk "echo" none ∧ made.code = 0 ∧ ∀ script,
      (commandLine ["--grund", "listing"] (made.disk disk) script).stdout =
        (commandLine ["--compiled", "echo"] disk script).stdout := by
  intro disk made
  have hc : (Command.compile "echo" (some "listing") none).Asked ["-S", "-o", "listing", "echo"] :=
    ⟨by decide, .inl ⟨[.flag .listing, .setting .output "listing", .file "echo"],
      List.perm_append_singleton (Item.file "echo")
        [Item.flag .listing, Item.setting .output "listing"],
      .cons .listing (.cons (.apart (.inr (by decide))) (.cons (.file (.inr (by decide))) .nil))⟩⟩
  have he : (Command.run .execute "listing" none).Asked ["--grund", "listing"] :=
    .inl ⟨[.flag .assembly, .file "listing"], .swap _ _ _,
      .cons .assembly (.cons (.file (.inr (by decide))) .nil)⟩
  have hd : (Command.run .compile "echo" none).Asked ["--compiled", "echo"] :=
    .inl ⟨[.flag .compiled, .file "echo"], .swap _ _ _,
      .cons .compiled (.cons (.file (.inr (by decide))) .nil)⟩
  have hparse : (Toolchain.parse "ERWACHE\nWILLE 0\nVORSTELLUNG DING 0").result =
      .ok (.input 2 0 (.output 3 (.slot 0) .done)) := by decide +kernel
  have hcompiles : Compiles disk "echo" none :=
    ⟨_, _, _, rfl, rfl, (result_compile ..).trans (congrArg (Except.map _) hparse)⟩
  obtain ⟨hcode, -, -, -, -, hruns⟩ :=
    (separate_eq_direct (by decide) rfl rfl hc he hd []).1 hcompiles
  exact ⟨hcompiles, hcode, fun script => (hruns disk (List.mem_cons_self ..) script).1⟩

end Compile

end Octet.CommandLine
