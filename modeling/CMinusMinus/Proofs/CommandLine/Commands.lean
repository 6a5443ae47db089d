import CMinusMinus.Proofs.Code.Validity
import CMinusMinus.Proofs.CommandLine.Arguments
import CMinusMinus.Proofs.CommandLine.Files
import CMinusMinus.Proofs.CommandLine.Sessions
import Mathlib

/-!
# Commands on a directory

Compiling writes one file, or fails and writes nothing; running writes none. So compiling and running in one
command does what the two commands do, and leaves alone what they leave alone. A program that was dumped runs as
the compiled one does with the passes of the dump, since its text loses nothing.
-/

namespace CMinusMinus.CommandLine

variable {file : String} {output : Option String} {p : Program} {d d' : Directory}

/-! ## Compiling -/

/-- A file is compiled to a program, which is written to where it was asked for, or beside the file. -/
structure Directory.Compiles (d : Directory) (file : String) (output : Option String) (p : Program)
    (d' : Directory) : Prop where
  compiled : ∃ source, d.readText file = .ok source ∧ Program.ofSource source = .ok p
  written : d.writeText (output.getD (bytecodePath file)) p.text = .ok d'

/-- What compiling says of itself. -/
def compileReport (target duration : String) (info : Bool) : String :=
  if info then s!"compiled {target} in {duration}\n" else ""

theorem Directory.Compiles.run (h : d.Compiles file output p d') (duration : String) (log : Notice → String)
    (info : Bool) :
    Console.run ⟨d, "", ""⟩ (compileFile (Directory.host duration log) file output info) =
      (.ok (output.getD (bytecodePath file)),
        ⟨d', "", compileReport (output.getD (bytecodePath file)) duration info⟩) := by
  obtain ⟨source, hread, hcompiled⟩ := h.compiled
  cases info <;> simp [compileFile, hread, hcompiled, h.written, Except.mapError, Except.map, compileReport]

/-- A file is compiled and written, or nothing happens. -/
theorem Directory.compiles_or_fails (d : Directory) (duration : String) (log : Notice → String) (file : String)
    (output : Option String) :
    (∃ p d', d.Compiles file output p d') ∨
    ∃ e, ∀ info, Console.run ⟨d, "", ""⟩ (compileFile (Directory.host duration log) file output info) =
      (.error e, ⟨d, "", ""⟩) := by
  cases hread : d.readText file with
  | error e => exact .inr ⟨.file file e, fun info => by simp [compileFile, hread, Except.mapError]⟩
  | ok source =>
    cases hcompiled : Program.ofSource source with
    | error e =>
      refine .inr ⟨.toolchain e, fun info => ?_⟩
      simp [compileFile, hread, hcompiled, Except.mapError, Except.map]
    | ok p =>
      cases hwritten : d.writeText (output.getD (bytecodePath file)) p.text with
      | ok d' => exact .inl ⟨p, d', ⟨source, hread, hcompiled⟩, hwritten⟩
      | error e =>
        refine .inr ⟨.file (output.getD (bytecodePath file)) e, fun info => ?_⟩
        simp [compileFile, hread, hcompiled, hwritten, Except.mapError, Except.map]

/-! ## Dumping and running -/

theorem run_dumpFile (d : Directory) (duration : String) (log : Notice → String) (file optimizations : String) :
    Console.run ⟨d, "", ""⟩ (dumpFile (Directory.host duration log) file optimizations) =
      match (d.readText file).mapError (CommandError.file file) with
      | .error e => (.error e, ⟨d, "", ""⟩)
      | .ok source =>
        match Program.buildSource (Pass.select optimizations) source with
        | .error e => (.error (.toolchain e), ⟨d, "", warnings log optimizations⟩)
        | .ok p => (.ok (), ⟨d, p.text, warnings log optimizations⟩) := by
  rw [dumpFile, Console.run_bind, Console.run_readFile]
  cases d.readText file with
  | error e => rfl
  | ok source =>
    dsimp only [Except.mapError]
    rw [Console.run_bind, Console.run_selectPasses]
    dsimp only
    rw [Console.run_bind, Console.run_orFail]
    cases Program.buildSource (Pass.select optimizations) source with
    | error e => simp [Except.mapError]
    | ok p => simp [Except.mapError]

theorem RunFlags.limits_select (flags : RunFlags) (selection : String) :
    { flags with optimizations := selection }.limits = flags.limits :=
  rfl

/-- Only the program that is built of a file decides what comes of running the file, but for what the log has of
the selection. -/
theorem run_runFile_congr {file' text text' selection selection' : String} (duration : String)
    (log : Notice → String) (turns : Nat) (flags : RunFlags) (hread : d.readText file = .ok text)
    (hread' : d'.readText file' = .ok text')
    (hbuilt : Program.build (Pass.select selection) text = Program.build (Pass.select selection') text') :
    ∃ result output errors,
      Console.run ⟨d, "", ""⟩ (runFile (Directory.host duration log) turns file
        { flags with optimizations := selection }) = (result, ⟨d, output, warnings log selection ++ errors⟩) ∧
      Console.run ⟨d', "", ""⟩ (runFile (Directory.host duration log) turns file'
        { flags with optimizations := selection' }) =
          (result, ⟨d', output, warnings log selection' ++ errors⟩) := by
  simp only [runFile, Console.run_bind, Console.run_readFile, hread, hread', Except.mapError,
    Console.run_selectPasses, Console.run_timed, hbuilt, Console.run_orFail, String.empty_append]
  cases Program.build (Pass.select selection') text' with
  | error e => exact ⟨_, "", "", by rw [String.append_empty], by rw [String.append_empty]⟩
  | ok p =>
    simp only [Console.run_report, Console.run_print, RunFlags.limits_select, String.append_assoc]
    rcases (listedRun p flags.limits flags.trace turns).outcome? with _ | fault | outcome
    · exact ⟨_, _, _, rfl, rfl⟩
    · exact ⟨_, _, _, rfl, rfl⟩
    · cases flags.info
      · exact ⟨_, _, _, rfl, rfl⟩
      · simp only [if_true, Console.run_bind, Console.run_report, String.append_assoc]
        exact ⟨_, _, _, rfl, rfl⟩

/-! ## Commands -/

/-- The exit status of a command that begins with nothing on the streams, and the console after it. -/
def Directory.execute (d : Directory) (duration : String) (log : Notice → String) (turns : Nat)
    (command : Command) : Nat × Console :=
  StateT.run (m := Id) (command.execute (Directory.host duration log) turns) ⟨d, "", ""⟩

/-- How a command ends. -/
def finish : Except CommandError Unit × Console → Nat × Console
  | (.ok (), console) => (0, console)
  | (.error e, console) => (1, { console with errors := console.errors ++ s!"error: {e.message}\n" })

theorem finish_append (result : Except CommandError Unit) (d : Directory) (before output before' errors : String) :
    finish (result, ⟨d, before ++ output, before' ++ errors⟩) =
      let last := finish (result, ⟨d, output, errors⟩)
      (last.1, ⟨last.2.directory, before ++ last.2.output, before' ++ last.2.errors⟩) := by
  rcases result with e | x
  · simp [finish, String.append_assoc]
  · rfl

section Execute

variable (duration : String) (log : Notice → String) (turns : Nat)

theorem Directory.execute_eq (d : Directory) (command : Command) : d.execute duration log turns command =
    finish (Console.run ⟨d, "", ""⟩ (command.perform (Directory.host duration log) turns)) := by
  unfold execute Command.execute Console.run
  rw [StateT.run_bind]
  rcases StateT.run (m := Id) (command.perform (Directory.host duration log) turns).run ⟨d, "", ""⟩ with
    ⟨e | x, console⟩ <;> rfl

theorem Directory.Compiles.execute (h : d.Compiles file output p d') (info : Bool) :
    d.execute duration log turns (.compile file output info) =
      (0, ⟨d', "", compileReport (output.getD (bytecodePath file)) duration info⟩) := by
  rw [execute_eq, Command.perform, Console.run_discard, h.run]
  rfl

theorem Directory.execute_keeps (d : Directory) {command : Command} (h : command.compiles = false) :
    (d.execute duration log turns command).2.directory = d := by
  obtain ⟨result, output, errors, hrun⟩ := Command.reports_perform duration log turns h d
  rw [execute_eq, hrun]
  cases result <;> rfl

theorem Directory.Compiles.execute_compileAndRun (h : d.Compiles file none p d') (flags : RunFlags) :
    let second := d'.execute duration log turns (.run file flags)
    d.execute duration log turns (.compileAndRun file flags) =
      (second.1, ⟨second.2.directory, second.2.output,
        compileReport (bytecodePath file) duration flags.info ++ second.2.errors⟩) := by
  intro second
  obtain ⟨result, output, errors, hrun⟩ := reports_runFile duration log turns (bytecodePath file) flags d'
  have hsecond : second = finish (result, ⟨d', output, errors⟩) := by
    simp only [second, execute_eq, Command.perform, hrun, String.empty_append]
  rw [execute_eq duration log turns d, Command.perform, Console.run_bind, h.run, Option.getD_none]
  dsimp only
  rw [hrun, finish_append, ← hsecond]
  simp only [String.empty_append]

/-- Where nothing is compiled, nothing is written. -/
theorem Directory.execute_failed {e : CommandError} {command : Command}
    (he : ∀ info, Console.run ⟨d, "", ""⟩ (compileFile (Directory.host duration log) file none info) =
      (.error e, ⟨d, "", ""⟩))
    (hc : (∃ info, command = .compile file none info) ∨ ∃ flags, command = .compileAndRun file flags) :
    d.execute duration log turns command = finish (.error e, ⟨d, "", ""⟩) := by
  rw [execute_eq]
  rcases hc with ⟨info, rfl⟩ | ⟨flags, rfl⟩
  · rw [Command.perform, Console.run_discard, he]
    rfl
  · rw [Command.perform, Console.run_bind, he]

theorem Directory.execute_dump {source optimizations : String} (hread : d.readText file = .ok source)
    (hbuilt : Program.buildSource (Pass.select optimizations) source = .ok p) :
    d.execute duration log turns (.dump file optimizations) =
      (0, ⟨d, p.text, warnings log optimizations⟩) := by
  rw [execute_eq, Command.perform, run_dumpFile, hread]
  dsimp only [Except.mapError]
  rw [hbuilt]
  rfl

theorem Directory.exists_of_execute_dump {optimizations : String}
    (h : (d.execute duration log turns (.dump file optimizations)).1 = 0) :
    ∃ source p, d.readText file = .ok source ∧ Program.buildSource (Pass.select optimizations) source = .ok p := by
  rw [execute_eq, Command.perform, run_dumpFile] at h
  cases hread : d.readText file with
  | error e =>
    rw [hread] at h
    cases h
  | ok source =>
    rw [hread] at h
    dsimp only [Except.mapError] at h
    cases hbuilt : Program.buildSource (Pass.select optimizations) source with
    | error e =>
      rw [hbuilt] at h
      cases h
    | ok p => exact ⟨source, p, rfl, hbuilt⟩

/-- The exit status of a command line that begins with nothing on the streams, and the console after it. -/
def Directory.executeLine (d : Directory) (duration : String) (log : Notice → String) (turns : Nat)
    (arguments : List String) : Nat × Console :=
  StateT.run (m := Id) (CommandLine.execute (Directory.host duration log) turns arguments) ⟨d, "", ""⟩

variable {arguments : List String}

theorem Directory.executeLine_command (d : Directory) {command : Command}
    (h : Command.ofArguments arguments = .ok command) :
    d.executeLine duration log turns arguments = d.execute duration log turns command := by
  rw [executeLine, CommandLine.execute, h]
  rfl

theorem Directory.executeLine_error (d : Directory) {e : UsageError} (h : Command.ofArguments arguments = .error e) :
    (d.executeLine duration log turns arguments).1 = 2 := by
  rw [executeLine, CommandLine.execute, h]
  rfl

/-- A command that was understood succeeds or fails. -/
theorem Directory.execute_le_one (d : Directory) (command : Command) :
    (d.execute duration log turns command).1 ≤ 1 := by
  rw [execute_eq]
  rcases Console.run ⟨d, "", ""⟩ (command.perform (Directory.host duration log) turns) with ⟨e | x, console⟩
  · exact Nat.le_refl 1
  · exact Nat.zero_le 1

end Execute

/-! ## What is left alone -/

/-- Compiling a file, and running it after that, changes at most one file, which is where its bytecode goes; if
nothing is compiled, nothing is changed. A path without the extension of bytecode is given it, and the file under
the path is left as it is. -/
theorem Command.compiling_frame (duration : String) (log : Notice → String) (turns : Nat) (d : Directory)
    (file : String) (command : Command)
    (hc : (∃ info, command = .compile file none info) ∨ ∃ flags, command = .compileAndRun file flags) :
    let after := (d.execute duration log turns command).2.directory
    let target := bytecodePath file
    (after = d ∨ ∃ source p place, d.readText file = .ok source ∧ Program.ofSource source = .ok p ∧
      d.locate target (writingSteps target) = .ok place ∧
      ∀ other, after.get? other = if other = place then some p.text.toUTF8.data.toList else d.get? other) ∧
    (∀ info, (d.execute duration log turns (.compile file none info)).1 ≠ 0 → after = d) ∧
    (extension? file ≠ some bytecodeExtension → target = file ++ "." ++ bytecodeExtension ∧
      ∀ own, d.locate file (readingSteps file) = .ok own → after.get? own = d.get? own) := by
  intro after target
  have htarget : extension? file ≠ some bytecodeExtension → target = file ++ "." ++ bytecodeExtension :=
    bytecodePath_of_ne
  rcases d.compiles_or_fails duration log file none with ⟨p, d', hcompiles⟩ | ⟨e, he⟩
  · have hafter : after = d' := by
      rcases hc with ⟨info, rfl⟩ | ⟨flags, rfl⟩
      · simp only [after, hcompiles.execute]
      · simp only [after, hcompiles.execute_compileAndRun]
        exact Directory.execute_keeps duration log turns d' rfl
    obtain ⟨source, hread, hcompiled⟩ := hcompiles.compiled
    obtain ⟨place, hplace, hfree, rfl⟩ := Directory.writeText_ok hcompiles.written
    refine ⟨.inr ⟨source, p, place, hread, hcompiled, hplace, fun other => ?_⟩, fun info hstatus => ?_,
      fun hother => ⟨htarget hother, fun own hown => ?_⟩⟩
    · rw [hafter, Directory.get?_put]
    · rw [hcompiles.execute] at hstatus
      cases hstatus rfl
    · obtain ⟨own', hown', hfile⟩ := Directory.readText_ok hread
      cases hown.symm.trans hown'
      have hbeside : d.locate target (writingSteps target) = .ok place := hplace
      rw [htarget hother, String.append_assoc] at hbeside
      have hne : own ≠ place := Directory.place_ne_of_append hown hfile hbeside hfree (by decide) (by decide)
      rw [hafter, Directory.get?_put, if_neg hne]
  · have hafter : after = d := by
      simp only [after, Directory.execute_failed duration log turns he hc, finish]
    exact ⟨.inl hafter, fun _ _ => hafter, fun hother => ⟨htarget hother, fun own _ => by rw [hafter]⟩⟩

/-- A directory with one file. -/
def Directory.single (name text : String) : Directory :=
  ⟨[(.ofNames [name], text.toUTF8.data.toList)]⟩

theorem Directory.single_files (name text other : String) :
    (single name text).isDirectory (.ofNames [other]) = false := by
  simp [isDirectory, single, Place.isBelow, Place.ofNames]

theorem Directory.get?_single (name text : String) :
    (single name text).get? (.ofNames [name]) = some text.toUTF8.data.toList := by
  simp [get?, single]

theorem Directory.readText_single {name : String} (hname : IsName name) (text : String) :
    (single name text).readText name = .ok text :=
  readText_eq (hname.locate _).1 (single_files name text name) (get?_single name text)
    (Snapshot.fromUTF8?_toUTF8 text)

/-- A source text that prints a sum. -/
def summing : String := "main() { print 1 + 2; }"

def summed : Program :=
  ⟨#[⟨.push, ["1"]⟩, ⟨.push, ["2"]⟩, ⟨.binary .add, []⟩, ⟨.print, []⟩, ⟨.ret, ["0"]⟩], .ofList [("main", 0)]⟩

set_option maxRecDepth 4000 in
theorem ofSource_summing : Program.ofSource summing = .ok summed := by
  cbv

theorem Directory.single_compiles {name : String} (hname : IsName name) (htarget : IsName (bytecodePath name)) :
    (single name summing).Compiles name none summed
      ((single name summing).put (.ofNames [bytecodePath name]) summed.text.toUTF8.data.toList) :=
  ⟨⟨summing, readText_single hname summing, ofSource_summing⟩,
    writeText_eq (htarget.locate (single name summing)).2 (single_files name summing _) summed.text⟩

/-- A source file has its bytecode beside it. -/
theorem Command.compiling_frame_beside :
    let d := Directory.single "p.cmm" summing
    let after := (d.execute "1ms" (Notice.logLine none) 9 (.compile "p.cmm" none false)).2.directory
    extension? "p.cmm" ≠ some bytecodeExtension ∧
    d.locate "p.cmm" (readingSteps "p.cmm") = .ok (.ofNames ["p.cmm"]) ∧
    after.get? (.ofNames ["p.cmm"]) = d.get? (.ofNames ["p.cmm"]) ∧
    after.get? (.ofNames ["p.cmm.cmmbin"]) = some summed.text.toUTF8.data.toList := by
  intro d after
  have hextension : extension? "p.cmm" ≠ some bytecodeExtension := by decide
  have hname : IsName "p.cmm" := by decide
  have hlocate := (hname.locate (Directory.single "p.cmm" summing)).1
  obtain ⟨-, -, hkept⟩ := compiling_frame "1ms" (Notice.logLine none) 9 (Directory.single "p.cmm" summing) "p.cmm"
    (.compile "p.cmm" none false) (.inl ⟨false, rfl⟩)
  refine ⟨hextension, hlocate, (hkept hextension).2 _ hlocate, ?_⟩
  have hcompiles := Directory.single_compiles hname (by decide)
  have htarget : bytecodePath "p.cmm" = "p.cmm.cmmbin" := by decide
  simp only [after, d, hcompiles.execute, htarget, Directory.get?_put, if_true]

/-- A source file that has the extension of bytecode has its bytecode in its own place: compiling it, the source
is lost. -/
theorem Command.compiling_overwrites :
    let d := Directory.single "p.cmmbin" summing
    let last := d.execute "1ms" (Notice.logLine none) 9 (.compile "p.cmmbin" none false)
    last.1 = 0 ∧
    last.2.directory.get? (.ofNames ["p.cmmbin"]) ≠ d.get? (.ofNames ["p.cmmbin"]) ∧
    last.2.directory.get? (.ofNames ["p.cmmbin.cmmbin"]) = none := by
  intro d last
  have hname : IsName "p.cmmbin" := by decide
  have htarget : bytecodePath "p.cmmbin" = "p.cmmbin" := by decide
  have hcompiles := Directory.single_compiles hname (htarget.symm ▸ hname)
  have hlast : last = _ := hcompiles.execute "1ms" (Notice.logLine none) 9 false
  rw [hlast]
  refine ⟨rfl, ?_, ?_⟩
  · rw [htarget, Directory.get?_put, if_pos rfl, Directory.get?_single]
    intro hsame
    have htext : summed.text = "main:\n    push 1\n    push 2\n    add\n    print\n    return 0\n" := by cbv
    have hsource := toUTF8_inj (Option.some.inj hsame)
    rw [htext] at hsource
    revert hsource
    decide
  · rw [htarget, Directory.get?_put, if_neg (by decide)]
    decide

/-! ## One step and two -/

/-- Compiling and running is compiling and, if that succeeds, running. -/
theorem Directory.execute_compileAndRun (d : Directory) (duration : String) (log : Notice → String) (turns : Nat)
    (file : String) (flags : RunFlags) :
    let first := d.execute duration log turns (.compile file none flags.info)
    let second := first.2.directory.execute duration log turns (.run file flags)
    d.execute duration log turns (.compileAndRun file flags) =
      if first.1 = 0 then
        (second.1, ⟨second.2.directory, first.2.output ++ second.2.output, first.2.errors ++ second.2.errors⟩)
      else first := by
  intro first second
  rcases d.compiles_or_fails duration log file none with ⟨p, d', hcompiles⟩ | ⟨e, he⟩
  · have hfirst : first = _ := hcompiles.execute duration log turns flags.info
    have hsecond : second = d'.execute duration log turns (.run file flags) := by
      simp only [second, hfirst]
    rw [hcompiles.execute_compileAndRun, hfirst, hsecond, if_pos rfl, String.empty_append]
    rfl
  · have hfirst : first = _ := Directory.execute_failed duration log turns he (.inl ⟨flags.info, rfl⟩)
    rw [Directory.execute_failed duration log turns he (.inr ⟨flags, rfl⟩), hfirst]
    exact (if_neg Nat.one_ne_zero).symm

/-- Compiling and running in one command line is compiling and, if that succeeds, running: the files and the status
are the same, and the streams have what the two have, one after the other. The file must not look like an option
or have the name of a command. And where a file is dumped, it is compiled to any path that can be written; running
what was dumped as it is, and what was compiled with the passes of the dump, ends with one status and prints the
same. -/
theorem Command.one_step_two_steps (duration : String) (log : Notice → String) (turns : Nat) (d : Directory)
    (file : String) :
    (∀ (flags : RunFlags) (options : List String), IsFile file → flags.Spelled options →
      let first := d.executeLine duration log turns ("compile" :: file :: if flags.info then ["-i"] else [])
      let second := first.2.directory.executeLine duration log turns ("run" :: file :: options)
      d.executeLine duration log turns (file :: options) =
        if first.1 = 0 then
          (second.1, ⟨second.2.directory, first.2.output ++ second.2.output, first.2.errors ++ second.2.errors⟩)
        else first) ∧
    ∀ (flags : RunFlags) (optimizations : String) (output : Option String) (info : Bool) (copies : Directory)
      (compiled copy : String),
      let dump := d.execute duration log turns (.dump file optimizations)
      let compile := d.execute duration log turns (.compile file output info)
      dump.1 = 0 →
      (∃ text written, d.writeText (output.getD (bytecodePath file)) text = .ok written) →
      bytecodePath compiled = output.getD (bytecodePath file) →
      copies.readText (bytecodePath copy) = .ok dump.2.output →
      let plain := copies.execute duration log turns (.run copy { flags with optimizations := "" })
      let optimized := compile.2.directory.execute duration log turns (.run compiled { flags with optimizations })
      compile.1 = 0 ∧ plain.1 = optimized.1 ∧ plain.2.output = optimized.2.output := by
  refine ⟨fun flags options hfile hflags => ?_, ?_⟩
  · intro first second
    have hfirst : first = d.execute duration log turns (.compile file none flags.info) :=
      d.executeLine_command duration log turns (hfile.ofArguments_compile flags.info)
    have hsecond : second = first.2.directory.execute duration log turns (.run file flags) :=
      first.2.directory.executeLine_command duration log turns (hfile.ofArguments_run hflags)
    rw [d.executeLine_command duration log turns (hfile.ofArguments hflags), hsecond, hfirst]
    exact d.execute_compileAndRun duration log turns file flags
  · intro flags optimizations output info copies compiled copy dump compile hdump hwritable hcompiled hcopy
      plain optimized
    obtain ⟨source, p, hread, hbuilt⟩ := Directory.exists_of_execute_dump duration log turns hdump
    have houtput : dump.2.output = p.text := by
      simp only [dump, Directory.execute_dump duration log turns hread hbuilt]
    obtain ⟨q, hq, hp⟩ := bind_eq_ok hbuilt
    obtain ⟨text, written, hwritten⟩ := hwritable
    obtain ⟨d', hwritten⟩ := Directory.writeText_any hwritten q.text
    have hcompiles : d.Compiles file output q d' := ⟨⟨source, hread, hq⟩, hwritten⟩
    have hcompile : compile = _ := hcompiles.execute duration log turns info
    -- the dumped text is read as the program that the passes made, which the compiled text is built into
    obtain ⟨hw, hentry⟩ := Program.writable_of_buildSource hbuilt
    have hplain : Program.build (Pass.select "") p.text = .ok p := by
      rw [Program.build, Program.ofText_text hw hentry]
      rfl
    have hread : d'.readText (bytecodePath compiled) = .ok q.text := by
      rw [hcompiled]
      exact Directory.readText_writeText hwritten
    obtain ⟨result, printed, reported, hcopy, hcompiled⟩ := run_runFile_congr duration log turns flags
      (houtput ▸ hcopy) hread (hplain.trans hp.symm)
    have hplain : plain = finish (result, ⟨copies, printed, warnings log "" ++ reported⟩) := by
      simp only [plain, Directory.execute_eq, Command.perform, hcopy]
    have hoptimized : optimized = finish (result, ⟨d', printed, warnings log optimizations ++ reported⟩) := by
      simp only [optimized, hcompile, Directory.execute_eq, Command.perform, hcompiled]
    rw [hcompile, hplain, hoptimized]
    cases result <;> exact ⟨rfl, rfl, rfl⟩

set_option maxRecDepth 4000 in
/-- A sum that is compiled and run, and dumped with its operands folded; a part of the selection names no pass. -/
theorem Command.one_step_two_steps_sum :
    let log := Notice.logLine none
    let d := Directory.single "p.cmm" summing
    let flags : RunFlags := ⟨"cx", true, true, none, none⟩
    let options := ["-i", "--trace", "-o", "cx"]
    let dump := d.execute "1ms" log 9 (.dump "p.cmm" "cx")
    let copies := Directory.single "q.cmmbin" dump.2.output
    let first := d.executeLine "1ms" log 9 ["compile", "p.cmm", "-i"]
    let second := first.2.directory.executeLine "1ms" log 9 ("run" :: "p.cmm" :: options)
    let compile := d.execute "1ms" log 9 (.compile "p.cmm" none true)
    let plain := copies.execute "1ms" log 9 (.run "q" { flags with optimizations := "" })
    let optimized := compile.2.directory.execute "1ms" log 9 (.run "p.cmm" { flags with optimizations := "cx" })
    IsFile "p.cmm" ∧ flags.Spelled options ∧ first.1 = 0 ∧
    d.executeLine "1ms" log 9 ("p.cmm" :: options) =
      (second.1, ⟨second.2.directory, first.2.output ++ second.2.output, first.2.errors ++ second.2.errors⟩) ∧
    dump.1 = 0 ∧ copies.readText (bytecodePath "q") = .ok dump.2.output ∧ compile.1 = 0 ∧
    plain.1 = optimized.1 ∧ plain.2.output = optimized.2.output := by
  intro log d flags options dump copies first second compile plain optimized
  have hname : IsName "p.cmm" := by decide
  have hfile : IsFile "p.cmm" := ⟨by decide, by decide, by decide⟩
  have hflags : flags.Spelled options :=
    ⟨⟨[(.info, ""), (.trace, ""), (.optimizations, "cx")], []⟩, by cbv, rfl, rfl⟩
  have hread : d.readText "p.cmm" = .ok summing := Directory.readText_single hname summing
  have hbuilt : Program.buildSource (Pass.select "cx") summing =
      .ok ⟨#[⟨.push, ["3"]⟩, ⟨.print, []⟩, ⟨.ret, ["0"]⟩], .ofList [("main", 0)]⟩ := by
    rw [Program.buildSource, ofSource_summing]
    cbv
  have hdump : dump.1 = 0 := by
    simp only [dump, Directory.execute_dump _ _ _ hread hbuilt]
  have hcopy : copies.readText (bytecodePath "q") = .ok dump.2.output := by
    rw [show bytecodePath "q" = "q.cmmbin" by decide]
    exact Directory.readText_single (by decide) dump.2.output
  have hcompiles := Directory.single_compiles hname (by decide)
  have hwritable : ∃ text written, d.writeText (bytecodePath "p.cmm") text = .ok written :=
    ⟨_, _, hcompiles.written⟩
  obtain ⟨hboth, hruns⟩ := one_step_two_steps "1ms" log 9 d "p.cmm"
  obtain ⟨hcompile, hsame⟩ := hruns flags "cx" none true copies "p.cmm" "q" hdump hwritable rfl hcopy
  have hfirst : first = compile := d.executeLine_command "1ms" log 9 (hfile.ofArguments_compile true)
  have hstatus : first.1 = 0 := by
    rw [hfirst]
    exact hcompile
  have hwhole := (hboth flags options hfile hflags).trans (if_pos hstatus)
  exact ⟨hfile, hflags, hstatus, hwhole, hdump, hcopy, hcompile, hsame⟩

/-- A file cannot be named where it would be an option or a command: the first line names none, and the last of
the others is a command without a file. -/
theorem Command.one_step_reserved :
    let log := Notice.logLine none
    let option := Directory.single "-i" summing
    let word := Directory.single "run" summing
    let first := word.executeLine "1ms" log 9 ["compile", "run"]
    let second := first.2.directory.executeLine "1ms" log 9 ["run", "run"]
    (option.executeLine "1ms" log 9 ["-i"]).1 = 1 ∧ (option.executeLine "1ms" log 9 ["compile", "-i"]).1 = 2 ∧
    first.1 = 0 ∧ second.1 ≠ 2 ∧ (word.executeLine "1ms" log 9 ["run"]).1 = 2 := by
  intro log option word first second
  have hname : IsName "run" := by decide
  have hfirst : first = word.execute "1ms" log 9 (.compile "run" none false) :=
    word.executeLine_command "1ms" log 9 rfl
  have hsecond : second = first.2.directory.execute "1ms" log 9 (.run "run" ⟨"", false, false, none, none⟩) :=
    first.2.directory.executeLine_command "1ms" log 9 rfl
  have hcompiles := Directory.single_compiles hname (by decide)
  refine ⟨?_, option.executeLine_error "1ms" log 9 rfl, ?_, ?_, word.executeLine_error "1ms" log 9 rfl⟩
  · rw [option.executeLine_command "1ms" log 9 rfl]
    rfl
  · rw [hfirst, hcompiles.execute]
  · rw [hsecond]
    have hstatus := first.2.directory.execute_le_one "1ms" log 9 (.run "run" ⟨"", false, false, none, none⟩)
    omega

end CMinusMinus.CommandLine
