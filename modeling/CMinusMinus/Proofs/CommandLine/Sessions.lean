import CMinusMinus.CommandLine.Command
import CMinusMinus.CommandLine.Directory
import Mathlib

/-!
# Sessions on a directory

Sessions on a directory in memory are computed step by step. A session that writes no file leaves the directory
as it is, and what it adds to the streams does not depend on what they hold.
-/

namespace CMinusMinus.CommandLine

/-! ## Sessions -/

/-- What comes of a session, and the console after it. -/
def Console.run {α : Type} (console : Console) (a : Session (StateM Console) α) :
    Except CommandError α × Console :=
  StateT.run (m := Id) (ExceptT.run a) console

/-- What the log has of a selection of passes. -/
def warnings (log : Notice → String) (selection : String) : String :=
  String.join ((Notice.ofSelection selection).map log)

section Sessions

variable {α β : Type} (console : Console) (duration : String) (log : Notice → String)

namespace Console

@[simp] theorem run_pure (x : α) : console.run (pure x) = (.ok x, console) := rfl

@[simp] theorem run_bind (a : Session (StateM Console) α) (f : α → Session (StateM Console) β) :
    console.run (a >>= f) = match console.run a with
      | (.ok x, console) => console.run (f x)
      | (.error e, console) => (.error e, console) := by
  unfold run
  rw [ExceptT.run_bind, StateT.run_bind]
  rcases StateT.run (m := Id) a.run console with ⟨e | x, console⟩ <;> rfl

@[simp] theorem run_map (f : α → β) (a : Session (StateM Console) α) :
    console.run (f <$> a) = ((console.run a).1.map f, (console.run a).2) := by
  unfold run
  rw [ExceptT.run_map, StateT.run_map]
  rcases StateT.run (m := Id) a.run console with ⟨e | x, console⟩ <;> rfl

@[simp] theorem run_discard (a : Session (StateM Console) α) :
    console.run (discard a) = ((console.run a).1.map fun _ => (), (console.run a).2) :=
  console.run_map (fun _ => ()) a

theorem run_lift (a : StateM Console α) : console.run (liftM a) = (.ok (a console).1, (a console).2) :=
  rfl

@[simp] theorem run_timed (compute : Unit → α) :
    console.run (liftM ((Directory.host duration log).timed compute)) = (.ok (compute (), duration), console) :=
  rfl

@[simp] theorem run_print (text : String) : console.run (liftM ((Directory.host duration log).print text)) =
    (.ok (), { console with output := console.output ++ text }) :=
  rfl

@[simp] theorem run_report (text : String) : console.run (liftM ((Directory.host duration log).report text)) =
    (.ok (), { console with errors := console.errors ++ text }) :=
  rfl

@[simp] theorem run_tellAll (notices : List Notice) :
    console.run (liftM ((Directory.host duration log).tellAll notices)) =
      (.ok (), { console with errors := console.errors ++ String.join (notices.map log) }) := by
  have htold : ∀ console : Console, (Directory.host duration log).tellAll notices console =
      ((), { console with errors := console.errors ++ String.join (notices.map log) }) := by
    induction notices with
    | nil =>
      intro console
      rw [List.map_nil, String.join_nil, String.append_empty]
      rfl
    | cons notice notices ih =>
      intro console
      have hfirst : (Directory.host duration log).tellAll (notice :: notices) console =
          (Directory.host duration log).tellAll notices { console with errors := console.errors ++ log notice } :=
        rfl
      rw [hfirst, ih, List.map_cons, String.join_cons, String.append_assoc]
  rw [run_lift, htold]

@[simp] theorem run_selectPasses (selection : String) :
    console.run (selectPasses (Directory.host duration log) selection) =
      (.ok (Pass.select selection), { console with errors := console.errors ++ warnings log selection }) := by
  rw [selectPasses, run_bind, run_tellAll]
  rfl

@[simp] theorem run_orFail (result : Except Failure α) :
    console.run (orFail result) = (result.mapError .toolchain, console) := by
  cases result <;> rfl

@[simp] theorem run_readFile (path : String) : console.run (readFile (Directory.host duration log) path) =
    ((console.directory.readText path).mapError (.file path), console) := by
  unfold readFile
  rw [run_bind, run_lift]
  simp only [Directory.host]
  cases console.directory.readText path <;> rfl

@[simp] theorem run_writeFile (path text : String) :
    console.run (writeFile (Directory.host duration log) path text) =
    match console.directory.writeText path text with
    | .ok directory => (.ok (), { console with directory })
    | .error error => (.error (.file path error), console) := by
  unfold writeFile
  rw [run_bind, run_lift]
  simp only [Directory.host]
  cases console.directory.writeText path text <;> rfl

end Console

/-! ## Reports -/

/-- A session that writes no file: what it adds to the streams, and what comes of it, are up to the files. -/
def Reports (a : Session (StateM Console) α) : Prop :=
  ∀ d, ∃ result output errors, ∀ before before', Console.run ⟨d, before, before'⟩ a =
    (result, ⟨d, before ++ output, before' ++ errors⟩)

theorem reports_of_result {a : Session (StateM Console) α} (f : Directory → Except CommandError α)
    (h : ∀ console : Console, console.run a = (f console.directory, console)) : Reports a :=
  fun d => ⟨f d, "", "", fun before before' => by rw [h, String.append_empty, String.append_empty]⟩

theorem Reports.bind {a : Session (StateM Console) α} {f : α → Session (StateM Console) β}
    (ha : Reports a) (hf : ∀ x, Reports (f x)) : Reports (a >>= f) := by
  intro d
  obtain ⟨result, output, errors, ha⟩ := ha d
  cases result with
  | error e => exact ⟨.error e, output, errors, fun before before' => by rw [Console.run_bind, ha]⟩
  | ok x =>
    obtain ⟨result, output', errors', hf⟩ := hf x d
    refine ⟨result, output ++ output', errors ++ errors', fun before before' => ?_⟩
    rw [Console.run_bind, ha]
    simp only [hf, String.append_assoc]

theorem reports_pure (x : α) : Reports (pure x) :=
  reports_of_result (fun _ => .ok x) fun _ => rfl

theorem reports_throw (e : CommandError) : Reports (throw e : Session (StateM Console) α) :=
  reports_of_result (fun _ => .error e) fun _ => rfl

theorem reports_orFail (result : Except Failure α) : Reports (orFail result) :=
  reports_of_result (fun _ => result.mapError .toolchain) fun console => console.run_orFail result

theorem reports_readFile (path : String) : Reports (readFile (Directory.host duration log) path) :=
  reports_of_result (fun d => (d.readText path).mapError (.file path)) fun console =>
    console.run_readFile duration log path

theorem reports_timed (compute : Unit → α) : Reports (liftM ((Directory.host duration log).timed compute)) :=
  reports_of_result (fun _ => .ok (compute (), duration)) fun _ => rfl

theorem reports_print (text : String) : Reports (liftM ((Directory.host duration log).print text)) :=
  fun _ => ⟨.ok (), text, "", fun _ before' => by rw [Console.run_lift, String.append_empty]; rfl⟩

theorem reports_report (text : String) : Reports (liftM ((Directory.host duration log).report text)) :=
  fun _ => ⟨.ok (), "", text, fun before _ => by rw [Console.run_lift, String.append_empty]; rfl⟩

theorem reports_selectPasses (selection : String) :
    Reports (selectPasses (Directory.host duration log) selection) :=
  fun _ => ⟨.ok (Pass.select selection), "", warnings log selection, fun before before' => by
    rw [Console.run_selectPasses, String.append_empty]⟩

theorem reports_runFile (turns : Nat) (file : String) (flags : RunFlags) :
    Reports (runFile (Directory.host duration log) turns file flags) := by
  unfold runFile
  refine (reports_readFile duration log file).bind fun text => ?_
  refine (reports_selectPasses duration log _).bind fun passes => ?_
  refine (reports_timed duration log _).bind fun (built, loading) => ?_
  refine (reports_orFail built).bind fun p => (reports_timed duration log _).bind fun (run, running) => ?_
  refine (reports_report duration log _).bind fun _ => (reports_print duration log _).bind fun _ => ?_
  split
  · exact reports_throw _
  · exact reports_throw _
  · split
    · exact (reports_report duration log _).bind fun _ => reports_report duration log _
    · exact reports_pure ()

theorem reports_printTree (file : String) : Reports (printTree (Directory.host duration log) file) :=
  (reports_readFile duration log file).bind fun _ => (reports_orFail _).bind fun _ => reports_print duration log _

theorem reports_dumpFile (file optimizations : String) :
    Reports (dumpFile (Directory.host duration log) file optimizations) :=
  (reports_readFile duration log file).bind fun _ => (reports_selectPasses duration log _).bind fun _ =>
    (reports_orFail _).bind fun _ => reports_print duration log _

/-- Whether a command compiles a file. -/
def Command.compiles : Command → Bool
  | .compile .. | .compileAndRun .. => true
  | .run .. | .ast .. | .dump .. | .help | .nothing => false

/-- Only commands that compile write files. -/
theorem Command.reports_perform (turns : Nat) {command : Command} (h : command.compiles = false) :
    Reports (command.perform (Directory.host duration log) turns) := by
  cases command with
  | compile | compileAndRun => cases h
  | run file flags => exact reports_runFile duration log turns (bytecodePath file) flags
  | ast file => exact reports_printTree duration log file
  | dump file optimizations => exact reports_dumpFile duration log file optimizations
  | help => exact reports_pure ()
  | nothing => exact reports_throw .noFile

end Sessions

end CMinusMinus.CommandLine
