import CMinusMinus.CommandLine.Arguments
import CMinusMinus.CommandLine.Host
import CMinusMinus.CommandLine.Path
import CMinusMinus.Toolchain
import CMinusMinus.Trace.Listing

/-!
# Commands

What each command reads, writes and prints. A command that fails has already written and printed what
came before the failure. Compiling writes one file, after all of it was compiled; running prints the
output of the program before any report on the run. Where a selection of passes has parts that name none,
the log is told before anything is built.
-/

namespace CMinusMinus.CommandLine

/-! ## Failures -/

/-- Why a command fails. -/
inductive CommandError where
  | file (path : String) (error : FileError)
  | toolchain (failure : Failure)
  | noFile
  /-- The run was given up. -/
  | unfinished
deriving DecidableEq, Repr

def CommandError.message : CommandError → String
  | file path error => s!"{path}: {error.message}"
  | toolchain failure => failure.message
  | noFile => "no input file given, see --help"
  | unfinished => "the run was given up"

/-! ## Running -/

def RunFlags.limits (flags : RunFlags) : Limits :=
  { Limits.standard with
    interval := flags.interval
    depth := flags.depth <|> Limits.standard.depth }

/-- A run with a listing of its instructions, which stays empty unless it is asked for. -/
def listedRun (p : Program) (limits : Limits) (trace : Bool) (turns : Nat) : Run Listing :=
  let observe := if trace then Listing.observe else fun listing _ => listing
  p.run (.ofLimits limits) turns observe (.start none)

/-- The lines on what a run left behind. -/
def summary (outcome : Outcome) : String :=
  let top := match outcome.top? with
    | some object => s!"top of stack: {object.text}\n"
    | none => ""
  outcome.stats.text ++ "\n" ++ top

/-! ## Commands -/

section Commands

variable {m : Type → Type} [Monad m] (host : Host m)

/-- An action of a host that may fail. -/
abbrev Session (m : Type → Type) := ExceptT CommandError m

/-- Fails with the failure of a stage. -/
def orFail {α : Type} (result : Except Failure α) : Session m α :=
  match result with
  | .ok value => return value
  | .error failure => throw (.toolchain failure)

def readFile (path : String) : Session m String := do
  match ← host.read path with
  | .ok text => return text
  | .error error => throw (.file path error)

def writeFile (path text : String) : Session m Unit := do
  match ← host.write path text with
  | .ok () => return ()
  | .error error => throw (.file path error)

/-- The passes of a selection; the log is told of what names no pass. -/
def selectPasses (selection : String) : Session m (List Pass) := do
  host.tellAll (Notice.ofSelection selection)
  return Pass.select selection

/-- Compiles a file, and gives the path that the bytecode was written to. -/
def compileFile (file : String) (output : Option String) (info : Bool) : Session m String := do
  let source ← readFile host file
  let (compiled, duration) ← host.timed fun _ => (Program.ofSource source).map Program.text
  let text ← orFail compiled
  let target := output.getD (bytecodePath file)
  writeFile host target text
  if info then
    host.report s!"compiled {target} in {duration}\n"
  return target

/-- Runs a file of bytecode for at most `turns` rounds. -/
def runFile (turns : Nat) (file : String) (flags : RunFlags) : Session m Unit := do
  let text ← readFile host file
  let passes ← selectPasses host flags.optimizations
  let (built, loading) ← host.timed fun _ => Program.build passes text
  let p ← orFail built
  let (run, running) ← host.timed fun _ => listedRun p flags.limits flags.trace turns
  host.report run.observed.text
  host.print run.state.output
  match run.outcome? with
  | none => throw .unfinished
  | some (.error fault) => throw (.toolchain (.run fault))
  | some (.ok outcome) =>
    if flags.info then
      host.report s!"loaded in {loading}, ran in {running}\n"
      host.report (summary outcome)

def printTree (file : String) : Session m Unit := do
  let text ← orFail (outline (← readFile host file))
  host.print (text ++ "\n")

def dumpFile (file optimizations : String) : Session m Unit := do
  let source ← readFile host file
  let passes ← selectPasses host optimizations
  let p ← orFail (Program.buildSource passes source)
  host.print p.text

def Command.perform (turns : Nat) : Command → Session m Unit
  | .compile file output info => do
    discard (compileFile host file output info)
  | .run file flags => runFile host turns (bytecodePath file) flags
  | .ast file => printTree host file
  | .dump file optimizations => dumpFile host file optimizations
  | .compileAndRun file flags => do
    runFile host turns (← compileFile host file none flags.info) flags
  | .help => return ()
  | .nothing => throw .noFile

/-- Does what a command asks for, reports a failure, and gives the exit status. -/
def Command.execute (turns : Nat) (command : Command) : m Nat := do
  match ← (command.perform host turns).run with
  | .ok () => return 0
  | .error error =>
    host.report s!"error: {error.message}\n"
    return 1

/-- Does what a command line asks for, and gives the exit status. -/
def execute (turns : Nat) (arguments : List String) : m Nat := do
  match Command.ofArguments arguments with
  | .ok command => command.execute host turns
  | .error error =>
    host.report s!"error: {error.message}\n"
    return 2

end Commands

end CMinusMinus.CommandLine
