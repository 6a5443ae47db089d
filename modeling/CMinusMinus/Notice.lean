import CMinusMinus.Toolchain

/-!
# Notices

What the stages tell of their work, apart from their results. Notices are a function of what a stage
is given: nothing is told that could not be computed again, and no stage depends on being listened to.
The commands let their host know of the warnings; a log shows no more than those unless it is asked to.
-/

namespace CMinusMinus

/-- Something that a stage tells. -/
inductive Notice where
  | unknownSelector (selector : String)
  | compiled (functions instructions labels : Nat)
  | folded (operations : Nat)
  | removed (instructions : Nat)
  | passed (pass : Pass) (before after : Nat)
  | collected (freed live : Nat)
  | ended (stats : HeapStats)
deriving DecidableEq, Repr

namespace Notice

/-- How important a notice is. -/
def level : Notice → String
  | unknownSelector _ => "WARN"
  | collected _ _ => "TRACE"
  | _ => "DEBUG"

def text : Notice → String
  | unknownSelector selector => s!"ignoring unknown optimization '{selector}'"
  | compiled functions instructions labels =>
    s!"compiled {functions} function(s) to {instructions} instructions, {labels} labels"
  | folded operations => s!"{Pass.folding.name}: folded {operations} operation(s)"
  | removed instructions => s!"{Pass.pruning.name}: removed {instructions} instruction(s)"
  | passed pass before after => s!"{pass.name}: {before} -> {after} instructions"
  | collected freed live => s!"gc: freed {freed}, {live} live"
  | ended stats => stats.text

/-- The line of the log for a warning, with the time of day if that is known. Where the text goes on in another
line, it is indented. -/
def logLine (time? : Option String) (notice : Notice) : String :=
  if notice.level = "WARN" then
    let stamp := (time?.map (· ++ " ")).getD ""
    let indented := notice.text.toList.flatMap fun c => if c = '\n' then "\n    ".toList else [c]
    s!"[{stamp}WARN  cmm::run] {String.ofList indented}\n"
  else ""

/-! ## What is told -/

/-- What is told of a selection of passes. -/
def ofSelection (selection : String) : List Notice :=
  (Pass.unknown selection).map unknownSelector

example : (ofSelection "cx").map (logLine none) = ["[WARN  cmm::run] ignoring unknown optimization 'x'\n"] := by
  decide

/-- What is told when a source text is compiled. -/
def ofSource (source : String) : List Notice :=
  match Tree.ofSource source with
  | .error _ => []
  | .ok tree =>
    match tree.compile with
    | .error _ => []
    | .ok p => [compiled tree.functions.length p.size p.labels.size]

/-- What a pass tells of turning one program into another. -/
def ofPass (pass : Pass) (before after : Program) : List Notice :=
  let effect := match pass with
    | .folding => folded (Folding.run before).folded
    | .pruning => removed (before.size - after.size)
  [effect, passed pass before.size after.size]

/-- What is told when passes are applied, up to one that fails. -/
def ofPasses : List Pass → Program → List Notice
  | [], _ => []
  | pass :: rest, p =>
    match pass.apply p with
    | .ok after => ofPass pass p after ++ ofPasses rest after
    | .error _ => []

/-- What is told of an event of a run. -/
def ofEvent? : Event → Option Notice
  | .collection freed live => some (collected freed live)
  | _ => none

def observe (told : Array Notice) (event : Event) : Array Notice :=
  match ofEvent? event with
  | some notice => told.push notice
  | none => told

/-- What is told of what a run leaves behind. -/
def ofOutcome (outcome : Outcome) : Notice :=
  ended outcome.stats

end Notice

end CMinusMinus
