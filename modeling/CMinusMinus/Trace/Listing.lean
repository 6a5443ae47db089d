import CMinusMinus.Text.Column
import CMinusMinus.Trace.Event

/-!
# Execution listings

A listing has a line for each event of a run. A limited one ends with a notice after its last
instruction and has no lines after it. The notice follows an instruction, so a listing limited to no
instructions still shows the first.
-/

namespace CMinusMinus

/-- A listing part of the way through a run. -/
structure Listing where
  text : String
  /-- After how many instructions the listing ends. -/
  limit : Option Nat
  /-- How many instructions were listed. -/
  count : Nat
  stopped : Bool

namespace Listing

def start (limit : Option Nat) : Listing :=
  ⟨"", limit, 0, false⟩

def line : Event → String
  | .instruction position opcode stack frames =>
    s!"[{Text.alignRight 5 position.repr}] {opcode.title}  stack={stack}  frames={frames}\n"
  | .call label depth => s!"  >>> CALL {Text.alignLeft 20 label} depth={depth}\n"
  | .ret depth => s!"  <<< RETURN              depth={depth}\n"
  | .collection freed live => s!"  ### GC freed={freed} live={live}\n"

/-- The line that ends a limited listing. -/
def notice (limit : Nat) : String :=
  s!"--- trace limit reached ({limit} instructions) ---\n"

/-- The listing after one more line for an instruction. -/
def addInstruction (l : Listing) (line : String) : Listing :=
  let l := { l with text := l.text ++ line, count := l.count + 1 }
  match l.limit with
  | some limit =>
    if l.count ≥ limit then { l with text := l.text ++ notice limit, stopped := true } else l
  | none => l

def observe (l : Listing) (event : Event) : Listing :=
  if l.stopped then l
  else
    match event with
    | .instruction _ _ _ _ => l.addInstruction (line event)
    | _ => { l with text := l.text ++ line event }

end Listing

end CMinusMinus
