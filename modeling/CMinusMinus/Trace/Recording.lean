import CMinusMinus.Trace.Event

/-!
# Recordings

A recording holds the events of a run in order, up to a number of them if it is limited.
-/

namespace CMinusMinus

/-- The first events of a run. -/
structure Recording where
  events : Array Event
  /-- How many events are held at most. -/
  limit : Option Nat

namespace Recording

def start (limit : Option Nat) : Recording :=
  ⟨#[], limit⟩

/-- Whether no more events are held. -/
def isFull (r : Recording) : Bool :=
  match r.limit with
  | some limit => r.events.size ≥ limit
  | none => false

def observe (r : Recording) (event : Event) : Recording :=
  if r.isFull then r else { r with events := r.events.push event }

end Recording

end CMinusMinus
