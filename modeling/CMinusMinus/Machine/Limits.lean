/-!
# Limits of a run

A run may be limited in the number of its allocations, the depth of its calls and the length of its
arrays, and it collects garbage at an interval that counts instructions which move values on the
stack. A meter checks the limits before the thing that would break one is done. The plain meter has
the standard limits built in and counts nothing; the other has limits of its own and counts
allocations and freed slots.
-/

namespace CMinusMinus

/-! ## Limits -/

/-- The depth of calls that is allowed unless something else is said. -/
def standardDepth : Nat := 1000

/-- The length of an array that is allowed unless something else is said. -/
def standardArrayLength : Nat := 0x1000000

/-- The number of counted instructions between collections unless something else is said. -/
def standardInterval : Nat := 1024

/-- What a run is limited to; what is missing has no limit, or the standard interval. -/
structure Limits where
  allocations : Option Nat
  interval : Option Nat
  depth : Option Nat
  arrayLength : Option Nat
deriving DecidableEq, Repr

/-- The standard limits: depth and array length are bounded, allocations are not. -/
def Limits.standard : Limits :=
  ⟨none, none, some standardDepth, some standardArrayLength⟩

/-- Which limit a run would exceed. -/
inductive LimitError where
  | allocation (limit count : Nat)
  | depth (limit depth : Nat)
  | arrayLength (limit length : Nat)
deriving DecidableEq, Repr

def LimitError.message : LimitError → String
  | allocation limit count => s!"allocation limit exceeded: {count} > {limit}"
  | depth limit _ => s!"maximum recursion depth exceeded ({limit})"
  | arrayLength limit length => s!"array of {length} elements exceeds the limit of {limit}"

/-! ## Meters -/

/-- Checks the limits of a run, and may count what it allocates and frees. -/
inductive Meter where
  | plain
  | counting (limits : Limits) (allocated freed : Nat)
deriving DecidableEq, Repr

namespace Meter

/-- A meter that has counted nothing yet. -/
def ofLimits (limits : Limits) : Meter :=
  counting limits 0 0

/-- Counts an allocation that is about to be made. -/
def allocate : Meter → Except LimitError Meter
  | plain => .ok plain
  | counting limits allocated freed =>
    match limits.allocations with
    | some limit =>
      if allocated ≥ limit then .error (.allocation limit (allocated + 1))
      else .ok (counting limits (allocated + 1) freed)
    | none => .ok (counting limits (allocated + 1) freed)

def free (count : Nat) : Meter → Meter
  | plain => plain
  | counting limits allocated freed => counting limits allocated (freed + count)

/-- Checks that one more frame may be entered where there are `current` frames. -/
def checkDepth (current : Nat) : Meter → Except LimitError Unit
  | plain =>
    if current ≥ standardDepth then .error (.depth standardDepth (current + 1)) else .ok ()
  | counting limits _ _ =>
    match limits.depth with
    | some limit => if current ≥ limit then .error (.depth limit (current + 1)) else .ok ()
    | none => .ok ()

/-- Checks that an array may have `length` elements. -/
def checkArrayLength (length : Nat) : Meter → Except LimitError Unit
  | plain =>
    if length > standardArrayLength then .error (.arrayLength standardArrayLength length)
    else .ok ()
  | counting limits _ _ =>
    match limits.arrayLength with
    | some limit => if length > limit then .error (.arrayLength limit length) else .ok ()
    | none => .ok ()

/-- The number of counted instructions between collections, which is never zero. -/
def interval : Meter → Nat
  | plain => standardInterval
  | counting limits _ _ => max (limits.interval.getD standardInterval) 1

/-- How many allocations and how many freed slots were counted, if any are. -/
def counts? : Meter → Option (Nat × Nat)
  | plain => none
  | counting _ allocated freed => some (allocated, freed)

end Meter

end CMinusMinus
