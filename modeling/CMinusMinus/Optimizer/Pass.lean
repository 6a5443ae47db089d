import CMinusMinus.Optimizer.Folding
import CMinusMinus.Optimizer.Reachable
import CMinusMinus.Text.Blank

/-!
# Passes and their selection

A selection is text: selectors with commas between them. A selector is the long name of a pass, or a
run of letters of which each stands for a pass; case does not matter. A selector with a dash is a long
name or nothing. What names no pass is reported and left out.
-/

namespace CMinusMinus

/-- A rewriting of programs that keeps what they do. -/
inductive Pass where
  | folding
  | pruning
deriving DecidableEq, Repr

namespace Pass

def all : List Pass := [folding, pruning]

def name : Pass → String
  | folding => "const-folding"
  | pruning => "dead-code"

/-- The letter. -/
def letter : Pass → Char
  | folding => 'c'
  | pruning => 'd'

def apply : Pass → Program → Except OptimizeError Program
  | folding, p => .ok p.fold
  | pruning, p => p.prune

def applyAll : List Pass → Program → Except OptimizeError Program
  | [], p => .ok p
  | pass :: rest, p => do applyAll rest (← pass.apply p)

/-! ## Selection -/

/-- The text in lower case; only ASCII letters have a case here. -/
def lower (cs : List Char) : List Char :=
  cs.map Char.toLower

/-- The pass with a letter or long name. -/
def ofName? (cs : List Char) : Option Pass :=
  all.find? fun pass => lower cs == [pass.letter] || lower cs == pass.name.toList

/-- What one letter selects. -/
def ofLetter (c : Char) : Except String Pass :=
  match ofName? [c] with
  | some pass => .ok pass
  | none => .error (String.singleton c)

/-- What a selector selects; an error holds text that names no pass. -/
def ofSelector (cs : List Char) : List (Except String Pass) :=
  match ofName? cs with
  | some pass => [.ok pass]
  | none => if '-' ∈ cs then [.error (String.ofList cs)] else cs.map ofLetter

/-- What a selection selects, in order. -/
def selected (selection : String) : List (Except String Pass) :=
  (((selection.toList.splitOnP (· == ',')).map Text.trim).filter (!·.isEmpty)).flatMap ofSelector

/-- The passes of a selection. -/
def select (selection : String) : List Pass :=
  (selected selection).filterMap Except.toOption

/-- The parts of a selection that name no pass. -/
def unknown (selection : String) : List String :=
  (selected selection).filterMap fun
    | .ok _ => none
    | .error text => some text

end Pass

end CMinusMinus
