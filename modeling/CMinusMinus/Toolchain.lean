import CMinusMinus.Code.Assembly
import CMinusMinus.Code.Generation
import CMinusMinus.Code.Snapshot
import CMinusMinus.Machine.Run
import CMinusMinus.Optimizer.Pass
import CMinusMinus.Source.Outline
import CMinusMinus.Source.Parser

/-!
# From source text to a run

The stages of the toolchain in a row: source text is parsed and compiled, a program is written as text
and read back, optimized, and run. Whatever stops a stage is a failure of the whole.
-/

namespace CMinusMinus

/-! ## Failures -/

/-- Why there is no result. -/
inductive Failure where
  | parse (error : ParseError)
  | compile (error : CompileError)
  | load (error : LoadError)
  | optimize (error : OptimizeError)
  | run (fault : Fault)
  | snapshot (error : Snapshot.Error)
deriving DecidableEq, Repr

namespace Failure

def name : Failure → String
  | parse _ => "ParseError"
  | compile _ => "CompileError"
  | load _ => "LoadError"
  | optimize _ => "OptimizeError"
  | run fault => fault.cause.kind.name
  | snapshot _ => "SerializationError"

def message : Failure → String
  | parse error => error.message
  | compile error => error.message
  | load error => error.message
  | optimize error => error.message
  | run fault => fault.message
  | snapshot error => s!"serialization error: {error.message}"

end Failure

/-! ## Stages -/

/-- The syntax tree of a source text. -/
def Tree.ofSource (source : String) : Except Failure Tree :=
  (parse source).mapError .parse

namespace Program

def ofSource (source : String) : Except Failure Program := do
  let tree ← Tree.ofSource source
  tree.compile.mapError .compile

def ofText (text : String) : Except Failure Program :=
  (load text).mapError .load

def ofSnapshot (bytes : List UInt8) : Except Failure Program :=
  (restore bytes).mapError .snapshot

def optimize (p : Program) (passes : List Pass) : Except Failure Program :=
  (Pass.applyAll passes p).mapError .optimize

/-- Reads the text of a program and applies passes. -/
def build (passes : List Pass) (text : String) : Except Failure Program := do
  (← ofText text).optimize passes

/-- Compiles a source text, reads the text of the program, and applies passes. -/
def buildSource (passes : List Pass) (source : String) : Except Failure Program := do
  build passes (← ofSource source).text

end Program

/-- The syntax tree of a source text as indented JSON. -/
def outline (source : String) : Except Failure String := do
  return (← Tree.ofSource source).outline.pretty

end CMinusMinus
