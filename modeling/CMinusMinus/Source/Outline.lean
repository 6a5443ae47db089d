import CMinusMinus.Source.Tree
import CMinusMinus.Text.Json

/-!
# Syntax trees as JSON

Every node that has a choice of forms is a record with one member, named for its form. Literals are
strings, so that no reader rounds them.
-/

namespace CMinusMinus

open Text (Json)

/-- A record with one member, named for the form of a node. -/
def Text.Json.form (name : String) (content : Json) : Json :=
  .record [(name, content)]

def Loc.outline (loc : Loc) : Json :=
  .record [("line", .number loc.line), ("column", .number loc.column)]

/-! ## Expressions -/

mutual

def Expr.outline : Expr → Json
  | .int value => .form "Int" (.string (Text.numeral value))
  | .place name indices loc => .form "Place" <| .record
    [("name", .string name), ("indices", .list (Expr.outlines indices)), ("loc", loc.outline)]
  | .call name args loc => .form "Call" <| .record
    [("name", .string name), ("args", .list (Expr.outlines args)), ("loc", loc.outline)]
  | .neg operand => .form "Neg" operand.outline
  | .binary op lhs rhs => .form "Binary" <| .record
    [("op", .string op.name), ("lhs", lhs.outline), ("rhs", rhs.outline)]

/-- Expressions as JSON, one by one. -/
def Expr.outlines : List Expr → List Json
  | [] => []
  | e :: rest => e.outline :: Expr.outlines rest

end

def Place.outline (place : Place) : Json :=
  .record [("name", .string place.name), ("indices", .list (Expr.outlines place.indices)),
    ("loc", place.loc.outline)]

def Call.outline (call : Call) : Json :=
  .record [("name", .string call.name), ("args", .list (Expr.outlines call.args)),
    ("loc", call.loc.outline)]

def Assign.outline (assign : Assign) : Json :=
  .record [("target", assign.target.outline), ("value", assign.value.outline)]

/-! ## Statements -/

def blockOutline (statements : List Json) : Json :=
  .form "statements" (.list statements)

mutual

def Stmt.outline : Stmt → Json
  | .print value => .form "Print" value.outline
  | .ret value => .form "Return" value.outline
  | .assign a => .form "Assign" a.outline
  | .array name size => .form "ArrayInit" <| .record
    [("name", .string name), ("size", size.outline)]
  | .call c => .form "Call" c.outline
  | .whileLoop condition body => .form "While" <| .record
    [("condition", condition.outline), ("body", blockOutline (Stmt.outlines body))]
  | .forLoop init condition step body => .form "For" <| .record
    [("init", init.outline), ("condition", condition.outline), ("step", step.outline),
      ("body", blockOutline (Stmt.outlines body))]
  | .branch condition yes no => .form "If" <| .record
    [("condition", condition.outline), ("then_block", blockOutline (Stmt.outlines yes)),
      ("else_block", Stmt.optionOutline no)]
  | .block body => .form "Block" (blockOutline (Stmt.outlines body))

def Stmt.optionOutline : Option (List Stmt) → Json
  | none => .null
  | some body => blockOutline (Stmt.outlines body)

/-- Statements as JSON, one by one. -/
def Stmt.outlines : List Stmt → List Json
  | [] => []
  | stmt :: rest => stmt.outline :: Stmt.outlines rest

end

/-! ## Programs -/

def Function.outline (f : Function) : Json :=
  .record [("name", .string f.name), ("params", .list (f.params.map .string)),
    ("body", blockOutline (Stmt.outlines f.body)), ("loc", f.loc.outline)]

def Tree.outline (tree : Tree) : Json :=
  .record [("functions", .list (tree.functions.map Function.outline))]

end CMinusMinus
