/-!
# Binary operators

The thirteen binary operators of the language and their meaning on exact integers. Comparisons and
logical operators give one for true and zero for false. Division truncates toward zero, so a
remainder has the sign of the dividend. Division and remainder by zero are the only failures.
-/

namespace CMinusMinus

/-- A binary operator on integers. -/
inductive BinaryOp where
  | add | sub | mul | div | mod | lt | gt | ge | le | ne | eq | and | or
deriving DecidableEq, Repr

namespace BinaryOp

def all : List BinaryOp :=
  [add, sub, mul, div, mod, lt, gt, ge, le, ne, eq, and, or]

def symbol : BinaryOp → String
  | add => "+"
  | sub => "-"
  | mul => "*"
  | div => "/"
  | mod => "%"
  | lt => "<"
  | gt => ">"
  | ge => ">="
  | le => "<="
  | ne => "!="
  | eq => "=="
  | and => "&&"
  | or => "||"

/-- The name under which the operator appears in a printed syntax tree. -/
def name : BinaryOp → String
  | add => "Add"
  | sub => "Sub"
  | mul => "Mul"
  | div => "Div"
  | mod => "Mod"
  | lt => "Lt"
  | gt => "Gt"
  | ge => "Ge"
  | le => "Le"
  | ne => "Ne"
  | eq => "Eq"
  | and => "And"
  | or => "Or"

/-- Whether the operator orders its operands or tests them for equality. -/
def isComparison : BinaryOp → Bool
  | lt | gt | ge | le | ne | eq => true
  | add | sub | mul | div | mod | and | or => false

end BinaryOp

/-! ## Meaning -/

/-- Why an operator has no result. -/
inductive ArithmeticError where
  | divisionByZero
  | moduloByZero
deriving DecidableEq, Repr

def ArithmeticError.message : ArithmeticError → String
  | divisionByZero => "integer division by zero"
  | moduloByZero => "integer modulo by zero"

/-- One for true, zero for false. -/
def truth (b : Bool) : Int :=
  if b then 1 else 0

def BinaryOp.apply (op : BinaryOp) (a b : Int) : Except ArithmeticError Int :=
  match op with
  | add => .ok (a + b)
  | sub => .ok (a - b)
  | mul => .ok (a * b)
  | div => if b = 0 then .error .divisionByZero else .ok (a.tdiv b)
  | mod => if b = 0 then .error .moduloByZero else .ok (a.tmod b)
  | lt => .ok (truth (a < b))
  | gt => .ok (truth (a > b))
  | ge => .ok (truth (a ≥ b))
  | le => .ok (truth (a ≤ b))
  | ne => .ok (truth (a ≠ b))
  | eq => .ok (truth (a = b))
  | and => .ok (truth (a ≠ 0 && b ≠ 0))
  | or => .ok (truth (a ≠ 0 || b ≠ 0))

end CMinusMinus
