/-!
# Columns

Text that is shorter than its column is filled up with blanks, before it or after it; longer text
sticks out. Widths count code points.
-/

namespace CMinusMinus.Text

/-- Text at the right end of a column. -/
def alignRight (width : Nat) (text : String) : String :=
  "".pushn ' ' (width - text.length) ++ text

/-- Text at the left end of a column. -/
def alignLeft (width : Nat) (text : String) : String :=
  text.pushn ' ' (width - text.length)

end CMinusMinus.Text
