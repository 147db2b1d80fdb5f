import QueryLint.Text

/-!
The edit distance of two texts: how many units have to be inserted, deleted or replaced to turn one
into the other. It is computed row by row; a row holds the distances of one leading part of the
first text to all leading parts of the second.
-/

namespace QueryLint.Text
set_option autoImplicit false

/-- The cells of a row behind the cell `left`; `diagonal` and the given row lie above. -/
def distanceCells (c : CodeUnit) (left diagonal : Nat) : Text → List Nat → List Nat
  | d :: t, above :: row =>
    let cell := min (min (above + 1) (left + 1)) (diagonal + if c = d then 0 else 1)
    cell :: distanceCells c cell above t row
  | _, _ => []

def distanceRow (t : Text) (row : List Nat) (c : CodeUnit) : List Nat :=
  match row with
  | [] => []
  | diagonal :: above => (diagonal + 1) :: distanceCells c (diagonal + 1) diagonal t above

def distance (s t : Text) : Nat :=
  (s.foldl (distanceRow t) (List.range (t.length + 1))).getLastD 0

end QueryLint.Text
