import QueryLint.Text

/-!
Records: finite maps from keys to values that remember an order.

Setting a key keeps its place when it is present and adds it at the end otherwise. Where a record is
listed, the keys that are array indices come first in ascending order and the others follow as
they were set; `arranged` is that listing.
-/

namespace QueryLint
set_option autoImplicit false

abbrev Record (α : Type) := List (Text × α)

namespace Record
variable {α : Type}

def get? (r : Record α) (key : Text) : Option α := List.lookup key r

def has (r : Record α) (key : Text) : Bool := (get? r key).isSome

def keys (r : Record α) : List Text := r.map (·.1)

def values (r : Record α) : List α := r.map (·.2)

def set (key : Text) (value : α) : Record α → Record α
  | [] => [(key, value)]
  | (k, v) :: rest => if k = key then (k, value) :: rest else (k, v) :: set key value rest

def ofPairs (pairs : List (Text × α)) : Record α :=
  pairs.foldl (fun r pair => set pair.1 pair.2 r) []

/-- The index that a key writes: decimal digits without a needless zero, below `2 ^ 32 - 1`. -/
def index? (key : Text) : Option Nat :=
  if key.isEmpty || !key.all CodeUnit.isDigit then none
  else
    let n := Text.digitsValue key
    if Text.ofNat n = key && n < 4294967295 then some n else none

def isIndex (key : Text) : Bool := (index? key).isSome

/-- The listing of a record: indices in ascending order, then the other keys as they were set. -/
def arranged (r : Record α) : Record α :=
  (r.filter fun pair => isIndex pair.1).mergeSort
      (fun a b => (index? a.1).getD 0 ≤ (index? b.1).getD 0) ++
    r.filter fun pair => !isIndex pair.1

/-- The key that records built field by field never take. -/
def reservedKey : Text := "__proto__"

def assign (key : Text) (value : α) (r : Record α) : Record α :=
  if key = reservedKey then r else set key value r

end Record
end QueryLint
