import QueryLint.Instant
import QueryLint.Number.Decimal
import QueryLint.Record

/-!
Plain data: the values of JSON, with the members of an object in their listed order, and points in
time, which some readers of plain data know besides.
-/

namespace QueryLint
set_option autoImplicit false

inductive Json where
  | null
  | bool (value : Bool)
  | number (value : Number)
  | text (value : Text)
  | instant (value : Instant)
  | array (items : List Json)
  | object (members : List (Text × Json))

namespace Json

def record (members : List (Text × Json)) : Json := object (Record.arranged (Record.ofPairs members))

def ofNat (n : Nat) : Json := number (Number.ofNat n)

def ofInt (n : Int) : Json := number (Number.ofInt n)

def ofOption {α : Type} (f : α → Json) : Option α → Json
  | none => null
  | some a => f a

def texts (ts : List Text) : Json := array (ts.map text)

def optional {α : Type} (key : Text) (f : α → Json) : Option α → List (Text × Json)
  | none => []
  | some a => [(key, f a)]

def members? : Json → Option (List (Text × Json))
  | object members => some members
  | array items => some (items.zipIdx.map fun (item, i) => (Text.ofNat i, item))
  | _ => none

def get? (key : Text) : Json → Option Json
  | object members => Record.get? members key
  | _ => none

end Json
end QueryLint
