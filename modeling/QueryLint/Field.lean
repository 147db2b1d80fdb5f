import QueryLint.Document

/-!
Fields: the names that a query refers to, where each is met first, and a guess at its type. A field
is a number when some filter compares it with a numeric literal or some aggregate applies a numeric
function to it, anywhere in the query; otherwise it is a string.
-/

namespace QueryLint
set_option autoImplicit false

inductive FieldUse where
  | select
  | filter
  | group
  | update
  | order
deriving DecidableEq, Repr

def FieldUse.name : FieldUse → Text
  | select => "select"
  | filter => "filter"
  | group => "group"
  | update => "update"
  | order => "order"

def FieldUse.ofRole? : Role → Option FieldUse
  | .projection => some select
  | .filter => some filter
  | .group => some group
  | .aggregate => some update
  | .order => some order
  | _ => none

inductive FieldType where
  | number
  | string
deriving DecidableEq, Repr

def FieldType.name : FieldType → Text
  | number => "number"
  | string => "string"

structure Field where
  name : Text
  use : FieldUse
  commandIndex : Nat
  line : Nat
  scope : Option Text
deriving DecidableEq, Repr

namespace Field

/-- Wildcards, parameters and the empty text are no field names. -/
def isName (t : Text) : Bool := !t.isEmpty && t ≠ "*" && !Value.namesParameter t

def ofCommand (c : Command) (use : FieldUse) (name : Text) : Field :=
  ⟨name, use, c.index, c.line, c.scope⟩

def references (c : Command) : List Field :=
  match c.role?.bind FieldUse.ofRole? with
  | none => []
  | some use => (c.referencedFields.filter isName).map (ofCommand c use)

/-- Keeps the first reference to every name; `seen` holds the names met before. -/
def distinct (seen : List Text) : List Field → List Field
  | [] => []
  | f :: fs => if seen.contains f.name then distinct seen fs else f :: distinct (f.name :: seen) fs

def ofDocument (d : Document) : List Field := distinct [] (d.commands.flatMap references)

def numericFunctions : List Text :=
  ["sum", "avg", "min", "max", "median", "stddev", "variance", "rate", "p50", "p90", "p95",
    "p99"].map Text.ofString

/-- Whether a command shows that the fields it refers to are numbers. -/
def impliesNumber (c : Command) : Bool :=
  match c.role? with
  | some .filter =>
    match c.comparison? with
    | none => false
    | some literal => !literal.isParameter && literal.number?.isSome
  | some .aggregate =>
    match c.aggregateFunction? with
    | none => false
    | some function => numericFunctions.contains function
  | _ => false

/-- The names that some command shows to be numbers. -/
def numericNames (d : Document) : List Text :=
  (d.commands.filter impliesNumber).flatMap Command.referencedFields

def types (d : Document) : Record FieldType :=
  let numeric := numericNames d
  (ofDocument d).map fun f => (f.name, if numeric.contains f.name then .number else .string)

end Field

structure FieldRow where
  field : Field
  type : FieldType
deriving DecidableEq, Repr

namespace FieldRow

def ofFields (fields : List Field) (types : Record FieldType) : List FieldRow :=
  fields.map fun f => ⟨f, (Record.get? types f.name).getD .string⟩

def lineText (width : Nat) (r : FieldRow) : Text :=
  Text.padEnd width r.field.name ++ "  " ++ Text.padEnd 6 r.type.name ++ "  " ++
    Text.padEnd 6 r.field.use.name ++ "  line " ++ Text.ofNat r.field.line ++
    match r.field.scope with
    | none => []
    | some [] => []
    | some scope => " (" ++ scope ++ ")"

def table (rows : List FieldRow) : Text :=
  if rows.isEmpty then "No field references.\n"
  else
    let width := (rows.map fun r => r.field.name.length).foldl max 0
    Text.join "\n" (rows.map (lineText width)) ++ "\n"

def toJson (r : FieldRow) : Json :=
  .object [("name", .text r.field.name), ("type", .text r.type.name), ("role", .text r.field.use.name),
    ("line", .ofNat r.field.line), ("scope", .ofOption .text r.field.scope)]

end FieldRow
end QueryLint
