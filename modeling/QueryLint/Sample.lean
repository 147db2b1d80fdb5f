import QueryLint.Duration
import QueryLint.Field

/-!
Sample rows: made-up records that hold every field a query refers to.

Strings are numbered; numbers grow by a step that the name of the field suggests. When a query
groups by time, every row also has a time, and the times are one bucket apart.
-/

namespace QueryLint
set_option autoImplicit false

inductive Sample where
  | number (value : Number)
  | text (value : Text)
deriving DecidableEq

abbrev SampleRow := Record Sample

/-- Where a series of numbers starts and by how much it grows. -/
structure Series where
  base : Nat
  step : Nat
deriving DecidableEq, Repr

/-- The series for a field name, by the words that its name has in it. -/
def Series.ofName (name : Text) : Series :=
  let lower := Text.lower name
  if lower = "oid" || lower = "id" then ⟨1000, 1⟩
  else if Text.contains lower "cpu" then ⟨50, 10⟩
  else if Text.contains lower "mem" then ⟨60, 5⟩
  else if Text.contains lower "count" then ⟨100, 10⟩
  else if Text.contains lower "pct" || Text.contains lower "percent" then ⟨70, 1⟩
  else if Text.contains lower "execute" then ⟨50, 5⟩
  else ⟨10, 10⟩

namespace Sample

def ofField (name : Text) (type : FieldType) (i : Nat) : Sample :=
  match type with
  | .string => text ("sample-" ++ Text.ofNat (i + 1))
  | .number =>
    let series := Series.ofName name
    number (Number.ofNat series.base + Number.ofNat i * Number.ofNat series.step)

def toJson : Sample → Json
  | number value => .number value
  | text value => .text value

def quoted (t : Text) : Text :=
  "'" ++ Text.replaceUnit '\'' "\\'" (Text.replaceUnit '\\' "\\\\" t) ++ "'"

def toText : Sample → Text
  | number value => value.toText
  | text value => quoted value

end Sample

namespace SampleRow

def payload (row : SampleRow) : Text :=
  "\x7b" ++ Text.join "," ((Record.arranged row).map fun (key, value) =>
    Sample.quoted key ++ ":" ++ value.toText) ++ "\x7d"

end SampleRow

/-- Sample rows with the fields and types they were made from. -/
structure Samples where
  fields : List Field
  types : Record FieldType
  rows : List SampleRow

namespace Samples

def defaultCount : Number := 3

def firstTime : Number := 1700000000000

def defaultStep : Number := 60000

/-- The time between rows: the bucket of the first command that groups by time. -/
def timeStep? (d : Document) : Option Number :=
  ((d.commands.filter (·.hasRole .group)).findSome? Command.timeBucket?).map fun bucket =>
    (Duration.ofValue? bucket).getD defaultStep

def row (fields : List Field) (types : Record FieldType) (timeField : Text) (step : Option Number)
    (i : Nat) : SampleRow :=
  let start : SampleRow := match step with
    | none => []
    | some step => Record.assign timeField (.number (firstTime + Number.ofNat i * step)) []
  let others := fields.filter fun f => !(step.isSome && f.name = timeField)
  Record.arranged (others.foldl (fun r f =>
    Record.assign f.name (.ofField f.name ((Record.get? types f.name).getD .string) i) r) start)

/-- Sample rows for a document; `count` may be any number and is rounded up. -/
def ofDocument (d : Document) (count : Option Number) : Samples :=
  let fields := Field.ofDocument d
  let types := Field.types d
  let step := timeStep? d
  let timeField := d.dialect.timeField
  let rows := ((count.getD defaultCount).countBelow?.getD 0)
  { fields
    types := if step.isSome then Record.set timeField .number types else types
    rows := (List.range rows).map (row fields types timeField step) }

end Samples
end QueryLint
