import QueryLint.Payload.Value
import QueryLint.Text.Case

/-!
Dialects: which command keywords there are and what each of them means.

Rules never look at keywords. They look at the role of a command and at the keys of its payload that
its specification names, so one set of rules serves every dialect.
-/

namespace QueryLint
set_option autoImplicit false

/-- The part that a command plays in a query. -/
inductive Role where
  | source
  | loader
  | literalRow
  | projection
  | filter
  | group
  | aggregate
  | order
  | bound
  | blockOpen
  | blockClose
  | subqueryRef
  | timeRange
  | transform
deriving DecidableEq, Repr

namespace Role

def all : List Role :=
  [source, loader, literalRow, projection, filter, group, aggregate, order, bound, blockOpen,
    blockClose, subqueryRef, timeRange, transform]

def name : Role → Text
  | source => "source"
  | loader => "loader"
  | literalRow => "literal-row"
  | projection => "projection"
  | filter => "filter"
  | group => "group"
  | aggregate => "aggregate"
  | order => "order"
  | bound => "bound"
  | blockOpen => "block-open"
  | blockClose => "block-close"
  | subqueryRef => "subquery-ref"
  | timeRange => "time-range"
  | transform => "transform"

def ofName? (t : Text) : Option Role := all.find? fun role => role.name = t

end Role

inductive Need where
  | required
  | optional
  | none
deriving DecidableEq, Repr

def Need.name : Need → Text
  | required => "required"
  | optional => "optional"
  | none => "none"

def Shape.name : Shape → Text
  | object => "object"
  | array => "array"
  | scalar => "scalar"

structure ForbiddenKey where
  key : Text
  message : Text
  suggestion : Option Text
deriving DecidableEq, Repr

/-- The contract of a command. The lists name payload keys: those whose values are fields, the
aggregate function, a time bucket, a block or category, a subquery, fields that the command brings
in, and the literal that a filter compares with. A command without `fieldKeys` refers to no field;
with an empty list it may still name fields by a payload that is no object. -/
structure Spec where
  role : Role
  payload : Need
  accepts : List Shape
  fieldKeys : Option (List Text) := none
  functionKeys : List Text := []
  timeKeys : List Text := []
  nameKeys : List Text := []
  refKeys : List Text := []
  definesKeys : List Text := []
  compareKeys : List Text := []
  suppliesData : Bool := false
  forbiddenKeys : List ForbiddenKey := []
deriving DecidableEq, Repr

/-- How the commands of a fixture are written; `%s` stands for the block name or the row. -/
structure Templates where
  openBlock : Text
  row : Text
  closeBlock : Text
  reference : Text
deriving DecidableEq, Repr

/-- A dialect. Keywords are listed in upper case and in the order of the table; the implicit fields
belong to every record. -/
structure Dialect where
  name : Text
  commands : List (Text × Spec)
  implicitFields : List Text
  timeField : Text
  templates : Templates
deriving DecidableEq, Repr

namespace Dialect

def spec? (d : Dialect) (keyword : Text) : Option Spec := Record.get? d.commands (Text.upper keyword)

def isKeyword (d : Dialect) (word : Text) : Bool := (d.spec? word).isSome

def keywords (d : Dialect) : List Text := d.commands.map (·.1)

/-- The keywords whose commands feed rows into their scope. -/
def dataKeywords (d : Dialect) : List Text :=
  (d.commands.filter fun command => command.2.suppliesData).map (·.1)

def openBlock (d : Dialect) (name : Text) : Text := Text.fillIn name d.templates.openBlock

def row (d : Dialect) (payload : Text) : Text := Text.fillIn payload d.templates.row

def closeBlock (d : Dialect) : Text := d.templates.closeBlock

def reference (d : Dialect) (name : Text) : Text := Text.fillIn name d.templates.reference

end Dialect
end QueryLint
