import QueryLint.Json
import QueryLint.Yaml.Property

/-!
The nodes of a YAML document and the readers that find them.

A reader moves through the text and remembers what anchors stand for. A node is read relative to the
indentation of its parent, which is part of the place where it is expected.
-/

namespace QueryLint.Yaml
set_option autoImplicit false

/-- How far a document has been read: where, and what its anchors stand for. -/
structure Progress where
  cursor : Cursor
  anchors : Record Json := []
  handles : Handles := []

abbrev Reader (α : Type) := StateT Progress Option α

/-- Where a node stands: as the value of a mapping, as the item of a sequence, as a key, or inside a flow
collection. -/
inductive Context where
  | value
  | item
  | key
  | flow
deriving DecidableEq

def Context.isBlock (context : Context) : Bool := context = .value || context = .item

/-- What is expected of a node. On a later line it has to be indented by `floor` at least. With `seek` it
may start on a later line; with `compact` a block collection may start on this line. -/
structure Place where
  floor : Nat
  context : Context
  seek : Bool
  compact : Bool

/-- A node that has been read: whether there was anything, whether it is the merge key, and its kind and
value. -/
structure Node where
  found : Bool
  isMerge : Bool
  kind : Option Kind
  value : Json

abbrev NodeReader := Place → Reader Node

namespace Reader

def cursor : Reader Cursor := do return (← get).cursor

def moveTo (c : Cursor) : Reader Unit := modify fun p => { p with cursor := c }

def advance : Reader Unit := do moveTo (← cursor).advance

/-- Passes white space and comments, and counts the line breaks passed. -/
def skipSpace : Reader Nat := do
  let (breaks, c) := (← cursor).skipSpace
  moveTo c
  return breaks

def scan {α : Type} (f : Cursor → Option (α × Cursor)) : Reader α := do
  match f (← cursor) with
  | none => failure
  | some (a, c) =>
    moveTo c
    return a

def ofOption {α : Type} : Option α → Reader α
  | none => failure
  | some a => pure a

/-- How often a loop can pass at least one unit. -/
def fuel : Reader Nat := do return (← cursor).rest.length + 1

def anchor (name : Option Text) (value : Json) : Reader Unit :=
  match name with
  | none => pure ()
  | some name => modify fun p => { p with anchors := Record.set name value p.anchors }

end Reader

end QueryLint.Yaml
