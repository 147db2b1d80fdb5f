import QueryLint.Yaml.Node

/-!
What stands before the content of a node: white space, line breaks and properties.
-/

namespace QueryLint.Yaml
open Reader
set_option autoImplicit false

def indentation (floor : Nat) (c : Cursor) : Ordering := compare (c.indent + 1) floor

/-- What stands before the content of a node: whether the content is on a later line than the node was
looked for, its indentation, the properties, where the first of them stands, and whether the last of
them is on the same line as the content. -/
structure Lead where
  onNewLine : Bool := false
  indented : Ordering := .gt
  properties : Properties := {}
  first : Option Progress := none
  besideProperty : Bool := false

namespace Lead

def after (floor breaks : Nat) (c : Cursor) (lead : Lead) : Lead :=
  if breaks = 0 then lead else { lead with onNewLine := true, indented := indentation floor c }

/-- One more property, if one comes next. A second tag or anchor belongs to another node, which has to
be on another line. -/
def property (lead : Lead) : Reader (Option Properties) := do
  let p ← get
  let old := lead.properties
  if p.cursor.isAt '!' then
    if old.tag.isNone then return some { old with tag := some (← scan (tag? p.handles)) }
    else if lead.onNewLine then return none else failure
  else if p.cursor.isAt '&' then
    if old.anchor.isNone then return some { old with anchor := some (← scan anchorName?) }
    else if lead.onNewLine then return none else failure
  else return none

def takeProperties (floor : Nat) : Nat → Lead → Reader Lead
  | 0, lead => pure lead
  | fuel + 1, lead => do
    let start ← get
    match ← property lead with
    | none => return lead
    | some properties =>
      let breaks ← skipSpace
      let lead := { lead with
        properties
        first := some (lead.first.getD start)
        besideProperty := breaks = 0 }
      takeProperties floor fuel (lead.after floor breaks (← cursor))

def read (place : Place) : Reader Lead := do
  let breaks ← if place.seek then skipSpace else pure 0
  let lead := Lead.after place.floor breaks (← cursor) {}
  if lead.indented = .gt then takeProperties place.floor 3 lead else return lead

end Lead

end QueryLint.Yaml
