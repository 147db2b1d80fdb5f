import QueryLint.Yaml.Block
import QueryLint.Yaml.Content
import QueryLint.Yaml.Flow
import QueryLint.Yaml.Lead
import QueryLint.Yaml.Style

/-!
Reading the nodes of a YAML document: scalars, block and flow collections, and aliases.

Whatever holds nodes is read with the reader of the nodes inside as an argument, so that the depth of
nesting is all that the readers of nodes recurse on; nodes that are nested too deep cannot be read.
-/

namespace QueryLint.Yaml
open Reader
set_option autoImplicit false

/-- A block collection, or a node in its place. While it is read, its anchor stands for an empty
collection. -/
def blockContent (node : NodeReader) (properties : Properties) (column flowFloor : Nat) :
    Reader (Option Content) := do
  if (← cursor).tabbed then return none
  else
    anchor properties.anchor (.array [])
    match ← blockSequence node column with
    | some items => return some ⟨properties, true, some .sequence, .array items⟩
    | none =>
      anchor properties.anchor (.object [])
      match ← blockMapping node column flowFloor with
      | .mapping value => return some ⟨properties, true, some .mapping, value⟩
      | .other first => return some ⟨properties, true, first.kind, first.value⟩
      | .nothing => return none

/-- What an alias refers to. The space behind it is passed as well. -/
def aliased : Reader Json := do
  let name ← scan anchorName?
  let value ← ofOption (Record.get? (← get).anchors name)
  let _ ← skipSpace
  return value

/-- A block mapping whose first key has the properties that were taken for those of the node. -/
def mappingFromProperty (node : NodeReader) (lead : Lead) (flowFloor : Nat) : Reader (Option Content) := do
  match lead.first with
  | none => return none
  | some start =>
    match ← ofOption ((blockMapping node start.cursor.column flowFloor).run start) with
    | (.mapping value, behind) =>
      set behind
      return some ⟨{}, true, some .mapping, value⟩
    | _ => return none

/-- A scalar or an alias. A plain scalar without a tag has the tag that its text suggests. -/
def leafContent (context : Context) (properties : Properties) (flowFloor : Nat) : Reader Content := do
  let c ← cursor
  let scalar (text : Text) : Content := ⟨properties, true, some .scalar, .text text⟩
  if context.isBlock && (c.isAt '|' || c.isAt '>') then return scalar (← scan (blockScalar? flowFloor))
  else if c.isAt '\'' then return scalar (← scan singleQuoted?)
  else if c.isAt '"' then return scalar (← scan doubleQuoted?)
  else if c.isAt '*' then
    let value ← aliased
    if properties.any then failure else return ⟨properties, true, none, value⟩
  else
    match ← ofOption (plainScalar? flowFloor (context = .flow) c) with
    | none => return .nothing properties
    | some (text, behind) =>
      moveTo behind
      let tag := some (properties.tag.getD .implicit)
      return { scalar text with properties := { properties with tag } }

/-- The content of a node that is indented further than its parent. Properties on lines of their own go
to what a block collection could start with, and to nothing else. -/
def innerContent (node : NodeReader) (place : Place) (lead : Lead) : Reader Content := do
  let c ← cursor
  let properties := lead.properties
  let flowFloor := if place.context.isBlock then place.floor else place.floor - 1
  let collections := place.context.isBlock && !lead.besideProperty && (lead.onNewLine || place.compact)
  let block ← if collections then blockContent node properties c.column flowFloor else pure none
  match block with
  | some content => return content
  | none =>
    let properties := if collections && !c.tabbed && !c.rest.isEmpty then {} else properties
    if c.isAt '[' then
      anchor properties.anchor (.array [])
      return ⟨properties, true, some .sequence, ← flowSequence node flowFloor⟩
    else if c.isAt '\x7b' then
      anchor properties.anchor (.object [])
      return ⟨properties, true, some .mapping, ← flowMapping node flowFloor⟩
    else
      let keyed := place.context.isBlock && !collections && !c.isAt '|' && !c.isAt '>'
      match ← if keyed then mappingFromProperty node lead flowFloor else pure none with
      | some content => return content
      | none => leafContent place.context properties flowFloor

/-- The content of a node. The value of a mapping may be a sequence that is indented like its key. -/
def contentAt (node : NodeReader) (place : Place) (lead : Lead) : Reader Content := do
  match lead.indented with
  | .gt => innerContent node place lead
  | .eq =>
    let c ← cursor
    if place.context = .value && !lead.besideProperty && (lead.onNewLine || place.compact) && !c.tabbed then
      anchor lead.properties.anchor (.array [])
      match ← blockSequence node c.column with
      | some items => return ⟨lead.properties, true, some .sequence, .array items⟩
      | none => return .nothing lead.properties
    else return .nothing lead.properties
  | .lt => return .nothing lead.properties

def nodeWithin : Nat → NodeReader
  | 0 => fun _ => failure
  | depth + 1 => fun place => do
    let lead ← Lead.read place
    let content ← contentAt (nodeWithin depth) place lead
    content.finish

def mostNested : Nat := 100

end QueryLint.Yaml
