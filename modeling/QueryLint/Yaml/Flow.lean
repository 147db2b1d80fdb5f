import QueryLint.Yaml.Members
import QueryLint.Yaml.Node

/-!
Flow collections: sequences in brackets and mappings in braces, with commas between their entries.

They are read with the reader of the nodes inside as an argument.
-/

namespace QueryLint.Yaml
open Reader
set_option autoImplicit false

/-- An entry of a flow collection: a node, and a value at choice, which may be left out behind a marked
key. -/
structure FlowEntry where
  key : Node
  value : Option Json

/-- Reads one entry of a flow collection. The colon has to be on the line of its key unless the key is
marked. -/
def flowEntry (node : NodeReader) (place : Place) : Reader FlowEntry := do
  let isMarked := (← cursor).isAtMark '?'
  if isMarked then
    advance
    let _ ← skipSpace
  let c ← cursor
  let key ← node place
  let _ ← skipSpace
  let behind ← cursor
  if (isMarked || behind.line = c.line) && behind.isAt ':' then
    advance
    let _ ← skipSpace
    let value ← node place
    return ⟨key, some value.value⟩
  else return ⟨key, if isMarked then some .null else none⟩

/-- The entries of a flow collection up to its end; `ready` tells whether one may come. -/
def flowEntries (node : NodeReader) (closing : CodeUnit) (place : Place) :
    Nat → List FlowEntry → (ready : Bool) → Reader (List FlowEntry)
  | 0, _, _ => failure
  | fuel + 1, entries, ready => do
    let _ ← skipSpace
    let c ← cursor
    if c.isAt closing then
      advance
      return entries
    else if c.rest.isEmpty || !ready || c.isAt ',' then failure
    else
      let entry ← flowEntry node place
      let _ ← skipSpace
      if (← cursor).isAt ',' then
        advance
        flowEntries node closing place fuel (entries ++ [entry]) true
      else flowEntries node closing place fuel (entries ++ [entry]) false

def FlowEntry.item? (e : FlowEntry) : Option Json :=
  match e.value with
  | none => some e.key.value
  | some value => (Members.add? {} e.key.isMerge e.key.value value).map Members.toJson

/-- The members of a flow mapping; a key without a value has none. -/
def FlowEntry.addTo? (m : Members) (e : FlowEntry) : Option Members :=
  m.add? e.key.isMerge e.key.value (e.value.getD .null)

def flowSequence (node : NodeReader) (flowFloor : Nat) : Reader Json := do
  advance
  let entries ← flowEntries node ']' ⟨flowFloor + 1, .flow, false, true⟩ (← fuel) [] true
  return .array (← ofOption (entries.mapM FlowEntry.item?))

def flowMapping (node : NodeReader) (flowFloor : Nat) : Reader Json := do
  advance
  let entries ← flowEntries node '\x7d' ⟨flowFloor + 1, .flow, false, true⟩ (← fuel) [] true
  return Members.toJson (← ofOption (entries.foldlM FlowEntry.addTo? {}))

end QueryLint.Yaml
