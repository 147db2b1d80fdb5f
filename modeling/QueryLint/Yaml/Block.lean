import QueryLint.Yaml.Members
import QueryLint.Yaml.Node

/-!
Block collections: sequences and mappings whose entries stand in one column.

They are read with the reader of the nodes inside as an argument.
-/

namespace QueryLint.Yaml
open Reader
set_option autoImplicit false

/-- The items of a block sequence at a column; `found` tells whether there were any before. -/
def blockItems (node : NodeReader) (column : Nat) :
    Nat → List Json → (found : Bool) → Reader (Option (List Json))
  | 0, _, _ => failure
  | fuel + 1, items, found => do
    let c ← cursor
    if c.tabbed && !c.rest.isEmpty then
      if found then failure else return none
    else if !c.isAtMark '-' then return if found then some items else none
    else
      advance
      let breaks ← skipSpace
      let inside ← cursor
      if breaks ≠ 0 && inside.indent ≤ column then
        blockItems node column fuel (items ++ [.null]) true
      else
        let item ← node ⟨column + 1, .item, false, true⟩
        let _ ← skipSpace
        let next ← cursor
        if !next.rest.isEmpty && (next.line = inside.line || column < next.indent) then failure
        else if next.indent < column then return some (items ++ [item.value])
        else blockItems node column fuel (items ++ [item.value]) true

def blockSequence (node : NodeReader) (column : Nat) : Reader (Option (List Json)) := do
  blockItems node column (← fuel) [] false

inductive EntryStart where
  /-- A key that is marked as such, or the value of the marked key before. -/
  | marked (isKey : Bool)
  /-- A key whose colon has been passed. -/
  | key (key : Node)
  /-- A node that is no key. -/
  | other (node : Node)
  /-- Nothing that belongs to the mapping. -/
  | nothing

def entryStart (node : NodeReader) (flowFloor : Nat) : Reader EntryStart := do
  let c ← cursor
  if c.isAtMark '?' || c.isAtMark ':' then
    advance
    return .marked (c.isAt '?')
  else
    let key ← node ⟨flowFloor + 1, .key, false, true⟩
    if !key.found then return .nothing
    else
      let behind ← cursor
      if behind.line ≠ c.line then return .other key
      else
        let separator := behind.skipBlanks
        moveTo separator
        if !separator.isAt ':' then return .other key
        else if !separator.isAtMark ':' then failure
        else
          advance
          return .key key

/-- What has been read of a block mapping: its members, whether it has any entry, and a marked key that
still waits for its value. -/
structure MappingText where
  members : Members := {}
  found : Bool := false
  waiting : Option Json := none

namespace MappingText

/-- Adds a marked key that has no value. -/
def settle (m : MappingText) : Reader MappingText :=
  match m.waiting with
  | none => pure m
  | some key => do return { m with members := ← ofOption (m.members.add? false key .null), waiting := none }

end MappingText

/-- The outcome of looking for a block mapping: a mapping, a node that is no key, or nothing. -/
inductive BlockMapping where
  | mapping (value : Json)
  | other (node : Node)
  | nothing

def MappingText.finish (m : MappingText) : Reader BlockMapping := do
  let m ← m.settle
  return if m.found then .mapping m.members.toJson else .nothing

def blockEntries (node : NodeReader) (column flowFloor : Nat) : Nat → MappingText → Reader BlockMapping
  | 0, _ => failure
  | fuel + 1, m => do
    let c ← cursor
    if c.rest.isEmpty then m.finish
    else if c.tabbed && m.waiting.isNone then
      if m.found then failure else return .nothing
    else
      let goOn (m : MappingText) : Reader BlockMapping := do
        let _ ← skipSpace
        let next ← cursor
        if !next.rest.isEmpty && (next.line = c.line || column < next.indent) then failure
        else if next.indent < column then m.finish
        else blockEntries node column flowFloor fuel m
      match ← entryStart node flowFloor with
      | .nothing => m.finish
      | .other first => if m.found then failure else return .other first
      | .marked true =>
        let m ← m.settle
        let key ← node ⟨column + 1, .value, true, true⟩
        goOn { m with found := true, waiting := some key.value }
      | .marked false =>
        match m.waiting with
        | none => failure
        | some key =>
          let value ← node ⟨column + 1, .value, true, true⟩
          goOn { m with members := ← ofOption (m.members.add? false key value.value), waiting := none }
      | .key key =>
        let m ← m.settle
        let value ← node ⟨column + 1, .value, true, false⟩
        goOn { m with members := ← ofOption (m.members.add? key.isMerge key.value value.value), found := true }

def blockMapping (node : NodeReader) (column flowFloor : Nat) : Reader BlockMapping := do
  blockEntries node column flowFloor (← fuel) {}

end QueryLint.Yaml
