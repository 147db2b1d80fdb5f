import QueryLint.Yaml.Scalar

/-!
The members of a mapping while it is read.

Every key becomes a text. A key may occur once, but a key that was taken over from another mapping may
be given anew, which replaces its value.
-/

namespace QueryLint.Yaml
set_option autoImplicit false

def mappingText : Text := "[object Object]"

def itemKey? : Json → Option Text
  | .null => some []
  | .bool b => some (if b then "true" else "false")
  | .number x => some x.toText
  | .text t => some t
  | .instant t => some t.toText
  | .array _ => none
  | .object _ => some mappingText

/-- A value as a key: lists show their items with commas between. -/
def key? : Json → Option Text
  | .null => some "null"
  | .array items => (items.mapM itemKey?).map (Text.join ",")
  | j => itemKey? j

/-- The members that a value brings into a mapping. A point in time brings none; other plain values
cannot be taken over. -/
def broughtMembers? : Json → Option (Record Json)
  | .instant _ => some []
  | j => j.members?

def mergedMembers? : Json → Option (List (Record Json))
  | .array items => items.mapM broughtMembers?
  | j => (broughtMembers? j).map fun members => [members]

/-- The members that have been read, and the keys of those that were taken over. -/
structure Members where
  entries : Record Json := []
  replaceable : List Text := []

namespace Members

/-- Takes a member over unless its key is there. -/
def bring (m : Members) (entry : Text × Json) : Members :=
  if Record.has m.entries entry.1 then m
  else ⟨m.entries ++ [entry], m.replaceable ++ [entry.1]⟩

def put? (m : Members) (key : Text) (value : Json) : Option Members :=
  if Record.has m.entries key && !m.replaceable.contains key then none
  else some ⟨Record.set key value m.entries, m.replaceable.filter fun k => k ≠ key⟩

def add? (m : Members) (isMerge : Bool) (key value : Json) : Option Members :=
  if isMerge then (mergedMembers? value).map fun sources => sources.flatten.foldl bring m
  else (key? key).bind fun key => m.put? key value

def toJson (m : Members) : Json := .object (Record.arranged m.entries)

end Members
end QueryLint.Yaml
