import QueryLint.Yaml.Node
import QueryLint.Yaml.Scalar

/-!
The content of a node and what its properties make of it: the tag gives the value, and the anchor a name
for it.
-/

namespace QueryLint.Yaml
open Reader
set_option autoImplicit false

structure Content where
  properties : Properties
  found : Bool
  kind : Option Kind
  value : Json

def Content.nothing (properties : Properties) : Content := ⟨properties, false, none, .null⟩

def singleMembers? (items : List Json) : Option (Record Json) :=
  items.mapM fun item => match item with
    | .object [member] => some member
    | _ => none

/-- The value of a node with a known tag, if its content fits the tag. Scalars that were read as
something else than text before the tag applied keep their value as texts do. -/
def Tag.valueOf? (tag : Tag) (kind : Option Kind) (value : Json) : Option Json :=
  match kind, value with
  | some .scalar, .text t => tag.scalar? t
  | some .scalar, .null =>
    if tag = .text then some (.text []) else if tag = .null || tag = .merge then some .null else none
  | some .scalar, value => if tag = .text then some value else none
  | some .sequence, .array items =>
    match tag with
    | .list => some value
    | .orderedMapping =>
      (singleMembers? items).bind fun members => if (Record.keys members).Nodup then some value else none
    | .pairs => (singleMembers? items).map fun members =>
        .array (members.map fun (key, value) => .array [.text key, value])
    | _ => none
  | some .mapping, .object members =>
    match tag with
    | .mapping => some value
    | .set => if members.all fun m => m.2 matches .null then some value else none
    | _ => none
  | none, .null =>
    match tag with
    | .null | .merge => some .null
    | .text => some (.text [])
    | .list | .orderedMapping | .pairs => some (.array [])
    | .mapping | .set => some (.object [])
    | _ => none
  | _, _ => none

/-- The value of a node that is tagged like a plain scalar, and whether that makes it the merge key. -/
def implicitValue? (kind : Option Kind) (value : Json) : Option (Bool × Json) :=
  match kind, value with
  | _, .null => some (false, .null)
  | some .scalar, .text t => let (tag, value) := resolve t; some (tag = .merge, value)
  | some .scalar, .number x => if x.isFinite then none else some (false, value)
  | some .scalar, value => some (false, value)
  | _, _ => none

/-- The value of a content under its tag, and whether it is the merge key. -/
def Content.value? (c : Content) : Option (Bool × Json) :=
  match c.properties.tag with
  | none => some (false, c.value)
  | some .none => some (false, c.value)
  | some .implicit => implicitValue? c.kind c.value
  | some (.known tag) => (tag.valueOf? c.kind c.value).map fun value => (tag = .merge, value)
  | some .unknown => none

def Content.finish (c : Content) : Reader Node := do
  let (isMerge, value) ← ofOption c.value?
  anchor c.properties.anchor value
  return ⟨c.found || c.properties.any, isMerge, c.kind, value⟩

end QueryLint.Yaml
