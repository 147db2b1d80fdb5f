import QueryLint.Dialect
import QueryLint.Payload.Reader
import QueryLint.Token

/-!
Commands: tokens with their payloads read and their keywords looked up in a dialect, and what rules
ask of them. The answers go by the payload keys that the specification of the command names; in a
payload that is no object the payload itself stands for the value.
-/

namespace QueryLint
set_option autoImplicit false

/-- A command. `index` counts the commands of the document; `spec` is none for a keyword that the
dialect does not have; `scope` is the name of the enclosing block, none at the top level. -/
structure Command where
  index : Nat
  name : Text
  keyword : Text
  spec : Option Spec
  payload : Option Value
  payloadText : Option Text
  payloadFault : Option Payload.Fault
  delimiterFault : Option Delimiter.Fault
  notes : List Payload.Note
  start : Position
  stop : Nat
  scope : Option Text

namespace Command

def readPayload (token : Token) : Option (Except Payload.Fault Payload.Parsed) :=
  match token.payload, token.fault with
  | some raw, none => some (Payload.parse raw.text)
  | _, _ => none

def ofToken (dialect : Dialect) (scope : Option Text) (index : Nat) (token : Token) : Command :=
  let keyword := Text.upper token.name
  let reading := readPayload token
  { index, keyword, scope
    name := token.name
    spec := dialect.spec? keyword
    payload := match reading with
      | some (.ok parsed) => some parsed.value
      | _ => none
    payloadText := token.payload.map (·.text)
    payloadFault := match reading with
      | some (.error fault) => some fault
      | _ => none
    delimiterFault := token.fault
    notes := match reading with
      | some (.ok parsed) => parsed.notes
      | _ => []
    start := token.start
    stop := token.stop }

def line (c : Command) : Nat := c.start.line

def role? (c : Command) : Option Role := c.spec.map (·.role)

def hasRole (c : Command) (role : Role) : Bool := c.role? = some role

def suppliesData (c : Command) : Bool := (c.spec.map (·.suppliesData)).getD false

/-- The value of the first of the keys, which the specification gives, in an object payload. -/
def property? (keys : Spec → List Text) (c : Command) : Option Value :=
  match c.payload, c.spec with
  | some payload, some spec => (payload.first? (keys spec)).map (·.2)
  | _, _ => none

def operand? (keys : Spec → List Text) (c : Command) : Option Value :=
  match c.payload with
  | none => none
  | some payload => if payload.isObject then c.property? keys else some payload

def declaredNameValue? (c : Command) : Option Value := c.operand? (·.nameKeys)

def declaredName? (c : Command) : Option Text := c.declaredNameValue?.bind Value.text?

def referencedName? (c : Command) : Option Text := (c.operand? (·.refKeys)).bind Value.text?

def textsUnder (keys : List Text) (payload : Value) : List Text :=
  match payload with
  | .object entries =>
    keys.flatMap fun key => entries.flatMap fun entry =>
      if entry.1.text = key then entry.2.texts else []
  | _ => []

def referencedFields (c : Command) : List Text :=
  match c.payload, c.spec with
  | some payload, some spec =>
    if spec.role = .projection then payload.texts
    else match spec.fieldKeys with
      | none => []
      | some keys => if payload.isObject then textsUnder keys payload else payload.texts
  | _, _ => []

def definedFields (c : Command) : List Text :=
  match c.payload, c.spec with
  | some payload, some spec => textsUnder spec.definesKeys payload
  | _, _ => []

def aggregateFunction? (c : Command) : Option Text :=
  ((c.property? (·.functionKeys)).bind Value.text?).map Text.lower

def timeBucket? (c : Command) : Option Value := c.property? (·.timeKeys)

def comparison? (c : Command) : Option Value := c.property? (·.compareKeys)

end Command
end QueryLint
