import QueryLint.Json

/-!
Parsed payloads and the questions that rules ask of them.

A payload is a tree of objects, lists and scalars. Keys and strings remember how they were quoted
and numbers how they were written, because reports quote them.
-/

namespace QueryLint
set_option autoImplicit false

inductive Quote where
  | single
  | double
deriving DecidableEq, Repr

inductive KeyStyle where
  | bare
  | quoted (quote : Quote)
deriving DecidableEq, Repr

structure Key where
  text : Text
  style : KeyStyle
deriving DecidableEq, Repr

inductive Value where
  | object (entries : List (Key × Value))
  | array (items : List Value)
  | string (text : Text) (quote : Quote)
  | number (value : Number) (raw : Text)
  | boolean (value : Bool)
  | bare (word : Text)
  | null

inductive Shape where
  | object
  | array
  | scalar
deriving DecidableEq, Repr

namespace Value

def isObject : Value → Bool
  | object _ => true
  | _ => false

def shape : Value → Shape
  | object _ => .object
  | array _ => .array
  | _ => .scalar

def isEmpty : Value → Bool
  | object entries => entries.isEmpty
  | array items => items.isEmpty
  | _ => false

def get? (key : Text) : Value → Option Value
  | object entries => (entries.find? fun entry => entry.1.text = key).map (·.2)
  | _ => none

def first? (keys : List Text) (v : Value) : Option (Text × Value) :=
  keys.findSome? fun key => (v.get? key).map fun found => (key, found)

def text? : Value → Option Text
  | string text _ => some text
  | bare word => some word
  | number _ raw => some raw
  | _ => none

def texts : Value → List Text
  | array items => items.filterMap text?
  | v => v.text?.toList

def keys : Value → List Text
  | object entries => entries.map (·.1.text)
  | _ => []

def isNumeric (t : Text) : Bool := (Number.ofLiteral? t).isSome

def number? : Value → Option Number
  | number value _ => some value
  | v =>
    match v.text? with
    | none => none
    | some t =>
      match Number.ofLiteral? (Text.trim t) with
      | some n => if n.isFinite then some n else none
      | none => none

/-- Whether a text names a value supplied when the query runs. -/
def namesParameter (t : Text) : Bool := Text.startsWith t "$"

def isParameter (v : Value) : Bool := (v.text?.map namesParameter).getD false

mutual

def plain : Value → Json
  | object entries => .object (Record.arranged (plainEntries entries []))
  | array items => .array (plainItems items)
  | string text _ => .text text
  | number value _ => .number value
  | boolean value => .bool value
  | bare word => .text word
  | null => .null

def plainItems : List Value → List Json
  | [] => []
  | item :: items => plain item :: plainItems items

def plainEntries : List (Key × Value) → Record Json → Record Json
  | [], out => out
  | (key, v) :: entries, out => plainEntries entries (Record.assign key.text (plain v) out)

end

end Value
end QueryLint
