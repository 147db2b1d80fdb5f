import QueryLint.Delimiter
import QueryLint.Payload.Lexeme

/-!
Reading a payload.

The grammar is that of JSON with three liberties: keys and scalars may be bare words, either quote
may be used, and a comma may stand before a closing bracket. The reader passes once over the
lexemes with a stack of the containers that are open. It records a note for every bare key and for
every comma before a closing bracket, and it stops at the first fault.
-/

namespace QueryLint.Payload
set_option autoImplicit false

/-- Why a payload is refused; `found` is none at the end of the payload. -/
inductive Cause where
  | trailingContent (found : CodeUnit)
  | expectedValue (found : Option CodeUnit)
  | expectedKey (found : Option CodeUnit)
  | expectedColon (key : Text) (found : Option CodeUnit)
  | expectedSeparator (bracket : Bracket) (found : CodeUnit)
  | unclosed (bracket : Bracket)
  | unclosedGroup
  | unterminatedString
  | duplicateKey (key : Text)
deriving DecidableEq, Repr

def describeFound : Option CodeUnit → Text
  | none => "end of payload"
  | some c => "'" ++ [c] ++ "'"

def Cause.message : Cause → Text
  | trailingContent found => "Unexpected content after payload: " ++ describeFound (some found)
  | expectedValue found => "Expected a value but found " ++ describeFound found
  | expectedKey found => "Expected a key but found " ++ describeFound found
  | expectedColon key found =>
    "Expected ':' after key '" ++ key ++ "' but found " ++ describeFound found
  | expectedSeparator bracket found =>
    "Expected ',' or '" ++ [bracket.closing] ++ "' but found " ++ describeFound (some found)
  | unclosed bracket => "Unclosed '" ++ [bracket.opening] ++ "'"
  | unclosedGroup => "Unclosed '('"
  | unterminatedString => "Unterminated string literal"
  | duplicateKey key => "Duplicate key '" ++ key ++ "'"

structure Fault where
  cause : Cause
  offset : Nat
deriving DecidableEq, Repr

/-- The fault as reported for a command, with the column counted from one. -/
def Fault.message (f : Fault) : Text :=
  f.cause.message ++ " (payload column " ++ Text.ofNat (f.offset + 1) ++ ")"

inductive NoteKind where
  | unquotedKey (key : Text)
  | trailingSeparator (bracket : Bracket)
deriving DecidableEq, Repr

/-- The offending key, or the closing bracket behind the comma. -/
def NoteKind.detail : NoteKind → Text
  | unquotedKey key => key
  | trailingSeparator bracket => [bracket.closing]

structure Note where
  kind : NoteKind
  offset : Nat
deriving DecidableEq, Repr

/-- A container that is open: what it holds so far, where it was opened, and for an object the key
whose value comes next. -/
inductive Frame where
  | object (opened : Nat) (entries : List (Key × Value)) (key : Key)
  | array (opened : Nat) (items : List Value)

/-- What may come next. Behind an opening bracket or a comma the container may also be closed;
`comma` is the offset of that comma. -/
inductive Expecting where
  | value
  | item (opened : Nat) (items : List Value) (comma : Option Nat)
  | key (opened : Nat) (entries : List (Key × Value)) (comma : Option Nat)
  | colon (opened : Nat) (entries : List (Key × Value)) (key : Key)
  | separator (value : Value)

/-- The open containers, innermost first, and what is expected inside them. -/
structure State where
  stack : List Frame
  expecting : Expecting

def State.start : State := ⟨[], .value⟩

def classify (word : Text) : Value :=
  if word = "true" then .boolean true
  else if word = "false" then .boolean false
  else if word = "null" then .null
  else match Number.ofLiteral? word with
    | some n => .number n word
    | none => .bare word

/-- A step leads to a state, at most one note, or a fault. -/
abbrev Outcome := Except Fault (State × Option Note)

def proceed (stack : List Frame) (expecting : Expecting) : Outcome := .ok (⟨stack, expecting⟩, none)

def refuse (cause : Cause) (offset : Nat) : Outcome := .error ⟨cause, offset⟩

def beginValue (stack : List Frame) (l : Placed) : Outcome :=
  match l.lexeme with
  | .mark .openBrace => proceed stack (.key l.offset [] none)
  | .mark .openSquare => proceed stack (.item l.offset [] none)
  | .mark m => refuse (.expectedValue (some m.unit)) l.offset
  | .quoted quote text => proceed stack (.separator (.string text quote))
  | .word word => proceed stack (.separator (classify word))
  | .openQuote _ => refuse .unterminatedString l.offset
  | .openGroup _ groupAt => refuse .unclosedGroup groupAt

/-- Closes a container; a comma right before its end is worth a note. -/
def close (stack : List Frame) (v : Value) (bracket : Bracket) (comma : Option Nat) : Outcome :=
  .ok (⟨stack, .separator v⟩, comma.map fun offset => ⟨.trailingSeparator bracket, offset⟩)

def takeKey (stack : List Frame) (opened : Nat) (entries : List (Key × Value)) (key : Key)
    (offset : Nat) : Outcome :=
  if entries.any fun entry => entry.1.text = key.text then refuse (.duplicateKey key.text) offset
  else .ok (⟨stack, .colon opened entries key⟩,
    if key.style = .bare then some ⟨.unquotedKey key.text, offset⟩ else none)

def step (s : State) (l : Placed) : Outcome :=
  match s.expecting with
  | .value => beginValue s.stack l
  | .item opened items comma =>
    match l.lexeme with
    | .mark .closeSquare => close s.stack (.array items) .square comma
    | _ => beginValue (.array opened items :: s.stack) l
  | .key opened entries comma =>
    match l.lexeme with
    | .mark .closeBrace => close s.stack (.object entries) .brace comma
    | .mark m => refuse (.expectedKey (some m.unit)) l.offset
    | .quoted quote text => takeKey s.stack opened entries ⟨text, .quoted quote⟩ l.offset
    | .word word => takeKey s.stack opened entries ⟨word, .bare⟩ l.offset
    | .openQuote _ => refuse .unterminatedString l.offset
    | .openGroup _ groupAt => refuse .unclosedGroup groupAt
  | .colon opened entries key =>
    match l.lexeme with
    | .mark .colon => proceed (.object opened entries key :: s.stack) .value
    | other => refuse (.expectedColon key.text (some other.firstUnit)) l.offset
  | .separator v =>
    match s.stack with
    | [] => refuse (.trailingContent l.lexeme.firstUnit) l.offset
    | .object opened entries key :: stack =>
      match l.lexeme with
      | .mark .closeBrace => close stack (.object (entries ++ [(key, v)])) .brace none
      | .mark .comma => proceed stack (.key opened (entries ++ [(key, v)]) (some l.offset))
      | other => refuse (.expectedSeparator .brace other.firstUnit) l.offset
    | .array opened items :: stack =>
      match l.lexeme with
      | .mark .closeSquare => close stack (.array (items ++ [v])) .square none
      | .mark .comma => proceed stack (.item opened (items ++ [v]) (some l.offset))
      | other => refuse (.expectedSeparator .square other.firstUnit) l.offset

def finish (length : Nat) (s : State) : Except Fault Value :=
  match s.expecting with
  | .value => .error ⟨.expectedValue none, length⟩
  | .item _ _ _ => .error ⟨.expectedValue none, length⟩
  | .key _ _ _ => .error ⟨.expectedKey none, length⟩
  | .colon _ _ key => .error ⟨.expectedColon key.text none, length⟩
  | .separator v =>
    match s.stack with
    | [] => .ok v
    | .object opened _ _ :: _ => .error ⟨.unclosed .brace, opened⟩
    | .array opened _ :: _ => .error ⟨.unclosed .square, opened⟩

/-- A payload that was accepted: its value and the notes in the order of their offsets. -/
structure Parsed where
  value : Value
  notes : List Note

def run (length : Nat) (s : State) : List Placed → Except Fault Parsed
  | [] => (finish length s).map fun v => ⟨v, []⟩
  | l :: ls =>
    match step s l with
    | .error fault => .error fault
    | .ok (next, note) =>
      (run length next ls).map fun parsed => { parsed with notes := note.toList ++ parsed.notes }

def parse (t : Text) : Except Fault Parsed := run t.length .start (lexemes 0 t)

end QueryLint.Payload
