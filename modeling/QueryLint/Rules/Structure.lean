import QueryLint.Document

/-!
Structural rules: every command on its own. Its brackets are balanced, its payload can be read, and
the payload is there, absent or of the right shape as the specification asks. The findings made
while the document was put together come first.
-/

namespace QueryLint
set_option autoImplicit false

def Shape.label : Shape → Text
  | object => "an object \x7b...\x7d"
  | array => "a list [...]"
  | scalar => "a single value"

namespace Rules.Structure

def shapesText (shapes : List Shape) : Text := Text.join " or " (shapes.map Shape.label)

def readingIssues (c : Command) : List Issue :=
  match c.delimiterFault, c.payloadFault with
  | some fault, _ =>
    [.ofCommand c .unbalancedDelimiters (c.name ++ ": " ++ fault.message)
      (some "Balance every \x7b and [ in the payload before the next command")]
  | none, some fault =>
    [.ofCommand c .payloadParseError
      ("Cannot parse " ++ c.name ++ " payload: " ++ fault.message) none]
  | none, none => []

def payloadIsEmpty (c : Command) : Bool := (c.payload.map Value.isEmpty).getD false

/-- A payload that is asked for and is missing or empty, that is there and must not be, or whose
shape is not accepted. -/
def contractIssues (c : Command) (spec : Spec) : List Issue :=
  if spec.payload = .required && (c.payloadText.isNone || payloadIsEmpty c) then
    [.ofCommand c .missingPayload
      (if c.payloadText.isNone then c.name ++ " requires a payload" else c.name ++ " payload is empty")
      (if spec.accepts.isEmpty then none
        else some ("Provide " ++ shapesText spec.accepts ++ " after " ++ c.name))]
  else if spec.payload = .none && c.payloadText.isSome then
    [.ofCommand c .unexpectedPayload (c.name ++ " takes no payload")
      (some ("Put " ++ c.name ++ " on its own line"))]
  else match c.payload with
    | none => []
    | some payload =>
      if spec.accepts.isEmpty || spec.accepts.contains payload.shape then []
      else [.ofCommand c .payloadKindMismatch
        (c.name ++ " expects " ++ shapesText spec.accepts ++ " but got " ++ payload.shape.label) none]

def commandIssues (c : Command) : List Issue :=
  readingIssues c ++ match c.spec with
    | none => []
    | some spec => contractIssues c spec

def emptyQuery : Issue :=
  .ofQuery .emptyQuery "Query contains no commands"
    (some "Start with a source command followed by a loader")

def issues (d : Document) : List Issue :=
  d.issues ++ if d.commands.isEmpty then [emptyQuery] else d.commands.flatMap commandIssues

end Rules.Structure
end QueryLint
