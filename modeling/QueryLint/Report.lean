import QueryLint.Issue

/-!
Reports: the issues of all rules merged into one list, counted and written out.

Merging drops the issues of disabled rules and, of issues with one command index, code and message,
all but the first. What is left is ordered by command and then by severity; issues alike in both
keep their order. A query is valid when no critical issue is left.
-/

namespace QueryLint
set_option autoImplicit false

structure Summary where
  critical : Nat
  warning : Nat
  info : Nat
deriving DecidableEq, Repr

structure Report where
  valid : Bool
  issues : List Issue
  summary : Summary
  commandCount : Nat
deriving DecidableEq, Repr

namespace Issue

/-- What two issues must share to be one: the command index, and code and message with a NUL
between them. -/
def identity (i : Issue) : Int × Text := (i.commandIndex, i.code ++ (0 : CodeUnit) :: i.message)

/-- Keeps the first of the issues with one identity; `seen` holds the identities met before. -/
def distinct (seen : List (Int × Text)) : List Issue → List Issue
  | [] => []
  | i :: is =>
    if seen.contains i.identity then distinct seen is else i :: distinct (i.identity :: seen) is

def precedes (a b : Issue) : Bool :=
  a.commandIndex < b.commandIndex ||
    (a.commandIndex = b.commandIndex && a.severity.rank ≤ b.severity.rank)

def merge (lists : List (List Issue)) (disabled : List Text) : List Issue :=
  (distinct [] (lists.flatten.filter fun i => !disabled.contains i.code)).mergeSort precedes

/-- The lines of an issue in a written report. An empty scope or suggestion is left out. -/
def lines (i : Issue) : List Text :=
  let place : Text := if 0 < i.line then "Line " ++ Text.ofInt i.line else "Query"
  let scope : Text := match i.scope with
    | none => []
    | some [] => []
    | some name => " (" ++ name ++ ")"
  let head := "  " ++ place ++ scope ++ " [" ++ i.code ++ "]: " ++ i.message
  match i.suggestion with
  | none => [head]
  | some [] => [head]
  | some suggestion => [head, "    -> " ++ suggestion]

def toJson (i : Issue) : Json :=
  let located : Record Json :=
    [("severity", .text i.severity.name), ("category", .text i.concern.name), ("code", .text i.code),
      ("message", .text i.message), ("commandIndex", .ofInt i.commandIndex), ("line", .ofInt i.line),
      ("scope", .ofOption .text i.scope)]
  .object (located ++ Json.optional "suggestion" .text i.suggestion)

end Issue

namespace Report

def count (severity : Severity) (issues : List Issue) : Nat :=
  issues.countP fun i => i.severity = severity

def summarize (issues : List Issue) : Summary :=
  ⟨count .critical issues, count .warning issues, count .info issues⟩

def ofIssues (issues : List Issue) (commandCount : Nat) : Report :=
  let summary := summarize issues
  ⟨summary.critical = 0, issues, summary, commandCount⟩

def summaryLine (r : Report) : Text :=
  (if r.valid then "Query is valid" else "Query has critical issues") ++ " (" ++
    Text.ofNat r.summary.critical ++ " critical, " ++ Text.ofNat r.summary.warning ++ " warnings, " ++
    Text.ofNat r.summary.info ++ " info)"

def sectionTitle : Severity → Text
  | .critical => "Critical Issues:"
  | .warning => "Warnings:"
  | .info => "Suggestions:"

def sectionLines (decorate : Severity → Text → Text) (r : Report) (severity : Severity) : List Text :=
  let issues := r.issues.filter fun i => i.severity = severity
  if issues.isEmpty then [] else [] :: decorate severity (sectionTitle severity) :: issues.flatMap Issue.lines

def toText (decorate : Severity → Text → Text) (r : Report) : Text :=
  if r.issues.isEmpty then "Query is valid.\n"
  else Text.join "\n" (r.summaryLine :: Severity.all.flatMap (r.sectionLines decorate)) ++ "\n"

def members (r : Report) : Record Json :=
  [("valid", .bool r.valid), ("issues", .array (r.issues.map Issue.toJson)),
    ("summary", .object [("critical", .ofNat r.summary.critical), ("warning", .ofNat r.summary.warning),
      ("info", .ofNat r.summary.info)]),
    ("commandCount", .ofNat r.commandCount)]

end Report
end QueryLint
