import QueryLint.Report
import QueryLint.Rules.Fields
import QueryLint.Rules.Ordering
import QueryLint.Rules.Performance
import QueryLint.Rules.Structure
import QueryLint.Rules.Style

/-!
Analysis of a query: the document, the findings of all rules, and the report made of them.

An analysis also returns the log of what it did. The times in the log are given by the caller, as
this library has no clock.
-/

namespace QueryLint
set_option autoImplicit false

/-- How a query is checked. Without a time range and a ratio the rules use what the query says and
their own default. -/
structure Options where
  timeRange : Option Number := none
  granularityRatio : Option Number := none
  disabledRules : List Text := []

/-- How long reading a query, applying the rules, and both together took, in milliseconds. -/
structure Elapsed where
  parsing : Number
  rules : Number
  total : Number

/-- The findings of each set of rules, in the order in which a report merges them. -/
structure Findings where
  structural : List Issue
  ordering : List Issue
  fields : List Issue
  performance : List Issue
  style : List Issue

structure Analysis (σ : Type) where
  document : Document
  report : Report
  lookup : σ
  log : List Log.Entry

namespace Findings

def lists (f : Findings) : List (List Issue) :=
  [f.structural, f.ordering, f.fields, f.performance, f.style]

end Findings

namespace Analysis
variable {σ : Type}

def fieldFindings (d : Document) (lookup : Option (Lookup σ)) (s : σ) :
    List Issue × σ × List Log.Entry :=
  match lookup with
  | none => ([], s, [])
  | some lookup => Rules.Fields.check d lookup s

def findings (d : Document) (options : Options) (lookup : Option (Lookup σ)) (s : σ) :
    Findings × σ × List Log.Entry :=
  let (fields, s, log) := fieldFindings d lookup s
  (⟨Rules.Structure.issues d, Rules.Ordering.issues d, fields,
    Rules.Performance.issues d options.timeRange options.granularityRatio, Rules.Style.issues d⟩,
    s, log)

def run (dialect : Dialect) (options : Options) (elapsed : Elapsed) (lookup : Option (Lookup σ)) (s : σ)
    (text : Text) : Analysis σ :=
  let document := Document.parse dialect text
  let commands := document.commands.length
  let (found, s, failures) := findings document options lookup s
  let report := Report.ofIssues (Issue.merge found.lists options.disabledRules) commands
  { document, report
    lookup := s
    log := [Log.timing "parse" [("commands", .ofNat commands)] elapsed.parsing] ++ failures ++
      [Log.timing "passes" [] elapsed.rules, Log.timing "validate" [] elapsed.total,
        Log.validation (.ofNat commands) (.ofNat report.issues.length) report.valid elapsed.total] }

end Analysis
end QueryLint
