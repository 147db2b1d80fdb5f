import QueryLint.Document
import QueryLint.Duration

/-!
Performance rules: filters behind a grouping, projections of every field, time buckets too fine for
the range, fields aggregated more than once, and results without a bound. All of it is advice.
-/

namespace QueryLint
set_option autoImplicit false

namespace Rules.Performance

/-- How many time buckets a range may have if nothing else is asked for. -/
def defaultRatio : Number := 500

def loaderRange? (c : Command) : Option Number :=
  match (c.payload.bind (Value.get? "stime")).bind Value.number?,
      (c.payload.bind (Value.get? "etime")).bind Value.number? with
  | some start, some stop => if start.lt stop then some (stop - start) else none
  | _, _ => none

/-- The time range of a scope: a time-range command, else a loader, else the given one. -/
def timeRange? (commands : List Command) (fallback : Option Number) : Option Number :=
  match (commands.filter (·.hasRole .timeRange)).findSome? (fun c => c.payload.bind Duration.ofValue?) with
  | some range => some range
  | none =>
    match (commands.filter (·.hasRole .loader)).findSome? loaderRange? with
    | some range => some range
    | none => fallback

/-- What has been seen in a scope: a grouping, and the functions applied to each field. -/
structure Progress where
  grouped : Bool
  functions : Record (List Text)

def Progress.start : Progress := ⟨false, []⟩

/-- The least whole number of seconds that keeps the buckets of a range within the ratio. -/
def suggestedBucket (range ratio : Number) : Number :=
  (range / ratio / (1000 : Number)).ceil * (1000 : Number)

def granularityIssues (ratio : Number) (range : Option Number) (c : Command) : List Issue :=
  match range, c.timeBucket?.bind Duration.ofValue? with
  | some range, some bucket =>
    let buckets := range / bucket
    if ratio.lt buckets then
      [.ofCommand c .excessiveGranularity
        (c.name ++ " time bucket " ++ Duration.toText bucket ++ " over a " ++ Duration.toText range ++
          " range yields " ++ buckets.ceil.toText ++ " buckets (limit " ++ ratio.toText ++ ")")
        (some ("Use a bucket of at least " ++ Duration.toText (suggestedBucket range ratio)))]
    else []
  | _, _ => []

/-- Applies a function to fields; a field that has seen other functions but not this one is worth
a remark. -/
def aggregate (c : Command) (function : Text) (functions : Record (List Text)) :
    List Text → Record (List Text) × List Issue
  | [] => (functions, [])
  | target :: targets =>
    match Record.get? functions target with
    | none => aggregate c function (Record.set target [function] functions) targets
    | some seen =>
      if seen.contains function then aggregate c function functions targets
      else
        let (functions, more) :=
          aggregate c function (Record.set target (seen ++ [function]) functions) targets
        (functions, .ofCommand c .combineAggregations
          ("'" ++ target ++ "' is aggregated again with " ++ function ++ " (already " ++
            Text.join ", " seen ++ ")")
          (some "Combine aggregations of the same field into one command") :: more)

def visit (ratio : Number) (range : Option Number) (p : Progress) (c : Command) :
    Progress × List Issue :=
  match c.role? with
  | some .filter =>
    (p, if p.grouped then
        [.ofCommand c .lateFilter
          (c.name ++ " after grouping processes a larger-than-necessary dataset")
          (some "Move the filter before the grouping command")]
      else [])
  | some .projection =>
    (p, if ((c.payload.map Value.texts).getD []).contains "*" then
        [.ofCommand c .wildcardProjection (c.name ++ " projects every field with '*'")
          (some "List only the fields the query needs")]
      else [])
  | some .group => ({ p with grouped := true }, granularityIssues ratio range c)
  | some .aggregate =>
    match c.aggregateFunction? with
    | none => (p, [])
    | some function =>
      let (functions, found) := aggregate c function p.functions c.referencedFields
      ({ p with functions }, found)
  | _ => (p, [])

def walk (ratio : Number) (range : Option Number) (p : Progress) : List Command → List Issue
  | [] => []
  | c :: cs =>
    let (p, found) := visit ratio range p c
    found ++ walk ratio range p cs

def scopeIssues (ratio : Number) (range : Option Number) (scope : Scope) : List Issue :=
  walk ratio range .start scope.commands

/-- A top level that nothing bounds, reported at its last command. -/
def unboundedIssues (root : List Command) : List Issue :=
  let stages := root.filter fun c => !c.hasRole .blockOpen && !c.hasRole .blockClose
  let bounded := stages.any fun c => c.hasRole .bound || c.hasRole .group || c.hasRole .aggregate
  match stages.getLast? with
  | none => []
  | some last =>
    if bounded then []
    else [.ofCommand last .unboundedResult "Query returns every row: no bound and no aggregation"
      (some "Add a bounding command (LIMIT / BOUND) or aggregate the result")]

/-- The issues of a document. A block without a range of its own has that of the top level. -/
def issues (d : Document) (fallback : Option Number) (ratio : Option Number) : List Issue :=
  let ratio := ratio.getD defaultRatio
  let rootRange := timeRange? d.root fallback
  scopeIssues ratio rootRange d.rootScope ++
    d.blocks.flatMap (fun b => scopeIssues ratio (timeRange? b.commands rootRange) b.scope) ++
    unboundedIssues d.root

end Rules.Performance
end QueryLint
