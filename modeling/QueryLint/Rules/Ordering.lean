import QueryLint.Document
import QueryLint.Text.Distance

/-!
Ordering rules: what must come before what inside a scope.

Every scope is walked once from its first command to its last with a record of what has been seen.
A block is walked when its opener is reached and sees the subqueries that are defined by then; its
own name is visible from its opener's end on, at the top level and in later blocks.
-/

namespace QueryLint
set_option autoImplicit false

namespace Rules.Ordering

/-- What has been seen in a scope so far, and the subqueries that can be referred to. -/
structure Progress where
  source : Bool
  grouped : Bool
  ordered : Bool
  bounded : Bool
  projected : Bool
  fed : Bool
  first : Option Command
  visible : List Text

def Progress.start (visible : List Text) : Progress :=
  ⟨false, false, false, false, false, false, none, visible⟩

/-- The earliest of the keywords nearest to a word, if fewer than three edits away. -/
def closestKeyword (keywords : List Text) (word : Text) : Option Text :=
  (keywords.foldl (fun best candidate =>
    let d := Text.distance word candidate
    if d < best.2 then (some candidate, d) else best) ((none : Option Text), 3)).1

def unknownCommand (dialect : Dialect) (c : Command) : Issue :=
  .ofCommand c .unknownCommand ("Unknown command '" ++ c.name ++ "'")
    (((closestKeyword dialect.keywords c.keyword).filter fun hint => !hint.isEmpty).map fun hint =>
      "Did you mean " ++ hint ++ "?")

def forbiddenIssues (c : Command) (spec : Spec) : List Issue :=
  spec.forbiddenKeys.filterMap fun forbidden =>
    if (c.payload.bind (Value.get? forbidden.key)).isSome then
      some (.ofCommand c .forbiddenParameter forbidden.message forbidden.suggestion)
    else none

/-- A reference to a subquery that is not visible. A payload that was not read names nothing and is
reported elsewhere. -/
def referenceIssues (visible : List Text) (c : Command) : List Issue :=
  if c.payload.isNone then []
  else
    let suggestion : Option Text := some "Define the subquery block before referencing it"
    match c.referencedName? with
    | none => [.ofCommand c .undefinedSubquery (c.name ++ " does not name a subquery") suggestion]
    | some name =>
      if visible.contains name then []
      else [.ofCommand c .undefinedSubquery
        (c.name ++ " references undefined subquery '" ++ name ++ "'") suggestion]

def roleIssues (p : Progress) (c : Command) : Role → List Issue
  | .loader =>
    if p.source then []
    else [.ofCommand c .loaderWithoutSource (c.name ++ " loads data before any source is selected")
      (some "Select the data source (e.g. CATEGORY) before loading")]
  | .aggregate =>
    if p.grouped then []
    else [.ofCommand c .aggregateWithoutGrouping
      (c.name ++ " applies an aggregate without a preceding grouping command")
      (some "Add a GROUP command before the aggregation")]
  | .bound =>
    if p.ordered || p.bounded then []
    else [.ofCommand c .boundWithoutOrder
      (c.name ++ " bounds the result without an explicit ordering; " ++
        "the result set is non-deterministic")
      (some "Add an ORDER command before bounding the result")]
  | .projection =>
    if p.projected then
      [.ofCommand c .redundantProjection
        ("Redundant " ++ c.name ++ ": only the final projection before aggregation affects output")
        (some "Merge the projections into one command")]
    else []
  | .subqueryRef => referenceIssues p.visible c
  | _ => []

def Progress.pass (p : Progress) (c : Command) (spec : Spec) : Progress :=
  { p with
    source := p.source || spec.role = .source
    grouped := p.grouped || spec.role = .group
    ordered := p.ordered || spec.role = .order
    bounded := p.bounded || spec.role = .bound
    projected := p.projected || spec.role = .projection
    fed := p.fed || spec.suppliesData
    first := match p.first with
      | some first => some first
      | none => if spec.role = .blockOpen || spec.role = .blockClose then none else some c }

/-- Takes one command. Commands that the dialect does not have leave the record as it is. -/
def visit (dialect : Dialect) (p : Progress) (c : Command) : Progress × List Issue :=
  match c.spec with
  | none => (p, [unknownCommand dialect c])
  | some spec => (p.pass c spec, forbiddenIssues c spec ++ roleIssues p c spec.role)

def walk (dialect : Dialect) (p : Progress) : List Command → Progress × List Issue
  | [] => (p, [])
  | c :: cs =>
    let (p, found) := visit dialect p c
    let (p, more) := walk dialect p cs
    (p, found ++ more)

/-- A scope with commands that nothing feeds. -/
def missingLoader (dialect : Dialect) (name : Option Text) (p : Progress) : List Issue :=
  match p.first with
  | none => []
  | some first =>
    if p.fed then []
    else [.ofCommand first .missingLoader
      (match name with
        | none => "Query has no data-loading command"
        | some name => "Subquery '" ++ name ++ "' has no data-loading command")
      (some ("Load data with one of: " ++ Text.join ", " dialect.dataKeywords))]

def blockIssues (dialect : Dialect) (visible : List Text) (b : Block) : List Issue :=
  let (p, found) := walk dialect (.start visible) b.commands
  found ++ missingLoader dialect (some b.name) p

/-- Walks the block that a command opens, and makes its name visible. -/
def enter (dialect : Dialect) (blocks : List Block) (p : Progress) (c : Command) :
    Progress × List Issue :=
  if !c.hasRole .blockOpen then (p, [])
  else match blocks.find? fun b => b.openerIndex = c.index with
    | none => (p, [])
    | some b =>
      ({ p with visible := if b.name.isEmpty then p.visible else p.visible ++ [b.name] },
        blockIssues dialect p.visible b)

def walkRoot (dialect : Dialect) (blocks : List Block) (p : Progress) :
    List Command → Progress × List Issue
  | [] => (p, [])
  | c :: cs =>
    let (p, found) := visit dialect p c
    let (p, inner) := enter dialect blocks p c
    let (p, more) := walkRoot dialect blocks p cs
    (p, found ++ inner ++ more)

/-- The top level of a document with blocks need not be fed. -/
def issues (d : Document) : List Issue :=
  let (p, found) := walkRoot d.dialect d.blocks (.start []) d.root
  found ++ if d.blocks.isEmpty then missingLoader d.dialect none p else []

end Rules.Ordering
end QueryLint
