import QueryLint.Document
import QueryLint.Log

/-!
Field rules: the fields that commands refer to exist in the category they come from.

A section of a scope runs from one source to the next. The fields of its category are asked from a
lookup, at most once for every category and query: the first answer serves all sources that name
the category. A lookup may change its state with every call.
-/

namespace QueryLint
set_option autoImplicit false

inductive Finding where
  | found (fields : List Text)
  | missing
  | failed (reason : Text)
deriving DecidableEq, Repr

/-- A source of field names, keyed by category, with a state of its own. -/
abbrev Lookup (σ : Type) := Text → σ → Finding × σ

namespace Rules.Fields

/-- The state of the lookup, the answers so far, and the log of failures. -/
structure Inquiry (σ : Type) where
  source : σ
  known : Record Finding
  log : List Log.Entry

variable {σ : Type}

def failureReason? : Finding → Option Text
  | .found _ => none
  | .missing => some "not found"
  | .failed reason => some reason

/-- The answer for a category, from memory if it has been asked before. -/
def ask (lookup : Lookup σ) (category : Text) : StateM (Inquiry σ) Finding := fun s =>
  match Record.get? s.known category with
  | some finding => (finding, s)
  | none =>
    let (finding, source) := lookup category s.source
    let failure := (failureReason? finding).map (Log.lookupFailure category)
    (finding, ⟨source, Record.set category finding s.known, s.log ++ failure.toList⟩)

/-- Wildcards, parameters and expressions are not checked. -/
def isCheckable (name : Text) : Bool :=
  name ≠ "*" && !Value.namesParameter name && !List.elem ('(' : CodeUnit) name

def unknownField (category : Text) (source : Command) (c : Command) (name : Text) : Issue :=
  .ofCommand c .unknownField
    ("Field '" ++ name ++ "' is not defined in category '" ++ category ++ "'")
    (some ("Check the field list of " ++ category ++ " (source on line " ++ Text.ofNat source.line ++
      ")"))

def sectionIssues (category : Text) (source : Command) (known : List Text) :
    List Command → List Issue
  | [] => []
  | c :: cs =>
    let unknown := c.referencedFields.filter fun name => isCheckable name && !known.contains name
    unknown.map (unknownField category source c) ++
      sectionIssues category source (known ++ c.definedFields) cs

def sourceIssues (lookup : Lookup σ) (implicit : List Text) (source : Command)
    (following : List Command) : StateM (Inquiry σ) (List Issue) := do
  match source.declaredName? with
  | none => return []
  | some category =>
    if Value.namesParameter category then
      return [.ofCommand source .categoryParameter
        ("Category '" ++ category ++ "' is a runtime parameter; field names are not checked") none]
    match ← ask lookup category with
    | .found fields => return sectionIssues category source (fields ++ implicit) following
    | _ =>
      return [.ofCommand source .categoryMetadataUnavailable
        ("No field metadata for category '" ++ category ++ "'; field names are not checked") none]

def scopeIssues (lookup : Lookup σ) (implicit : List Text) :
    List Command → StateM (Inquiry σ) (List Issue)
  | [] => return []
  | c :: cs => do
    if c.hasRole .source then
      let found ← sourceIssues lookup implicit c (cs.takeWhile fun c => !c.hasRole .source)
      let more ← scopeIssues lookup implicit cs
      return found ++ more
    else scopeIssues lookup implicit cs

def scopesIssues (lookup : Lookup σ) (implicit : List Text) :
    List Scope → StateM (Inquiry σ) (List Issue)
  | [] => return []
  | scope :: scopes => do
    let found ← scopeIssues lookup implicit scope.commands
    let more ← scopesIssues lookup implicit scopes
    return found ++ more

/-- The issues of a document, the state of the lookup afterwards, and the log of failures. -/
def check (d : Document) (lookup : Lookup σ) (s : σ) : List Issue × σ × List Log.Entry :=
  let (found, inquiry) := (scopesIssues lookup d.dialect.implicitFields d.scopes).run ⟨s, [], []⟩
  (found, inquiry.source, inquiry.log)

end Rules.Fields
end QueryLint
