import Mathlib.Data.List.DropRight
import QueryLint.Proofs.Findings
import QueryLint.Proofs.Inquiries

/-!
What the field rules report.

A field is judged by the last source in front of its command and by what the commands since then
define. So what is said of a command depends on the answers for the categories and on the commands
before it in its scope.
-/

namespace QueryLint
set_option autoImplicit false

open Document Issue

namespace Rules.Fields

def lastSource? (before : List Command) : Option Command := (before.filter (·.hasRole .source)).getLast?

def sinceSource (before : List Command) : List Command := before.rtakeWhile fun c => !c.hasRole .source

section Source
variable {before : List Command} {c : Command}

theorem lastSource?_concat (hc : c.hasRole .source = true) : lastSource? (before ++ [c]) = some c := by
  simp [lastSource?, hc]

theorem sinceSource_concat (hc : c.hasRole .source = true) : sinceSource (before ++ [c]) = [] :=
  List.rtakeWhile_concat_neg _ _ _ (by simp [hc])

theorem lastSource?_concat_other (hc : c.hasRole .source = false) :
    lastSource? (before ++ [c]) = lastSource? before := by
  simp [lastSource?, hc]

theorem sinceSource_concat_other (hc : c.hasRole .source = false) :
    sinceSource (before ++ [c]) = sinceSource before ++ [c] :=
  List.rtakeWhile_concat_pos _ _ _ (by simp [hc])

theorem lastSource?_eq_none (h : ∀ c ∈ before, c.hasRole .source = false) : lastSource? before = none := by
  rw [lastSource?, List.getLast?_eq_none_iff]
  exact List.filter_eq_nil_iff.2 fun c hc => by simp [h c hc]

theorem lastSource?_split (front : List Command) {source : Command} {between : List Command}
    (hsource : source.hasRole .source = true) (hbetween : ∀ c ∈ between, c.hasRole .source = false) :
    lastSource? (front ++ source :: between) = some source ∧
      sinceSource (front ++ source :: between) = between := by
  induction between using List.reverseRecOn with
  | nil => exact ⟨lastSource?_concat hsource, sinceSource_concat hsource⟩
  | append_singleton between c ih =>
    obtain ⟨hlast, hsince⟩ := ih fun c' hc' => hbetween c' (by simp [hc'])
    have hc := hbetween c (by simp)
    rw [← List.cons_append, ← List.append_assoc, lastSource?_concat_other hc, sinceSource_concat_other hc,
      hlast, hsince]
    exact ⟨rfl, rfl⟩

end Source

/-- The category that a source names, unless a parameter does. -/
def literalCategory? (source : Command) : Option Text :=
  source.declaredName?.filter fun name => !Value.namesParameter name

/-- A name that is checked and names nothing: it is no field of the category and no implicit one, and
none of the commands since the source brings it in. -/
def Unknown (fields implicit : List Text) (between : List Command) (name : Text) : Prop :=
  (name ≠ "*" ∧ Value.namesParameter name = false ∧ ('(' : CodeUnit) ∉ name) ∧ name ∉ fields ∧
    name ∉ implicit ∧ ∀ c ∈ between, name ∉ c.definedFields

instance (fields implicit : List Text) (between : List Command) (name : Text) :
    Decidable (Unknown fields implicit between name) :=
  inferInstanceAs (Decidable (_ ∧ _))

def parameterIssue (source : Command) (category : Text) : Issue :=
  .ofCommand source .categoryParameter
    ("Category '" ++ category ++ "' is a runtime parameter; field names are not checked") none

def unavailableIssue (source : Command) (category : Text) : Issue :=
  .ofCommand source .categoryMetadataUnavailable
    ("No field metadata for category '" ++ category ++ "'; field names are not checked") none

section Remarks
variable (answers : Text → Finding) (implicit : List Text)

def sourceRemarks (source : Command) : List Issue :=
  match source.declaredName? with
  | none => []
  | some category =>
    if Value.namesParameter category then [parameterIssue source category]
    else match answers category with
      | .found _ => []
      | _ => [unavailableIssue source category]

def fieldRemarks (source : Command) (between : List Command) (c : Command) : List Issue :=
  match (literalCategory? source).map fun category => (category, answers category) with
  | some (category, .found fields) =>
    (c.referencedFields.filter fun name => Unknown fields implicit between name).map
      (unknownField category source c)
  | _ => []

def remarks (before : List Command) (c : Command) : List Issue :=
  if c.hasRole .source then sourceRemarks answers c
  else match lastSource? before with
    | none => []
    | some source => fieldRemarks answers implicit source (sinceSource before) c

def sectionRemarks (source : Option Command) (between cs : List Command) : List Issue :=
  match source with
  | none => []
  | some source => eachAfter (fieldRemarks answers implicit source) between
      (cs.takeWhile fun c => !c.hasRole .source)

def scopeRemarks : List Command → List Issue
  | [] => []
  | c :: cs =>
    (if c.hasRole .source then sourceRemarks answers c ++ sectionRemarks answers implicit (some c) [] cs
      else []) ++ scopeRemarks cs

theorem scopeRemarks_eq (before cs : List Command) :
    eachAfter (remarks answers implicit) before cs =
      sectionRemarks answers implicit (lastSource? before) (sinceSource before) cs ++
        scopeRemarks answers implicit cs := by
  induction cs generalizing before with
  | nil => cases lastSource? before <;> rfl
  | cons c cs ih =>
    rw [eachAfter, ih, scopeRemarks, remarks]
    cases hsource : c.hasRole .source with
    | true =>
      have hover : sectionRemarks answers implicit (lastSource? before) (sinceSource before) (c :: cs) =
          [] := by
        unfold sectionRemarks
        rw [List.takeWhile_cons_of_neg (by simp [hsource])]
        cases lastSource? before <;> rfl
      rw [hover, lastSource?_concat hsource, sinceSource_concat hsource]
      simp
    | false =>
      rw [lastSource?_concat_other hsource, sinceSource_concat_other hsource]
      cases lastSource? before with
      | none => rfl
      | some source => simp [sectionRemarks, eachAfter, hsource]

end Remarks

theorem section_eq (category : Text) (source : Command) (fields implicit : List Text)
    (between cs : List Command) :
    sectionIssues category source (fields ++ implicit ++ between.flatMap Command.definedFields) cs =
      eachAfter (fun between c => (c.referencedFields.filter fun name =>
        Unknown fields implicit between name).map (unknownField category source c)) between cs := by
  induction cs generalizing between with
  | nil => rfl
  | cons c cs ih =>
    have hknown : fields ++ implicit ++ between.flatMap Command.definedFields ++ c.definedFields =
        fields ++ implicit ++ (between ++ [c]).flatMap Command.definedFields := by simp
    rw [sectionIssues, eachAfter, hknown, ih]
    congr 3
    funext name
    rw [Bool.eq_iff_iff]
    simp [Unknown, isCheckable, and_assoc]

section Found
variable {answers : Text → Finding} {source : Command}

def Supplies (answers : Text → Finding) (source : Command) (category : Text) (fields : List Text) : Prop :=
  literalCategory? source = some category ∧ answers category = .found fields

theorem sourceRemarks_of_literal {category : Text} (h : literalCategory? source = some category) :
    sourceRemarks answers source = match answers category with
      | .found _ => []
      | _ => [unavailableIssue source category] := by
  obtain ⟨hname, hparameter⟩ := Option.filter_eq_some_iff.1 h
  rw [sourceRemarks, hname]
  exact if_neg (by simpa using hparameter)

theorem fieldRemarks_of_supplies {category : Text} {fields : List Text}
    (h : Supplies answers source category fields) (implicit : List Text) (between : List Command)
    (c : Command) : fieldRemarks answers implicit source between c =
      (c.referencedFields.filter fun name => Unknown fields implicit between name).map
        (unknownField category source c) := by
  simp [fieldRemarks, h.1, h.2]

theorem fieldRemarks_of_not_supplies (h : ¬∃ category fields, Supplies answers source category fields)
    (implicit : List Text) (between : List Command) (c : Command) :
    fieldRemarks answers implicit source between c = [] := by
  unfold fieldRemarks
  cases hcategory : literalCategory? source with
  | none => rfl
  | some category =>
    cases hfound : answers category with
    | found fields => exact absurd ⟨category, fields, hcategory, hfound⟩ h
    | missing => simp [hfound]
    | failed reason => simp [hfound]

end Found

/-- The categories that sources name, one after the other. -/
def mentions (cs : List Command) : List Text :=
  cs.flatMap fun c => if c.hasRole .source then (literalCategory? c).toList else []

def outcome (implicit : List Text) (category : Text) (source : Command) (following : List Command) :
    Finding → List Issue
  | .found fields => sectionIssues category source (fields ++ implicit) following
  | _ => [unavailableIssue source category]

section Walk
variable {σ : Type} (lookup : Lookup σ) (s : σ) (all implicit : List Text)

theorem sourceIssues_literal {source : Command} {category : Text}
    (h : literalCategory? source = some category) (following : List Command) :
    sourceIssues lookup implicit source following = do
      let finding ← ask lookup category
      return outcome implicit category source following finding := by
  obtain ⟨hname, hliteral⟩ := Option.filter_eq_some_iff.1 h
  unfold sourceIssues
  rw [hname]
  dsimp only
  rw [if_neg (by simpa using hliteral)]
  congr 1
  funext finding
  cases finding <;> rfl

theorem yields_source (source : Command) (cs : List Command) :
    Yields lookup s all
      (sourceIssues lookup implicit source (cs.takeWhile fun c => !c.hasRole .source))
      (literalCategory? source).toList
      (sourceRemarks (lookup.answer s all.eraseDups) source ++
        sectionRemarks (lookup.answer s all.eraseDups) implicit (some source) [] cs) := by
  have hsilent : (¬∃ category fields, Supplies (lookup.answer s all.eraseDups) source category fields) →
      sectionRemarks (lookup.answer s all.eraseDups) implicit (some source) [] cs = [] := by
    intro h
    have hnothing := funext fun between => funext (fieldRemarks_of_not_supplies h implicit between)
    rw [sectionRemarks, hnothing, eachAfter_nothing]
  cases hliteral : literalCategory? source with
  | none =>
    rw [hsilent (by simp [Supplies, hliteral]), List.append_nil]
    unfold sourceIssues sourceRemarks
    cases hname : source.declaredName? with
    | none => exact yields_pure lookup s all []
    | some category =>
      have hparameter : Value.namesParameter category = true := by
        simpa [literalCategory?, hname] using hliteral
      dsimp only
      rw [if_pos hparameter, if_pos hparameter]
      exact yields_pure lookup s all _
  | some category =>
    have hissues : sourceRemarks (lookup.answer s all.eraseDups) source ++
        sectionRemarks (lookup.answer s all.eraseDups) implicit (some source) [] cs =
        outcome implicit category source (cs.takeWhile fun c => !c.hasRole .source)
          (lookup.answer s all.eraseDups category) := by
      rw [sourceRemarks_of_literal hliteral]
      cases hfound : lookup.answer s all.eraseDups category with
      | found fields =>
        have hsupplies : Supplies (lookup.answer s all.eraseDups) source category fields :=
          ⟨hliteral, hfound⟩
        have hfields := funext fun between => funext (fieldRemarks_of_supplies hsupplies implicit between)
        have hsection := section_eq category source fields implicit []
          (cs.takeWhile fun c => !c.hasRole .source)
        rw [List.flatMap_nil, List.append_nil] at hsection
        rw [List.nil_append, sectionRemarks, hfields, outcome, hsection]
      | missing =>
        rw [hsilent (by simp [Supplies, hliteral, hfound]), List.append_nil]
        rfl
      | failed reason =>
        rw [hsilent (by simp [Supplies, hliteral, hfound]), List.append_nil]
        rfl
    rw [sourceIssues_literal lookup implicit hliteral, hissues]
    exact yields_ask category _

theorem yields_scope (cs : List Command) :
    Yields lookup s all (scopeIssues lookup implicit cs) (mentions cs)
      (scopeRemarks (lookup.answer s all.eraseDups) implicit cs) := by
  induction cs with
  | nil => exact yields_pure lookup s all []
  | cons c cs ih =>
    rw [scopeIssues, scopeRemarks, mentions, List.flatMap_cons, ← mentions]
    split
    · exact (yields_source lookup s all implicit c cs).append ih
    · exact ih

theorem yields_scopes (scopes : List Scope) :
    Yields lookup s all (scopesIssues lookup implicit scopes)
      (scopes.flatMap fun scope => mentions scope.commands)
      (scopes.flatMap fun scope =>
        eachAfter (remarks (lookup.answer s all.eraseDups) implicit) [] scope.commands) := by
  induction scopes with
  | nil => exact yields_pure lookup s all []
  | cons scope scopes ih =>
    have hscope : eachAfter (remarks (lookup.answer s all.eraseDups) implicit) [] scope.commands =
        scopeRemarks (lookup.answer s all.eraseDups) implicit scope.commands :=
      scopeRemarks_eq _ implicit [] scope.commands
    rw [scopesIssues, List.flatMap_cons, List.flatMap_cons, hscope]
    exact (yields_scope lookup s all implicit scope.commands).append ih

end Walk

def categories (d : Document) : List Text :=
  (d.scopes.flatMap fun scope => mentions scope.commands).eraseDups

/-- A check asks for the categories of the document one after the other. The issues are what is said of
the commands with these answers. -/
theorem check_eq {σ : Type} (d : Document) (lookup : Lookup σ) (s : σ) :
    check d lookup s =
      (d.scopes.flatMap fun scope =>
          eachAfter (remarks (lookup.answer s (categories d)) d.dialect.implicitFields) [] scope.commands,
        lookup.after s (categories d),
        (categories d).flatMap (failures (lookup.answer s (categories d)))) := by
  obtain ⟨hissues, hsource, -, hlog⟩ := yields_scopes lookup s
    (d.scopes.flatMap fun scope => mentions scope.commands) d.dialect.implicitFields d.scopes [] []
    ⟨s, [], []⟩ (by simp) Inquiry.follows_start
  rw [check]
  exact Prod.ext hissues (Prod.ext hsource hlog)

def DrawsOn (before : List Command) (source : Command) (between : List Command) : Prop :=
  ∃ front, before = front ++ source :: between ∧ source.hasRole .source ∧
    ∀ c ∈ between, ¬c.hasRole .source

/-- The issues at a command behind others are those that the field rules are meant to find. -/
structure Judged (answers : Text → Finding) (implicit : List Text) (before : List Command) (c : Command)
    (issues : List Issue) : Prop where
  /-- A source without a text that names its category. -/
  unnamed : c.hasRole .source → c.declaredName? = none → issues = []
  parameter : ∀ name, c.hasRole .source → c.declaredName? = some name → Value.namesParameter name →
    issues = [parameterIssue c name]
  unavailable : ∀ category, c.hasRole .source → literalCategory? c = some category →
    (∀ fields, answers category ≠ .found fields) → issues = [unavailableIssue c category]
  available : ∀ category fields, c.hasRole .source → Supplies answers c category fields → issues = []
  /-- A command that is no source is judged field by field, where the nearest source has fields. -/
  unknown : ∀ source between category fields, ¬c.hasRole .source → DrawsOn before source between →
    Supplies answers source category fields →
    issues = (c.referencedFields.filter fun name => Unknown fields implicit between name).map
      (unknownField category source c)
  unchecked : ∀ source between, ¬c.hasRole .source → DrawsOn before source between →
    (¬∃ category fields, Supplies answers source category fields) → issues = []
  sourceless : ¬c.hasRole .source → (∀ c' ∈ before, ¬c'.hasRole .source) → issues = []

section Judged
variable (answers : Text → Finding) (implicit : List Text) (before : List Command) (c : Command)

theorem remarks_drawsOn {source : Command} {between : List Command} (hc : ¬c.hasRole .source)
    (h : DrawsOn before source between) :
    remarks answers implicit before c = fieldRemarks answers implicit source between c := by
  obtain ⟨front, rfl, hsource, hbetween⟩ := h
  obtain ⟨hlast, hsince⟩ := lastSource?_split front hsource
    fun c' hc' => Bool.eq_false_iff.2 (hbetween c' hc')
  rw [remarks, if_neg hc, hlast, hsince]

theorem judged_remarks : Judged answers implicit before c (remarks answers implicit before c) where
  unnamed := by
    intro hc hname
    rw [remarks, if_pos hc, sourceRemarks, hname]
  parameter := by
    intro name hc hname hparameter
    rw [remarks, if_pos hc, sourceRemarks, hname]
    exact if_pos hparameter
  unavailable := by
    intro category hc hcategory hanswer
    rw [remarks, if_pos hc, sourceRemarks_of_literal hcategory]
    cases hfound : answers category with
    | found fields => exact absurd hfound (hanswer fields)
    | missing => rfl
    | failed reason => rfl
  available := by
    rintro category fields hc ⟨hcategory, hfound⟩
    rw [remarks, if_pos hc, sourceRemarks_of_literal hcategory, hfound]
  unknown := by
    intro source between category fields hc hdraws hsupplies
    rw [remarks_drawsOn answers implicit before c hc hdraws, fieldRemarks_of_supplies hsupplies]
  unchecked := by
    intro source between hc hdraws hnone
    rw [remarks_drawsOn answers implicit before c hc hdraws, fieldRemarks_of_not_supplies hnone]
  sourceless := by
    intro hc hbefore
    rw [remarks, if_neg hc, lastSource?_eq_none fun c' hc' => Bool.eq_false_iff.2 (hbefore c' hc')]

theorem remarks_at : ∀ i ∈ remarks answers implicit before c, i.At c := by
  intro i hi
  unfold remarks sourceRemarks fieldRemarks at hi
  split at hi
  · split at hi
    · cases hi
    · split at hi
      · exact List.mem_singleton.1 hi ▸ at_ofCommand ..
      · split at hi
        · cases hi
        · exact List.mem_singleton.1 hi ▸ at_ofCommand ..
  · split at hi
    · cases hi
    · split at hi
      · obtain ⟨name, -, rfl⟩ := List.mem_map.1 hi
        exact at_ofCommand ..
      · cases hi

end Judged

/-- The issues are what is said of the commands, one after the other, with the answers of the lookup, and
what is said is what the rules mean. Where commands are told apart by their indices, that is what is
found at each. -/
theorem check_judged {σ : Type} (d : Document) (lookup : Lookup σ) (s : σ) :
    let answers := lookup.answer s (categories d)
    let said := remarks answers d.dialect.implicitFields
    let found := (check d lookup s).1
    found = (d.scopes.flatMap fun scope => eachAfter said [] scope.commands) ∧
    (∀ before c, Judged answers d.dialect.implicitFields before c (said before c)) ∧
    (((d.scopes.flatMap Scope.commands).map Command.index).Nodup →
      ∀ scope ∈ d.scopes, ∀ (before : List Command) (c : Command) (after : List Command),
        scope.commands = before ++ c :: after → foundAt c found = said before c) := by
  intro answers said found
  have hfound : found = d.scopes.flatMap fun scope => eachAfter said [] scope.commands :=
    congrArg Prod.fst (check_eq d lookup s)
  refine ⟨hfound, judged_remarks _ _, fun hnodup scope hscope before c after hcommands => ?_⟩
  rw [hfound]
  exact foundAt_scopes hnodup (f := fun _ => said) (fun _ earlier c => remarks_at _ _ earlier c) hscope
    hcommands

/-- A projection of a field that the category lacks. -/
theorem check_projection :
    let d := parse Dialect.pipeline "SOURCE a\nPROJECT [x, y]"
    ∃ c c', d.root = [c, c'] ∧
      foundAt c' (check d (fun _ s => (.found ["x"], s)) ()).1 = [unknownField "a" c c' "y"] := by
  intro d
  have hshape : d.root.map (fun c => (c.hasRole .source, literalCategory? c, c.referencedFields)) =
      [(true, some (Text.ofString "a"), []), (false, none, [Text.ofString "x", Text.ofString "y"])] := by
    decide +kernel
  obtain ⟨c, cs, hroot, hc, hcs⟩ := List.map_eq_cons_iff.1 hshape
  obtain ⟨c', rfl, hc'⟩ := List.map_eq_singleton_iff.1 hcs
  simp only [Prod.mk.injEq] at hc hc'
  obtain ⟨hsource, hcategory, -⟩ := hc
  obtain ⟨hsource', -, hfields⟩ := hc'
  obtain ⟨-, hjudged, hat⟩ := check_judged d (fun _ s => (.found ["x"], s)) ()
  have hunknown := (hjudged [c] c').unknown c [] "a" ["x"] (by simp [hsource'])
    ⟨[], rfl, hsource, by simp⟩ ⟨hcategory, rfl⟩
  refine ⟨c, c', hroot, ?_⟩
  rw [hat (nodup_index_scopes _ _) d.rootScope List.mem_cons_self [c] c' [] hroot, hunknown, hfields]
  have hx : ¬Unknown [Text.ofString "x"] d.dialect.implicitFields [] "x" := by simp [Unknown]
  have hy : Unknown [Text.ofString "x"] d.dialect.implicitFields [] "y" := by decide +kernel
  simp [hx, hy]

end Rules.Fields
end QueryLint
