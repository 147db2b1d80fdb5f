import QueryLint.Proofs.Merging

/-!
What the options of an analysis change in its report.

A query is valid unless some rule that is not disabled finds something critical, and only the
structural rules and the ordering rules can. Each option has findings of its own: a lookup those of
the field rules, the time range and the ratio those about granularity, the disabled rules their
own. All other findings stay, in their order.
-/

namespace QueryLint
set_option autoImplicit false

open Document Issue

namespace Rules.Fields

def rules : List Rule := [.unknownField, .categoryParameter, .categoryMetadataUnavailable]

theorem madeAt_section (category : Text) (source : Command) (known : List Text) (cs : List Command) :
    ∀ i ∈ sectionIssues category source known cs, i.MadeAt rules cs := by
  induction cs generalizing known with
  | nil => simp [sectionIssues]
  | cons c cs ih =>
    refine List.forall_mem_append.2 ⟨fun i hi => ?_, fun i hi => (ih _ i hi).mono (by simp)⟩
    obtain ⟨name, -, rfl⟩ := List.mem_map.1 hi
    exact madeAt_ofCommand (by simp [rules]) List.mem_cons_self _ _

section Lookup
variable {σ : Type} (lookup : Lookup σ) (implicit : List Text)

theorem madeAt_source (source : Command) (following : List Command) (q : Inquiry σ) :
    ∀ i ∈ (sourceIssues lookup implicit source following q).1,
      i.MadeAt rules (source :: following) := by
  have hone : ∀ rule ∈ rules, ∀ message suggestion, ∀ i ∈ [ofCommand source rule message suggestion],
      i.MadeAt rules (source :: following) := by
    intro rule hrule message suggestion i hi
    rw [List.mem_singleton.1 hi]
    exact madeAt_ofCommand hrule List.mem_cons_self _ _
  unfold sourceIssues
  cases source.declaredName? with
  | none => exact fun i hi => absurd hi List.not_mem_nil
  | some category =>
    dsimp only
    split
    · exact hone .categoryParameter (by simp [rules]) _ _
    · simp only [bind, StateT.bind]
      split
      rename_i finding q' _
      cases finding with
      | found fields =>
        intro i hi
        exact (madeAt_section category source _ following i hi).mono (List.subset_cons_self _ _)
      | missing => exact hone .categoryMetadataUnavailable (by simp [rules]) _ _
      | failed reason => exact hone .categoryMetadataUnavailable (by simp [rules]) _ _

theorem madeAt_scope (cs : List Command) (q : Inquiry σ) :
    ∀ i ∈ (scopeIssues lookup implicit cs q).1, i.MadeAt rules cs := by
  induction cs generalizing q with
  | nil => exact fun i hi => absurd hi List.not_mem_nil
  | cons c cs ih =>
    rw [scopeIssues]
    split
    · refine List.forall_mem_append.2 ⟨fun i hi => ?_, fun i hi => (ih _ i hi).mono (by simp)⟩
      refine (madeAt_source lookup implicit c _ q i hi).mono ?_
      exact List.cons_subset_cons c (List.takeWhile_subset _)
    · exact fun i hi => (ih q i hi).mono (by simp)

theorem madeAt_scopes (scopes : List Scope) (q : Inquiry σ) :
    ∀ i ∈ (scopesIssues lookup implicit scopes q).1, i.MadeAt rules (scopes.flatMap Scope.commands) := by
  induction scopes generalizing q with
  | nil => exact fun i hi => absurd hi List.not_mem_nil
  | cons scope scopes ih =>
    rw [scopesIssues]
    refine List.forall_mem_append.2 ⟨fun i hi => ?_, fun i hi => (ih _ i hi).mono (by simp)⟩
    exact (madeAt_scope lookup implicit scope.commands q i hi).mono (by simp)

end Lookup

end Rules.Fields

namespace Analysis
variable {σ : Type} (d : Document) (options : Options) (lookup : Option (Lookup σ)) (s : σ)

theorem madeAt_fields : ∀ i ∈ (findings d options lookup s).1.fields,
    i.MadeAt Rules.Fields.rules (d.scopes.flatMap Scope.commands) := by
  cases lookup with
  | none => simp [findings, fieldFindings]
  | some lookup =>
    exact Rules.Fields.madeAt_scopes lookup d.dialect.implicitFields d.scopes ⟨s, [], []⟩

theorem mild_fields : Mild (findings d options lookup s).1.fields := by
  intro i hi
  exact (madeAt_fields d options lookup s i hi).severity_ne (by simp [Rules.Fields.rules, Rule.severity])

end Analysis

namespace Rules.Performance

def isOther (i : Issue) : Bool := !List.contains [Rule.code .excessiveGranularity] i.code

section
variable (ratio ratio' : Number) (range range' : Option Number)

theorem other_granularity (c : Command) : (granularityIssues ratio range c).filter isOther = [] := by
  unfold granularityIssues
  split
  · dsimp only
    split
    · simp [isOther, ofCommand]
    · rfl
  · rfl

theorem progress_visit (p : Progress) (c : Command) :
    (visit ratio range p c).1 = (visit ratio' range' p c).1 := by
  unfold visit
  split <;> rfl

theorem other_visit (p : Progress) (c : Command) :
    (visit ratio range p c).2.filter isOther = (visit ratio' range' p c).2.filter isOther := by
  unfold visit
  split
  case h_3 => simp only [other_granularity]
  all_goals rfl

theorem other_walk (p : Progress) (cs : List Command) :
    (walk ratio range p cs).filter isOther = (walk ratio' range' p cs).filter isOther := by
  induction cs generalizing p with
  | nil => rfl
  | cons c cs ih =>
    simp only [walk, List.filter_append, progress_visit ratio ratio' range range' p c,
      other_visit ratio ratio' range range' p c, ih]

end

theorem other_issues (d : Document) (range range' ratio ratio' : Option Number) :
    (issues d range ratio).filter isOther = (issues d range' ratio').filter isOther := by
  simp only [issues, scopeIssues, List.filter_append, List.filter_flatMap]
  congr 2
  · exact other_walk _ _ _ _ _ _
  · congr 1
    funext b
    exact other_walk _ _ _ _ _ _

end Rules.Performance

/-- The reports agree on validity and, but for the issues of some codes, on all issues and their
order. -/
structure Report.AgreeBut (codes : List Text) (r r' : Report) : Prop where
  valid : r.valid = r'.valid
  issues : r.issues.filter (fun i => !codes.contains i.code) =
    r'.issues.filter fun i => !codes.contains i.code

theorem Report.length_summarize (issues : List Issue) : (summarize issues).critical +
    (summarize issues).warning + (summarize issues).info = issues.length := by
  simp only [summarize, count]
  induction issues with
  | nil => rfl
  | cons i is ih =>
    simp only [List.countP_cons, List.length_cons]
    cases i.severity <;> simp <;> omega

namespace Analysis
variable {σ τ : Type} (dialect : Dialect) (options : Options) (elapsed elapsed' : Elapsed)
variable (lookup : Option (Lookup σ)) (s : σ) (text : Text)

/-- The findings that the report of a query is made of. -/
abbrev findingsOf (options : Options) (lookup : Option (Lookup σ)) (s : σ) : Findings :=
  (findings (parse dialect text) options lookup s).1

/-- The five passes, in the order in which they are merged. -/
theorem lists_findingsOf : (findingsOf dialect text options lookup s).lists =
    [Rules.Structure.issues (parse dialect text), Rules.Ordering.issues (parse dialect text),
      (fieldFindings (parse dialect text) lookup s).1,
      Rules.Performance.issues (parse dialect text) options.timeRange options.granularityRatio,
      Rules.Style.issues (parse dialect text)] := rfl

theorem ruled_findings :
    ∀ i ∈ (findingsOf dialect text options lookup s).lists.flatten, i.Ruled := by
  simp only [lists_findingsOf, List.flatten_cons, List.flatten_nil, List.append_nil, List.forall_mem_append]
  exact ⟨Rules.Structure.ruled_issues dialect text,
    fun i hi => (Rules.Ordering.ruled_issues _ i hi).ruled,
    fun i hi => (madeAt_fields _ options lookup s i hi).ruled,
    fun i hi => (Rules.Performance.madeAt_issues _ _ _ i hi).ruled,
    fun i hi => (Rules.Style.madeAt_issues _ i hi).ruled⟩

theorem issues_run : (run dialect options elapsed lookup s text).report.issues =
    merge (findingsOf dialect text options lookup s).lists options.disabledRules := rfl

theorem valid_run_merge : (run dialect options elapsed lookup s text).report.valid = true ↔
    ∀ i ∈ (findingsOf dialect text options lookup s).lists.flatten,
      i.severity = .critical → i.code ∈ options.disabledRules :=
  (Report.valid_ofIssues _ _).trans
    (mild_merge (ruled_findings dialect options lookup s text) options.disabledRules)

/-- Validity depends on the structural rules, the ordering rules and the disabled rules. -/
theorem valid_run_grave : (run dialect options elapsed lookup s text).report.valid = true ↔
    ∀ i ∈ Rules.Structure.issues (parse dialect text) ++ Rules.Ordering.issues (parse dialect text),
      i.severity = .critical → i.code ∈ options.disabledRules := by
  have hadvice : ∀ {found : List Issue}, Mild found →
      ∀ i ∈ found, i.severity = .critical → i.code ∈ options.disabledRules :=
    fun hmild i hi hcritical => absurd hcritical (hmild i hi)
  rw [valid_run_merge, lists_findingsOf]
  simp only [List.flatten_cons, List.flatten_nil, List.append_nil, List.forall_mem_append]
  refine and_congr_right fun _ => and_iff_left ⟨?_, ?_, ?_⟩
  · exact hadvice (mild_fields _ options lookup s)
  · exact hadvice (Rules.Performance.mild_issues _ _ _)
  · exact hadvice (Rules.Style.mild_issues _)

/-- A query is valid if every critical finding belongs to a disabled rule. Findings about fields,
performance and style are never critical, and the summary counts all issues. -/
theorem valid_iff_disabled :
    ((run dialect options elapsed lookup s text).report.valid = true ↔
      ∀ issues ∈ [Rules.Structure.issues (parse dialect text), Rules.Ordering.issues (parse dialect text),
          (fieldFindings (parse dialect text) lookup s).1,
          Rules.Performance.issues (parse dialect text) options.timeRange options.granularityRatio,
          Rules.Style.issues (parse dialect text)],
        ∀ i ∈ issues, i.severity = .critical → i.code ∈ options.disabledRules) ∧
    (∀ issues ∈ [(fieldFindings (parse dialect text) lookup s).1,
        Rules.Performance.issues (parse dialect text) options.timeRange options.granularityRatio,
        Rules.Style.issues (parse dialect text)],
      ∀ i ∈ issues, i.severity ≠ .critical) ∧
    (run dialect options elapsed lookup s text).report.summary.critical +
        (run dialect options elapsed lookup s text).report.summary.warning +
        (run dialect options elapsed lookup s text).report.summary.info =
      (run dialect options elapsed lookup s text).report.issues.length := by
  refine ⟨?_, ?_, Report.length_summarize _⟩
  · rw [valid_run_merge, ← lists_findingsOf]
    simp only [List.mem_flatten, forall_exists_index, and_imp]
    exact ⟨fun h issues hissues i hi => h i issues hissues hi,
      fun h i issues hissues hi => h issues hissues i hi⟩
  · simp only [List.forall_mem_cons, List.not_mem_nil, false_imp_iff, implies_true, and_true]
    exact ⟨mild_fields _ options lookup s, Rules.Performance.mild_issues _ _ _,
      Rules.Style.mild_issues _⟩

theorem agreeBut_of_lists {codes : List Text} {options options' : Options} {lookup : Option (Lookup σ)}
    {lookup' : Option (Lookup τ)} {s : σ} {s' : τ}
    (hdisabled : options.disabledRules = options'.disabledRules)
    (hlists : (findingsOf dialect text options lookup s).lists.map
        (List.filter fun i => !codes.contains i.code) =
      (findingsOf dialect text options' lookup' s').lists.map
        (List.filter fun i => !codes.contains i.code)) :
    (run dialect options elapsed lookup s text).report.AgreeBut codes
      (run dialect options' elapsed' lookup' s' text).report where
  valid := by
    rw [Bool.eq_iff_iff, valid_run_grave, valid_run_grave, hdisabled]
  issues := by
    rw [issues_run, issues_run, filter_merge (ruled_findings dialect options lookup s text)
      fun code => !codes.contains code, filter_merge (ruled_findings dialect options' lookup' s' text)
      fun code => !codes.contains code, hlists, hdisabled]

/-- Lookups only bring findings about fields, time ranges and ratios only findings about
granularity, and disabled rules only take their own findings away. -/
theorem options_independent (options : Options) :
    (∀ (lookup : Option (Lookup σ)) (s : σ) (lookup' : Option (Lookup τ)) (s' : τ),
      (run dialect options elapsed lookup s text).report.AgreeBut
        [Rule.code .unknownField, Rule.code .categoryParameter, Rule.code .categoryMetadataUnavailable]
        (run dialect options elapsed' lookup' s' text).report) ∧
    (∀ (lookup : Option (Lookup σ)) (s : σ) (range range' ratio ratio' : Option Number),
      (run dialect { options with timeRange := range, granularityRatio := ratio } elapsed lookup s
          text).report.AgreeBut [Rule.code .excessiveGranularity]
        (run dialect { options with timeRange := range', granularityRatio := ratio' } elapsed' lookup s
          text).report) ∧
    ∀ (lookup : Option (Lookup σ)) (s : σ) (disabled : List Text),
      (run dialect { options with disabledRules := disabled } elapsed lookup s text).report.issues =
        (run dialect { options with disabledRules := [] } elapsed' lookup s text).report.issues.filter
          fun i => !disabled.contains i.code := by
  refine ⟨?_, ?_, ?_⟩
  · intro lookup s lookup' s'
    refine agreeBut_of_lists dialect elapsed elapsed' text rfl ?_
    have hnone : ∀ {ρ : Type} (lookup : Option (Lookup ρ)) (s : ρ),
        (findingsOf dialect text options lookup s).fields.filter
          (fun i => !(Rules.Fields.rules.map Rule.code).contains i.code) = [] := by
      intro ρ lookup s
      refine List.filter_eq_nil_iff.2 fun i hi => ?_
      simpa using (madeAt_fields _ options lookup s i hi).code_mem
    have hfields := (hnone lookup s).trans (hnone lookup' s').symm
    simp only [Findings.lists, List.map_cons, List.map_nil]
    exact congrArg (fun fields => [_, _, fields, _, _]) hfields
  · intro lookup s range range' ratio ratio'
    refine agreeBut_of_lists dialect elapsed elapsed' text rfl ?_
    simp only [Findings.lists, List.map_cons, List.map_nil]
    exact congrArg (fun performance => [_, _, _, performance, _])
      (Rules.Performance.other_issues (parse dialect text) range range' ratio ratio')
  · intro lookup s disabled
    rw [issues_run, issues_run]
    exact merge_disabled (ruled_findings dialect options lookup s text) disabled

end Analysis
end QueryLint
