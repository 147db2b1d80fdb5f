import QueryLint.Proofs.Findings
import QueryLint.Proofs.Records
import QueryLint.Proofs.Verdicts

/-!
What the performance rules report.

The record that a walk keeps is determined by the commands behind it: whether one of them groups, and
which functions their aggregates use on each field. So what is reported at a command depends on the
commands before it in its scope alone, and no scope has a say in another.
-/

namespace QueryLint
set_option autoImplicit false

open Document Issue
open Rules.Ordering (ReportedIff reported reported_eq_tally)

namespace Rules.Performance

/-- The fields of an aggregate, each with the function that is used on it. Other commands use none,
and neither does an aggregate without a function. -/
def uses (c : Command) : List (Text × Text) :=
  if c.hasRole .aggregate then
    match c.aggregateFunction? with
    | none => []
    | some function => c.referencedFields.map fun target => (target, function)
  else []

/-- The functions used on a field, each once, in the order of first use. -/
def functionsOn (used : List (Text × Text)) (target : Text) : List Text :=
  ((used.filter fun use => use.1 = target).map Prod.snd).eraseDups

theorem mem_functionsOn {used : List (Text × Text)} {target function : Text} :
    function ∈ functionsOn used target ↔ (target, function) ∈ used := by
  simp [functionsOn]

theorem functionsOn_append_self (used : List (Text × Text)) (target function : Text) :
    functionsOn (used ++ [(target, function)]) target =
      if (target, function) ∈ used then functionsOn used target
      else functionsOn used target ++ [function] := by
  have hlist : ((used ++ [(target, function)]).filter fun use => use.1 = target).map Prod.snd =
      (used.filter fun use => use.1 = target).map Prod.snd ++ [function] := by simp
  have hmem : function ∈ (used.filter fun use => use.1 = target).map Prod.snd ↔
      (target, function) ∈ used := by simp
  rw [functionsOn, hlist, eraseDups_concat, functionsOn]
  simp only [hmem]

theorem functionsOn_append_other {target other : Text} (h : other ≠ target) (function : Text)
    (used : List (Text × Text)) :
    functionsOn (used ++ [(other, function)]) target = functionsOn used target := by
  simp [functionsOn, h]

/-- The record lists the functions used on each field, and no field on which none is used. -/
def Lists (functions : Record (List Text)) (used : List (Text × Text)) : Prop :=
  ∀ target, Record.get? functions target =
    if functionsOn used target = [] then none else some (functionsOn used target)

theorem Lists.set {functions : Record (List Text)} {used : List (Text × Text)} (h : Lists functions used)
    (target function : Text) :
    Lists (Record.set target (functionsOn (used ++ [(target, function)]) target) functions)
      (used ++ [(target, function)]) := by
  intro other
  rw [Record.get?_set]
  by_cases hother : other = target
  · subst hother
    have hmem : function ∈ functionsOn (used ++ [(other, function)]) other :=
      mem_functionsOn.2 (by simp)
    rw [if_pos rfl, if_neg (List.ne_nil_of_mem hmem)]
  · rw [if_neg hother, h other, functionsOn_append_other (Ne.symm hother)]

theorem Lists.again {functions : Record (List Text)} {used : List (Text × Text)}
    (h : Lists functions used) {target function : Text} (hmem : (target, function) ∈ used) :
    Lists functions (used ++ [(target, function)]) := by
  intro other
  rw [h other]
  by_cases hother : other = target
  · subst hother
    rw [functionsOn_append_self, if_pos hmem]
  · rw [functionsOn_append_other (Ne.symm hother)]

def Recurs (used : List (Text × Text)) (target function : Text) : Prop :=
  (∃ use ∈ used, use.1 = target) ∧ (target, function) ∉ used

instance (used : List (Text × Text)) (target function : Text) : Decidable (Recurs used target function) :=
  inferInstanceAs (Decidable (_ ∧ _))

def recursIssue (c : Command) (used : List (Text × Text)) (target function : Text) : Issue :=
  .ofCommand c .combineAggregations
    ("'" ++ target ++ "' is aggregated again with " ++ function ++ " (already " ++
      Text.join ", " (functionsOn used target) ++ ")")
    (some "Combine aggregations of the same field into one command")

/-- What is said of one field of an aggregate, with the uses before the command and the fields before
it in the command. -/
def recursIssues (c : Command) (function : Text) (used : List (Text × Text)) (earlier : List Text)
    (target : Text) : List Issue :=
  let used := used ++ earlier.map fun field => (field, function)
  if Recurs used target function then [recursIssue c used target function] else []

theorem functionsOn_eq_nil {used : List (Text × Text)} {target : Text} :
    functionsOn used target = [] ↔ ¬∃ use ∈ used, use.1 = target := by
  simp [List.eq_nil_iff_forall_not_mem, mem_functionsOn]

theorem aggregate_eq (c : Command) (function : Text) (used : List (Text × Text))
    (earlier targets : List Text) {functions : Record (List Text)}
    (h : Lists functions (used ++ earlier.map fun field => (field, function))) :
    Lists (aggregate c function functions targets).1
        (used ++ (earlier ++ targets).map fun field => (field, function)) ∧
      (aggregate c function functions targets).2 =
        eachAfter (recursIssues c function used) earlier targets := by
  induction targets generalizing functions earlier with
  | nil => simpa [aggregate, eachAfter] using h
  | cons target targets ih =>
    have hstep : ∀ {functions' : Record (List Text)}, Lists functions'
        ((used ++ earlier.map fun field => (field, function)) ++ [(target, function)]) →
        Lists (aggregate c function functions' targets).1
            (used ++ (earlier ++ target :: targets).map fun field => (field, function)) ∧
          (aggregate c function functions' targets).2 =
            eachAfter (recursIssues c function used) (earlier ++ [target]) targets := by
      intro functions' h'
      simpa using ih (earlier ++ [target]) (by simpa using h')
    rw [aggregate, eachAfter, recursIssues]
    dsimp only
    generalize (used ++ earlier.map fun field => (field, function)) = before at h hstep ⊢
    have hset := h.set target function
    rw [functionsOn_append_self] at hset
    rw [h target]
    by_cases hused : ∃ use ∈ before, use.1 = target
    · rw [if_neg (functionsOn_eq_nil.not.2 (not_not.2 hused))]
      simp only [List.contains_iff_mem, mem_functionsOn]
      by_cases hmem : (target, function) ∈ before
      · rw [if_pos hmem, if_neg fun hrecurs => hrecurs.2 hmem, List.nil_append]
        exact hstep (h.again hmem)
      · rw [if_neg hmem] at hset
        obtain ⟨hlists, hissues⟩ := hstep hset
        rw [if_neg hmem, if_pos ⟨hused, hmem⟩]
        exact ⟨hlists, congrArg _ hissues⟩
    · have hmem : (target, function) ∉ before := fun hmem => hused ⟨_, hmem, rfl⟩
      have hnone := functionsOn_eq_nil.2 hused
      rw [if_neg hmem, hnone, List.nil_append] at hset
      rw [if_pos hnone, if_neg fun hrecurs => hused hrecurs.1, List.nil_append]
      exact hstep hset

def FiltersLate (before : List Command) (c : Command) : Prop :=
  c.hasRole .filter ∧ ∃ g ∈ before, g.hasRole .group

instance (before : List Command) (c : Command) : Decidable (FiltersLate before c) :=
  inferInstanceAs (Decidable (_ ∧ _))

def ProjectsAll (c : Command) : Prop := c.hasRole .projection ∧ ∃ v ∈ c.payload, ("*" : Text) ∈ v.texts

instance (c : Command) : Decidable (ProjectsAll c) := inferInstanceAs (Decidable (_ ∧ _))

/-- The range has more of the command's time buckets than the ratio allows. -/
def TooFine (ratio : Number) (range : Option Number) (c : Command) : Prop :=
  ∃ whole ∈ range, ∃ bucket ∈ c.timeBucket?.bind Duration.ofValue?, ratio.lt (whole / bucket)

def recurring (before : List Command) (c : Command) : List Issue :=
  if c.hasRole .aggregate then
    match c.aggregateFunction? with
    | none => []
    | some function => eachAfter (recursIssues c function (before.flatMap uses)) [] c.referencedFields
  else []

def lateIssue (c : Command) : Issue :=
  .ofCommand c .lateFilter (c.name ++ " after grouping processes a larger-than-necessary dataset")
    (some "Move the filter before the grouping command")

def wildcardIssue (c : Command) : Issue :=
  .ofCommand c .wildcardProjection (c.name ++ " projects every field with '*'")
    (some "List only the fields the query needs")

def advice (ratio : Number) (range : Option Number) (before : List Command) (c : Command) : List Issue :=
  (if FiltersLate before c then [lateIssue c] else []) ++
    (if ProjectsAll c then [wildcardIssue c] else []) ++
    (if c.hasRole .group then granularityIssues ratio range c else []) ++ recurring before c

structure Progress.Follows (p : Progress) (cs : List Command) : Prop where
  grouped : p.grouped = true ↔ ∃ g ∈ cs, g.hasRole .group
  functions : Lists p.functions (cs.flatMap uses)

theorem Progress.follows_start : Progress.start.Follows [] :=
  ⟨by simp [Progress.start], fun _ => rfl⟩

section Walk
variable (ratio : Number) (range : Option Number) {p : Progress} {before : List Command}

theorem Progress.Follows.skip (h : p.Follows before) {c : Command} (hgroup : c.hasRole .group = false)
    (huses : uses c = []) : p.Follows (before ++ [c]) where
  grouped := by simpa [or_and_right, exists_or, hgroup] using h.grouped
  functions := by simpa [huses] using h.functions

theorem visit_eq (h : p.Follows before) (c : Command) :
    (visit ratio range p c).1.Follows (before ++ [c]) ∧
      (visit ratio range p c).2 = advice ratio range before c := by
  have hhas : ∀ role, c.hasRole role = decide (c.role? = some role) := fun _ => rfl
  unfold visit
  cases hrole : c.role? with
  | none =>
    refine ⟨h.skip (by simp [hhas, hrole]) (by simp [uses, hhas, hrole]), ?_⟩
    simp [advice, FiltersLate, ProjectsAll, recurring, hhas, hrole]
  | some role =>
    cases role with
    | filter =>
      refine ⟨h.skip (by simp [hhas, hrole]) (by simp [uses, hhas, hrole]), ?_⟩
      simp [advice, FiltersLate, ProjectsAll, recurring, hhas, hrole, h.grouped, lateIssue]
    | projection =>
      refine ⟨h.skip (by simp [hhas, hrole]) (by simp [uses, hhas, hrole]), ?_⟩
      cases hpayload : c.payload <;>
        simp [advice, FiltersLate, ProjectsAll, recurring, hhas, hrole, hpayload, wildcardIssue]
    | group =>
      refine ⟨⟨by simp [hhas, hrole], by simpa [uses, hhas, hrole] using h.functions⟩, ?_⟩
      simp [advice, FiltersLate, ProjectsAll, recurring, hhas, hrole]
    | aggregate =>
      have haggregate : c.hasRole .aggregate = true := by simp [hhas, hrole]
      have hadvice : advice ratio range before c = recurring before c := by
        simp [advice, FiltersLate, ProjectsAll, hhas, hrole]
      rw [hadvice]
      cases hfunction : c.aggregateFunction? with
      | none => exact ⟨h.skip (by simp [hhas, hrole]) (by simp [uses, hfunction]), by
          simp [recurring, hfunction]⟩
      | some function =>
        have huses : uses c = c.referencedFields.map fun target => (target, function) := by
          simp [uses, haggregate, hfunction]
        have hrecurring : recurring before c =
            eachAfter (recursIssues c function (before.flatMap uses)) [] c.referencedFields := by
          simp [recurring, haggregate, hfunction]
        obtain ⟨hlists, hissues⟩ := aggregate_eq c function (before.flatMap uses) []
          c.referencedFields (by simpa using h.functions)
        refine ⟨⟨?_, ?_⟩, hissues.trans hrecurring.symm⟩
        · simpa [or_and_right, exists_or, hhas, hrole] using h.grouped
        · simpa [huses] using hlists
    | _ =>
      refine ⟨h.skip (by simp [hhas, hrole]) (by simp [uses, hhas, hrole]), ?_⟩
      simp [advice, FiltersLate, ProjectsAll, recurring, hhas, hrole]

theorem walk_eq (h : p.Follows before) (cs : List Command) :
    walk ratio range p cs = eachAfter (advice ratio range) before cs := by
  induction cs generalizing p before with
  | nil => rfl
  | cons c cs ih =>
    obtain ⟨hnext, hissues⟩ := visit_eq ratio range h c
    rw [walk, eachAfter, ← hissues, ← ih hnext]

end Walk

theorem timeRange_eq (cs : List Command) (fallback : Option Number) :
    timeRange? cs fallback = (timeRange? cs none).or fallback := by
  unfold timeRange?
  split
  · rfl
  · split <;> simp

def rangeOf (d : Document) (fallback : Option Number) (s : Scope) : Option Number :=
  ((timeRange? s.commands none).or (timeRange? d.root none)).or fallback

theorem issues_eq (d : Document) (fallback ratio : Option Number) :
    issues d fallback ratio = (d.scopes.flatMap fun s =>
        eachAfter (advice (ratio.getD defaultRatio) (rangeOf d fallback s)) [] s.commands) ++
      unboundedIssues d.root := by
  have hscope : ∀ s : Scope, scopeIssues (ratio.getD defaultRatio) (rangeOf d fallback s) s =
      eachAfter (advice (ratio.getD defaultRatio) (rangeOf d fallback s)) [] s.commands :=
    fun s => walk_eq _ _ Progress.follows_start s.commands
  have hroot : timeRange? d.root fallback = rangeOf d fallback d.rootScope := by
    rw [timeRange_eq, rangeOf]
    simp [rootScope]
  have hblock : ∀ b : Block, timeRange? b.commands (timeRange? d.root fallback) =
      rangeOf d fallback b.scope := by
    intro b
    rw [timeRange_eq, timeRange_eq d.root, ← Option.or_assoc]
    rfl
  rw [issues, scopes, List.flatMap_cons, List.flatMap_map]
  simp only [hblock, ← hscope]
  rw [hroot]

def IsStage (c : Command) : Prop := ¬c.hasRole .blockOpen ∧ ¬c.hasRole .blockClose

instance (c : Command) : Decidable (IsStage c) := inferInstanceAs (Decidable (_ ∧ _))

/-- A command that keeps the rows of the result within bounds. -/
def Bounds (c : Command) : Prop := c.hasRole .bound ∨ c.hasRole .group ∨ c.hasRole .aggregate

instance (c : Command) : Decidable (Bounds c) := inferInstanceAs (Decidable (_ ∨ _))

/-- The last step of a top level that nothing bounds. -/
def EndsUnbounded (s : Scope) (c : Command) (after : List Command) : Prop :=
  s.name = none ∧ (IsStage c ∧ ¬∃ c' ∈ after, IsStage c') ∧ ¬∃ c' ∈ s.commands, Bounds c'

instance (s : Scope) (c : Command) (after : List Command) : Decidable (EndsUnbounded s c after) :=
  inferInstanceAs (Decidable (_ ∧ _))

/-- Whether a rule is broken at a command of a scope that stands between the others. -/
def Breaks (ratio : Number) (range : Option Number) (s : Scope) (before : List Command) (c : Command)
    (after : List Command) : Rule → Prop
  | .lateFilter => FiltersLate before c
  | .wildcardProjection => ProjectsAll c
  | .excessiveGranularity => c.hasRole .group ∧ TooFine ratio range c
  | .unboundedResult => EndsUnbounded s c after
  | _ => False

/-- A time bucket is either too fine, which is said once, or nothing is said of it. -/
theorem granularity_cases (ratio : Number) (range : Option Number) (c : Command) :
    (TooFine ratio range c ∧ ∃ message suggestion,
        granularityIssues ratio range c = [.ofCommand c .excessiveGranularity message suggestion]) ∨
      (¬TooFine ratio range c ∧ granularityIssues ratio range c = []) := by
  unfold granularityIssues TooFine
  cases range with
  | none => simp
  | some whole =>
    cases c.timeBucket?.bind Duration.ofValue? with
    | none => simp
    | some bucket => by_cases hfine : ratio.lt (whole / bucket) = true <;> simp [hfine]

theorem recurring_cases {before : List Command} {c : Command} {i : Issue} (hi : i ∈ recurring before c) :
    ∃ used target function, i = recursIssue c used target function := by
  unfold recurring at hi
  split at hi
  · split at hi
    · cases hi
    · obtain ⟨front, target, back, -, hi⟩ := mem_eachAfter.1 hi
      unfold recursIssues at hi
      dsimp only at hi
      split at hi
      · exact ⟨_, target, _, List.mem_singleton.1 hi⟩
      · cases hi
  · cases hi

theorem tally_recurring {rule : Rule} (h : Rule.combineAggregations ≠ rule) (before : List Command)
    (c : Command) : tally rule (recurring before c) = 0 := by
  refine tally_eq_zero.2 fun i hi => ?_
  obtain ⟨used, target, function, rfl⟩ := recurring_cases hi
  exact Rule.code_inj.not.2 h

section Advice
variable (ratio : Number) (range : Option Number) (s : Scope) (before after : List Command) (c : Command)

theorem advice_at : ∀ i ∈ advice ratio range before c, i.At c := by
  intro i hi
  simp only [advice, List.mem_append, List.mem_ite_nil_right, List.mem_singleton] at hi
  rcases hi with ((⟨-, rfl⟩ | ⟨-, rfl⟩) | ⟨-, hi⟩) | hi
  · exact at_ofCommand ..
  · exact at_ofCommand ..
  · obtain ⟨c', hc', hat⟩ := (madeAt_granularity ratio range c i hi).located
    exact List.mem_singleton.1 hc' ▸ hat
  · obtain ⟨used, target, function, rfl⟩ := recurring_cases hi
    exact at_ofCommand ..

theorem tally_advice {rule : Rule} (hrule : rule ∈ rules) (hne : rule ≠ .combineAggregations)
    (hbound : rule ≠ .unboundedResult) :
    (Breaks ratio range s before c after rule → tally rule (advice ratio range before c) = 1) ∧
      (¬Breaks ratio range s before c after rule → tally rule (advice ratio range before c) = 0) := by
  rw [advice, tally_append, tally_recurring hne.symm]
  simp only [rules, List.mem_cons, List.not_mem_nil, or_false] at hrule
  rcases granularity_cases ratio range c with ⟨hfine, message, suggestion, hissues⟩ | ⟨hfine, hissues⟩ <;>
    rw [hissues] <;> rcases hrule with rfl | rfl | rfl | rfl | rfl <;>
    simp [Breaks, hfine, lateIssue, wildcardIssue] at hne hbound ⊢

theorem tally_unbounded_advice : tally .unboundedResult (advice ratio range before c) = 0 := by
  rw [advice, tally_append, tally_recurring (by decide)]
  rcases granularity_cases ratio range c with ⟨-, message, suggestion, hissues⟩ | ⟨-, hissues⟩ <;>
    simp [hissues, lateIssue, wildcardIssue]

theorem filter_advice : (advice ratio range before c).filter
      (fun i => i.code = Rule.combineAggregations.code) = recurring before c := by
  have hmany : (recurring before c).filter (fun i => i.code = Rule.combineAggregations.code) =
      recurring before c := by
    refine List.filter_eq_self.2 fun i hi => ?_
    obtain ⟨used, target, function, rfl⟩ := recurring_cases hi
    exact decide_eq_true rfl
  rw [advice, List.filter_append, hmany, filter_of_tally, List.nil_append]
  rcases granularity_cases ratio range c with ⟨-, message, suggestion, hissues⟩ | ⟨-, hissues⟩ <;>
    simp [hissues, lateIssue, wildcardIssue]

end Advice

def unboundedIssue (c : Command) : Issue :=
  .ofCommand c .unboundedResult "Query returns every row: no bound and no aggregation"
    (some "Add a bounding command (LIMIT / BOUND) or aggregate the result")

theorem Bounds.isStage {c : Command} (h : Bounds c) : IsStage c := by
  rcases h with h | h | h <;> simp_all [IsStage, Command.hasRole]

theorem unboundedIssues_eq (root : List Command) : unboundedIssues root =
    if ∃ c ∈ root, Bounds c then []
    else ((root.filter fun c => IsStage c).getLast?.map unboundedIssue).toList := by
  have hstages : (root.filter fun c => !c.hasRole .blockOpen && !c.hasRole .blockClose) =
      root.filter fun c => IsStage c := by
    refine List.filter_congr fun c _ => ?_
    simp [IsStage]
  have hbounded : (root.filter fun c => IsStage c).any (fun c =>
      c.hasRole .bound || c.hasRole .group || c.hasRole .aggregate) = decide (∃ c ∈ root, Bounds c) := by
    rw [Bool.eq_iff_iff, decide_eq_true_iff]
    simp only [List.any_eq_true, List.mem_filter, decide_eq_true_iff, Bool.or_eq_true, or_assoc]
    constructor
    · rintro ⟨c, ⟨hc, -⟩, hbound⟩
      exact ⟨c, hc, hbound⟩
    · rintro ⟨c, hc, hbound⟩
      exact ⟨c, ⟨hc, Bounds.isStage hbound⟩, hbound⟩
  rw [unboundedIssues, hstages, hbounded]
  cases (root.filter fun c => IsStage c).getLast? with
  | none => simp
  | some last => simp [unboundedIssue]

/-- The last of the elements that pass a test is known by what comes behind it. -/
theorem getLast?_filter_eq_some {α : Type} {p : α → Bool} {before after : List α} {x : α}
    (hnodup : (before ++ x :: after).Nodup) :
    ((before ++ x :: after).filter p).getLast? = some x ↔ p x = true ∧ ¬∃ y ∈ after, p y = true := by
  have hsplit : ((before ++ x :: after).filter p).getLast? =
      (after.filter p).getLast?.or ((before ++ [x]).filter p).getLast? := by
    rw [← List.getLast?_append, ← List.filter_append, List.append_assoc, List.singleton_append]
  rw [hsplit]
  by_cases hafter : ∃ y ∈ after, p y = true
  · obtain ⟨y, hy, hpy⟩ := hafter
    have hne : after.filter p ≠ [] := List.ne_nil_of_mem (List.mem_filter.2 ⟨hy, hpy⟩)
    have hlast := (List.mem_filter.1 (List.getLast_mem hne)).1
    have hother : x ∉ after := (List.nodup_cons.1 (List.nodup_append.1 hnodup).2.1).1
    rw [List.getLast?_eq_some_getLast hne, Option.some_or, Option.some_inj]
    exact iff_of_false (fun heq => hother (heq ▸ hlast)) fun h => h.2 ⟨y, hy, hpy⟩
  · have hnone : after.filter p = [] :=
      List.filter_eq_nil_iff.2 fun y hy hpy => hafter ⟨y, hy, hpy⟩
    rw [hnone, List.getLast?_nil, Option.none_or, List.filter_append]
    cases hpx : p x with
    | true => simp [hpx, hafter]
    | false =>
      rw [List.filter_cons_of_neg (by simp [hpx]), List.filter_nil, List.append_nil]
      refine iff_of_false (fun hlast => ?_) (by simp)
      have hmem := List.mem_of_getLast? hlast
      simp [hpx] at hmem

/-- The whole query is judged at its last step. -/
theorem foundAt_unbounded {root before after : List Command} {c : Command}
    (hnodup : (root.map Command.index).Nodup) (hroot : root = before ++ c :: after) :
    foundAt c (unboundedIssues root) =
      if (IsStage c ∧ ¬∃ c' ∈ after, IsStage c') ∧ ¬∃ c' ∈ root, Bounds c' then [unboundedIssue c]
      else [] := by
  have hlast := getLast?_filter_eq_some (p := fun c => decide (IsStage c))
    (hroot ▸ List.Nodup.of_map Command.index hnodup)
  simp only [decide_eq_true_eq, ← hroot] at hlast
  rw [unboundedIssues_eq]
  by_cases hbounds : ∃ c' ∈ root, Bounds c'
  · rw [if_pos hbounds, if_neg fun h => h.2 hbounds]
    rfl
  · rw [if_neg hbounds]
    simp only [hbounds, not_false_eq_true, and_true]
    cases hstage : (root.filter fun c => decide (IsStage c)).getLast? with
    | none =>
      rw [if_neg fun h => Option.some_ne_none c ((hlast.2 h).symm.trans hstage)]
      rfl
    | some last =>
      have hmem : last ∈ root := (List.mem_filter.1 (List.mem_of_getLast? hstage)).1
      rw [hstage, Option.some_inj] at hlast
      by_cases heq : last = c
      · rw [if_pos (hlast.1 heq), heq]
        exact foundAt_eq_self (by simp [unboundedIssue])
      · rw [if_neg (hlast.not.1 heq)]
        refine foundAt_eq_nil fun i hi => ⟨last, ?_, fun hindex => heq ?_⟩
        · simp only [Option.map_some, Option.toList_some, List.mem_singleton] at hi
          exact hi ▸ at_ofCommand ..
        · exact List.inj_on_of_nodup_map hnodup hmem (by simp [hroot]) hindex

/-- The issues at a command: the advice about it, and what is said of the whole query at its end. -/
theorem foundAt_issues (dialect : Dialect) (text : Text) (fallback ratio : Option Number) {s : Scope}
    (hs : s ∈ (parse dialect text).scopes) {before after : List Command} {c : Command}
    (hcommands : s.commands = before ++ c :: after) :
    foundAt c (issues (parse dialect text) fallback ratio) =
      advice (ratio.getD defaultRatio) (rangeOf (parse dialect text) fallback s) before c ++
        if EndsUnbounded s c after then [unboundedIssue c] else [] := by
  have hnodup := nodup_index_scopes dialect text
  rw [issues_eq, foundAt_append, foundAt_scopes hnodup (fun s earlier c => advice_at _ _ earlier c) hs
    hcommands]
  congr 1
  simp only [scopes, List.flatMap_cons, List.map_append, List.nodup_append] at hnodup
  obtain ⟨hroot, -, hblocks⟩ := hnodup
  rcases List.mem_cons.1 hs with rfl | hs
  · rw [rootScope] at hroot hcommands
    rw [foundAt_unbounded hroot hcommands]
    simp [EndsUnbounded, rootScope]
  · -- nothing is said of the whole query in a block
    obtain ⟨b, hb, rfl⟩ := List.mem_map.1 hs
    rw [if_neg fun h => Option.some_ne_none b.name h.1]
    refine foundAt_eq_nil fun i hi => ?_
    obtain ⟨c', hc', hat⟩ := (madeAt_unbounded _ i hi).located
    refine ⟨c', hat, hblocks _ (List.mem_map_of_mem hc') _ (List.mem_map_of_mem ?_)⟩
    exact List.mem_flatMap.2 ⟨b.scope, hs, by simp [hcommands]⟩

/-- Every issue is made by a rule at a command. At each command, the rules that are broken there are
reported there once and the others are not, and the aggregates of one field that can be combined are
listed. What is broken depends on the commands of the scope alone, but for the range. -/
theorem found_iff_broken (dialect : Dialect) (text : Text) (fallback ratio : Option Number) :
    let d := parse dialect text
    let found := issues d fallback ratio
    (∀ i ∈ found, i.MadeAt rules (d.scopes.flatMap Scope.commands)) ∧
    ∀ s ∈ d.scopes, ∀ (before : List Command) (c : Command) (after : List Command),
      s.commands = before ++ c :: after →
      (∀ rule ∈ rules, rule ≠ .combineAggregations → ReportedIff rule c found
        (Breaks (ratio.getD defaultRatio) (rangeOf d fallback s) s before c after rule)) ∧
      (foundAt c found).filter (fun i => i.code = Rule.combineAggregations.code) = recurring before c := by
  intro d found
  refine ⟨madeAt_issues d fallback ratio, fun s hs before c after hcommands => ?_⟩
  have hfound := foundAt_issues dialect text fallback ratio hs hcommands
  constructor
  · intro rule hrule hne
    have hreported : reported rule c found = tally rule
        (advice (ratio.getD defaultRatio) (rangeOf d fallback s) before c) +
          if EndsUnbounded s c after then if .unboundedResult = rule then 1 else 0 else 0 := by
      rw [reported_eq_tally, hfound, tally_append, tally_ite]
      simp [d, unboundedIssue]
    by_cases hbound : rule = .unboundedResult
    · subst hbound
      rw [tally_unbounded_advice, Nat.zero_add, if_pos rfl] at hreported
      exact ⟨fun h => hreported.trans (if_pos h), fun h => hreported.trans (if_neg h)⟩
    · obtain ⟨honce, hnever⟩ := tally_advice (ratio.getD defaultRatio) (rangeOf d fallback s) s before
        after c hrule hne hbound
      rw [if_neg (Ne.symm hbound), ite_self, Nat.add_zero] at hreported
      exact ⟨fun h => hreported.trans (honce h), fun h => hreported.trans (hnever h)⟩
  · rw [hfound, List.filter_append, filter_advice]
    simp [unboundedIssue, ofCommand]

/-- The second of two aggregates of a field. -/
theorem found_second_aggregate :
    let d := parse Dialect.pipeline "AGGREGATE \x7btarget: a, fn: sum\x7d\nAGGREGATE \x7btarget: a, fn: avg\x7d"
    ∃ c c', d.root = [c, c'] ∧
      (foundAt c' (issues d none none)).filter (fun i => i.code = Rule.combineAggregations.code) =
        [recursIssue c' [("a", "sum")] "a" "avg"] := by
  intro d
  have hshape : d.root.map (fun c => (c.hasRole .aggregate, c.aggregateFunction?, c.referencedFields)) =
      [(true, some (Text.ofString "sum"), [Text.ofString "a"]),
        (true, some (Text.ofString "avg"), [Text.ofString "a"])] := by
    decide +kernel
  obtain ⟨c, cs, hroot, hc, hcs⟩ := List.map_eq_cons_iff.1 hshape
  obtain ⟨c', rfl, hc'⟩ := List.map_eq_singleton_iff.1 hcs
  simp only [Prod.mk.injEq] at hc hc'
  obtain ⟨hrole, hfunction, hfields⟩ := hc
  obtain ⟨hrole', hfunction', hfields'⟩ := hc'
  have huses : uses c = [(Text.ofString "a", Text.ofString "sum")] := by
    simp [uses, hrole, hfunction, hfields]
  have hrecurring : recurring [c] c' = [recursIssue c' [("a", "sum")] "a" "avg"] := by
    have hrecurs : Recurs [("a", "sum")] "a" "avg" := by decide
    simp [recurring, hrole', hfunction', hfields', huses, eachAfter, recursIssues, hrecurs]
  refine ⟨c, c', hroot, ?_⟩
  rw [← hrecurring]
  exact ((found_iff_broken Dialect.pipeline _ none none).2 d.rootScope List.mem_cons_self [c] c' []
    hroot).2

end Rules.Performance
end QueryLint
