import QueryLint.Analysis
import QueryLint.Proofs.Commands
import QueryLint.Proofs.Ordering

/-!
When a query is valid.

Every issue belongs to a rule, and the code of an issue tells its severity. So merging never hides a
critical issue behind another one, and a query is valid if the structural rules and the ordering
rules report nothing critical; all other rules give advice only.
-/

namespace QueryLint
set_option autoImplicit false

namespace Issue

def Ruled (i : Issue) : Prop := ∃ rule : Rule, i.code = rule.code ∧ i.severity = rule.severity

def RuledBy (rules : List Rule) (i : Issue) : Prop :=
  ∃ rule ∈ rules, i.code = rule.code ∧ i.severity = rule.severity

def Advises (i : Issue) : Prop := i.Ruled ∧ i.severity ≠ .critical

def Mild (issues : List Issue) : Prop := ∀ i ∈ issues, i.severity ≠ .critical

@[simp] theorem ruled_ofCommand (c : Command) (rule : Rule) (message : Text) (suggestion : Option Text) :
    (ofCommand c rule message suggestion).Ruled :=
  ⟨rule, rfl, rfl⟩

@[simp] theorem ruledBy_ofCommand {rules : List Rule} {rule : Rule} (h : rule ∈ rules) (c : Command)
    (message : Text) (suggestion : Option Text) :
    (ofCommand c rule message suggestion).RuledBy rules :=
  ⟨rule, h, rfl, rfl⟩

theorem RuledBy.ruled {rules : List Rule} {i : Issue} (h : i.RuledBy rules) : i.Ruled := by
  obtain ⟨rule, -, hrule⟩ := h
  exact ⟨rule, hrule⟩

theorem RuledBy.code_mem {rules : List Rule} {i : Issue} (h : i.RuledBy rules) :
    i.code ∈ rules.map Rule.code := by
  obtain ⟨rule, hrule, hcode, -⟩ := h
  exact hcode ▸ List.mem_map_of_mem hrule

@[simp] theorem severity_ofCommand (c : Command) (rule : Rule) (message : Text)
    (suggestion : Option Text) : (ofCommand c rule message suggestion).severity = rule.severity := rfl

def MadeAt (rules : List Rule) (cs : List Command) (i : Issue) : Prop :=
  ∃ rule ∈ rules, ∃ c ∈ cs, ∃ message suggestion, i = ofCommand c rule message suggestion

@[simp] theorem madeAt_ofCommand {rules : List Rule} {cs : List Command} {c : Command} {rule : Rule}
    (hrule : rule ∈ rules) (hc : c ∈ cs) (message : Text) (suggestion : Option Text) :
    (ofCommand c rule message suggestion).MadeAt rules cs :=
  ⟨rule, hrule, c, hc, message, suggestion, rfl⟩

namespace MadeAt
variable {rules : List Rule} {cs : List Command} {i : Issue} (h : i.MadeAt rules cs)
include h

theorem mono {cs' : List Command} (hcs : cs ⊆ cs') : i.MadeAt rules cs' := by
  obtain ⟨rule, hrule, c, hc, rest⟩ := h
  exact ⟨rule, hrule, c, hcs hc, rest⟩

theorem ruled : i.Ruled := by
  obtain ⟨rule, -, c, -, message, suggestion, rfl⟩ := h
  exact ruled_ofCommand c rule message suggestion

theorem located : ∃ c ∈ cs, i.At c := by
  obtain ⟨rule, -, c, hc, message, suggestion, rfl⟩ := h
  exact ⟨c, hc, at_ofCommand c rule message suggestion⟩

theorem code_mem : i.code ∈ rules.map Rule.code := by
  obtain ⟨rule, hrule, c, -, message, suggestion, rfl⟩ := h
  exact List.mem_map_of_mem hrule

theorem severity_ne (hrules : ∀ rule ∈ rules, rule.severity ≠ .critical) : i.severity ≠ .critical := by
  obtain ⟨rule, hrule, c, -, message, suggestion, rfl⟩ := h
  exact hrules rule hrule

end MadeAt

@[simp] theorem mild_nil : Mild [] := by simp [Mild]

@[simp] theorem mild_append (xs ys : List Issue) : Mild (xs ++ ys) ↔ Mild xs ∧ Mild ys := by
  simp [Mild, or_imp, forall_and]

@[simp] theorem mild_cons (i : Issue) (is : List Issue) :
    Mild (i :: is) ↔ i.severity ≠ .critical ∧ Mild is := by
  simp [Mild]

theorem zero_not_mem_code (rule : Rule) : (0 : CodeUnit) ∉ rule.code := by
  cases rule <;> decide +kernel

theorem Ruled.zero_not_mem {i : Issue} (h : i.Ruled) : (0 : CodeUnit) ∉ i.code := by
  obtain ⟨rule, hcode, -⟩ := h
  rw [hcode]
  exact zero_not_mem_code rule

/-- A text is read back as all that stands before the first NUL. -/
theorem append_zero_inj {s t u v : Text} (hs : (0 : CodeUnit) ∉ s) (ht : (0 : CodeUnit) ∉ t) :
    s ++ (0 : CodeUnit) :: u = t ++ (0 : CodeUnit) :: v ↔ s = t ∧ u = v := by
  have hbefore : ∀ {s u : Text}, (0 : CodeUnit) ∉ s →
      (s ++ (0 : CodeUnit) :: u).takeWhile (fun c => c != 0) = s := by
    intro s u hs
    rw [List.takeWhile_append_of_pos, List.takeWhile_cons]
    · simp
    · intro c hc
      simpa using ne_of_mem_of_not_mem hc hs
  constructor
  · intro h
    obtain rfl : s = t := by rw [← hbefore (u := u) hs, h, hbefore ht]
    exact ⟨rfl, List.tail_eq_of_cons_eq (List.append_cancel_left h)⟩
  · rintro ⟨rfl, rfl⟩
    rfl

/-- What two issues share that are taken for one. -/
theorem identity_eq_iff {i j : Issue} (hi : (0 : CodeUnit) ∉ i.code) (hj : (0 : CodeUnit) ∉ j.code) :
    i.identity = j.identity ↔
      i.commandIndex = j.commandIndex ∧ i.code = j.code ∧ i.message = j.message := by
  rw [identity, identity, Prod.mk.injEq, append_zero_inj hi hj]

/-- Issues that are taken for one are equally grave. -/
theorem severity_eq {i j : Issue} (hi : i.Ruled) (hj : j.Ruled) (h : i.identity = j.identity) :
    i.severity = j.severity := by
  obtain ⟨-, hcode, -⟩ := (identity_eq_iff hi.zero_not_mem hj.zero_not_mem).1 h
  obtain ⟨r, hr, hri⟩ := hi
  obtain ⟨r', hr', hrj⟩ := hj
  rw [hr, hr', Rule.code_inj] at hcode
  rw [hri, hrj, hcode]

/-- Dropping repeated issues drops no critical one. -/
theorem mild_distinct {earlier issues : List Issue} (hearlier : ∀ i ∈ earlier, i.Advises)
    (hissues : ∀ i ∈ issues, i.Ruled) :
    Mild (distinct (earlier.map identity) issues) ↔ Mild issues := by
  induction issues generalizing earlier with
  | nil => simp [distinct]
  | cons i is ih =>
    have hi := hissues i List.mem_cons_self
    have his := fun j hj => hissues j (List.mem_cons_of_mem _ hj)
    rw [distinct, mild_cons]
    split
    · rename_i hseen
      rw [List.contains_iff_mem, List.mem_map] at hseen
      obtain ⟨j, hj, hidentity⟩ := hseen
      obtain ⟨hruled, hmild⟩ := hearlier j hj
      rw [ih hearlier his]
      simp [severity_eq hi hruled hidentity.symm, hmild]
    · rw [mild_cons]
      refine and_congr_right fun hmild => ?_
      exact @ih (i :: earlier) (List.forall_mem_cons.2 ⟨⟨hi, hmild⟩, hearlier⟩) his

theorem mild_merge {lists : List (List Issue)} (h : ∀ i ∈ lists.flatten, i.Ruled)
    (disabled : List Text) : Mild (merge lists disabled) ↔
      ∀ i ∈ lists.flatten, i.severity = .critical → i.code ∈ disabled := by
  have hruled : ∀ i ∈ lists.flatten.filter (fun i => !disabled.contains i.code), i.Ruled :=
    fun i hi => h i (List.mem_filter.1 hi).1
  have hmerge : Mild (merge lists disabled) ↔
      Mild (distinct [] (lists.flatten.filter fun i => !disabled.contains i.code)) := by
    simp only [merge, Mild, List.mem_mergeSort]
  refine hmerge.trans ((@mild_distinct [] _ (by simp) hruled).trans ?_)
  simp only [Mild, List.mem_filter, and_imp, Bool.not_eq_true', List.contains_eq_mem,
    decide_eq_false_iff_not]
  exact forall₂_congr fun i _ => not_imp_not

end Issue

open Issue

theorem Report.valid_ofIssues (issues : List Issue) (n : Nat) :
    (ofIssues issues n).valid = true ↔ Mild issues := by
  simp [ofIssues, summarize, count, Mild, List.countP_eq_zero]

namespace Rules

namespace Performance

def rules : List Rule :=
  [.lateFilter, .wildcardProjection, .excessiveGranularity, .combineAggregations, .unboundedResult]

theorem madeAt_granularity (ratio : Number) (range : Option Number) (c : Command) :
    ∀ i ∈ granularityIssues ratio range c, i.MadeAt rules [c] := by
  unfold granularityIssues
  split
  · dsimp only
    split
    · intro i hi
      rw [List.mem_singleton.1 hi]
      exact madeAt_ofCommand (by simp [rules]) List.mem_cons_self _ _
    · simp
  · simp

theorem madeAt_aggregate (c : Command) (function : Text) (functions : Record (List Text))
    (targets : List Text) : ∀ i ∈ (aggregate c function functions targets).2, i.MadeAt rules [c] := by
  induction targets generalizing functions with
  | nil => simp [aggregate]
  | cons target targets ih =>
    rw [aggregate]
    split
    · exact ih _
    · split
      · exact ih _
      · refine List.forall_mem_cons.2 ⟨?_, ih _⟩
        exact madeAt_ofCommand (by simp [rules]) List.mem_cons_self _ _

theorem madeAt_visit (ratio : Number) (range : Option Number) (p : Progress) (c : Command) :
    ∀ i ∈ (visit ratio range p c).2, i.MadeAt rules [c] := by
  have hone : ∀ rule ∈ rules, ∀ message suggestion (b : Bool),
      ∀ i ∈ if b then [ofCommand c rule message suggestion] else [], i.MadeAt rules [c] := by
    intro rule hrule message suggestion b i hi
    cases b with
    | false => cases hi
    | true =>
      rw [List.mem_singleton.1 hi]
      exact madeAt_ofCommand hrule List.mem_cons_self _ _
  unfold visit
  split
  · exact hone .lateFilter (by simp [rules]) _ _ _
  · exact hone .wildcardProjection (by simp [rules]) _ _ _
  · exact madeAt_granularity ratio range c
  · split
    · simp
    · exact madeAt_aggregate c _ _ _
  · simp

theorem madeAt_walk (ratio : Number) (range : Option Number) (p : Progress) (cs : List Command) :
    ∀ i ∈ walk ratio range p cs, i.MadeAt rules cs := by
  induction cs generalizing p with
  | nil => simp [walk]
  | cons c cs ih =>
    rw [walk]
    refine List.forall_mem_append.2 ⟨fun i hi => ?_, fun i hi => ?_⟩
    · exact (madeAt_visit ratio range p c i hi).mono (by simp)
    · exact (ih _ i hi).mono (by simp)

theorem madeAt_unbounded (root : List Command) : ∀ i ∈ unboundedIssues root, i.MadeAt rules root := by
  unfold unboundedIssues
  dsimp only
  split
  · simp
  · rename_i last hlast
    split
    · simp
    · intro i hi
      have hmem := (List.mem_filter.1 (List.mem_of_getLast? hlast)).1
      rw [List.mem_singleton.1 hi]
      exact madeAt_ofCommand (by simp [rules]) hmem _ _

theorem madeAt_issues (d : Document) (fallback ratio : Option Number) :
    ∀ i ∈ issues d fallback ratio, i.MadeAt rules (d.scopes.flatMap Scope.commands) := by
  have hroot : d.root ⊆ d.scopes.flatMap Scope.commands :=
    fun c hc => List.mem_flatMap.2 ⟨d.rootScope, List.mem_cons_self, hc⟩
  unfold issues
  dsimp only
  refine List.forall_mem_append.2 ⟨List.forall_mem_append.2 ⟨?_, ?_⟩, ?_⟩
  · exact fun i hi => (madeAt_walk _ _ _ _ i hi).mono hroot
  · intro i hi
    obtain ⟨b, hb, hi⟩ := List.mem_flatMap.1 hi
    refine (madeAt_walk _ _ _ _ i hi).mono fun c hc => ?_
    exact List.mem_flatMap.2 ⟨b.scope, List.mem_cons_of_mem _ (List.mem_map_of_mem hb), hc⟩
  · exact fun i hi => (madeAt_unbounded d.root i hi).mono hroot

theorem mild_issues (d : Document) (fallback ratio : Option Number) :
    Mild (issues d fallback ratio) := by
  intro i hi
  exact (madeAt_issues d fallback ratio i hi).severity_ne (by simp [rules, Rule.severity])

end Performance

namespace Style

def rules : List Rule := [.unquotedKey, .trailingSeparator]

theorem madeAt_issues (d : Document) : ∀ i ∈ issues d, i.MadeAt rules d.commands := by
  intro i hi
  obtain ⟨c, hc, hi⟩ := List.mem_flatMap.1 hi
  rcases List.mem_append.1 hi with hi | hi
  · split at hi
    · cases hi
    · rw [List.mem_singleton.1 hi]
      exact madeAt_ofCommand (by simp [rules]) hc _ _
  · obtain ⟨note, -, hnote⟩ := List.mem_filterMap.1 hi
    unfold separatorIssue? at hnote
    split at hnote
    · cases hnote
    · cases hnote
      exact madeAt_ofCommand (by simp [rules]) hc _ _

theorem mild_issues (d : Document) : Mild (issues d) := by
  intro i hi
  exact (madeAt_issues d i hi).severity_ne (by simp [rules, Rule.severity])

end Style

namespace Ordering

def rules : List Rule :=
  [.forbiddenParameter, .unknownCommand, .loaderWithoutSource, .aggregateWithoutGrouping,
    .boundWithoutOrder, .redundantProjection, .undefinedSubquery, .missingLoader]

theorem ruled_visit (dialect : Dialect) (p : Progress) (c : Command) :
    ∀ i ∈ (visit dialect p c).2, i.RuledBy rules := by
  unfold visit
  split
  · simp [unknownCommand, rules]
  · refine List.forall_mem_append.2 ⟨?_, ?_⟩
    · intro i hi
      obtain ⟨key, -, hkey⟩ := List.mem_filterMap.1 hi
      split at hkey
      · cases hkey
        simp [rules]
      · cases hkey
    · unfold roleIssues
      split
      case h_5 =>
        unfold referenceIssues
        dsimp only
        split
        · simp
        · split
          · simp [rules]
          · split <;> simp [rules]
      case h_6 => simp
      all_goals split <;> simp [rules]

theorem ruled_walk (dialect : Dialect) (p : Progress) (cs : List Command) :
    ∀ i ∈ (walk dialect p cs).2, i.RuledBy rules := by
  induction cs generalizing p with
  | nil => simp [walk]
  | cons c cs ih => exact List.forall_mem_append.2 ⟨ruled_visit dialect p c, ih _⟩

theorem ruled_missingLoader (dialect : Dialect) (name : Option Text) (p : Progress) :
    ∀ i ∈ missingLoader dialect name p, i.RuledBy rules := by
  unfold missingLoader
  split
  · simp
  · split <;> simp [rules]

theorem ruled_enter (dialect : Dialect) (blocks : List Block) (p : Progress) (c : Command) :
    ∀ i ∈ (enter dialect blocks p c).2, i.RuledBy rules := by
  unfold enter
  split
  · simp
  · split
    · simp
    · exact List.forall_mem_append.2 ⟨ruled_walk dialect _ _, ruled_missingLoader dialect _ _⟩

theorem ruled_walkRoot (dialect : Dialect) (blocks : List Block) (p : Progress) (cs : List Command) :
    ∀ i ∈ (walkRoot dialect blocks p cs).2, i.RuledBy rules := by
  induction cs generalizing p with
  | nil => simp [walkRoot]
  | cons c cs ih =>
    exact List.forall_mem_append.2 ⟨List.forall_mem_append.2
      ⟨ruled_visit dialect p c, ruled_enter dialect blocks _ c⟩, ih _⟩

theorem ruled_issues (d : Document) : ∀ i ∈ issues d, i.RuledBy rules := by
  refine List.forall_mem_append.2 ⟨ruled_walkRoot _ _ _ _, ?_⟩
  split
  · exact ruled_missingLoader _ _ _
  · simp

end Ordering

end Rules

/-- A block opener names its block, unless its payload was not read. -/
def Command.Named (c : Command) : Prop := (c.declaredName?.isNone && c.payload.isSome) = false

namespace Document

/-- A block has a name and a closer, and no closer stands at the top level. -/
def Part.Orderly : Part → Prop
  | single c => c.role? ≠ some .blockClose
  | block opener b => opener.Named ∧ b.closerIndex.isSome = true

theorem named_of_group {b : OpenBlock} {cs : List Command}
    (h : ∀ part ∈ group (some b) cs, part.Orderly) : b.opener.Named := by
  induction cs generalizing b with
  | nil => exact (h (b.part none) (by simp [group])).1
  | cons c cs ih =>
    simp only [group] at h
    split at h
    · exact (h _ List.mem_cons_self).1
    · split at h
      · exact (h _ List.mem_cons_self).1
      · exact @ih (b.add c) h

namespace Assembly
variable (a : Assembly)

@[simp] theorem mild_report (issue : Issue) :
    Mild (a.report issue).issues ↔ Mild a.issues ∧ issue.severity ≠ .critical := by
  simp [report]

@[simp] theorem mild_endBlock (b : OpenBlock) (closerIndex : Option Nat) :
    Mild (a.endBlock b closerIndex).issues ↔ Mild a.issues := by
  unfold endBlock
  dsimp only
  split
  · simp [Rule.severity]
  · rfl

theorem mild_addOpener (opener : Command) :
    Mild (a.addOpener opener).issues ↔ Mild a.issues ∧ a.current = none ∧ opener.Named := by
  unfold addOpener Command.Named
  cases a.current with
  | none =>
    simp only
    split
    · simp_all [Rule.severity]
    · simp_all
  | some b =>
    simp only
    split <;> simp [Rule.severity]

theorem mild_addCloser (closer : Command) :
    Mild (a.addCloser closer).issues ↔ Mild a.issues ∧ a.current.isSome = true := by
  unfold addCloser
  cases a.current <;> simp [Rule.severity]

@[simp] theorem issues_addPlain (c : Command) : (a.addPlain c).issues = a.issues := by
  unfold addPlain
  split <;> rfl

@[simp] theorem commands_addCloser (closer : Command) :
    (a.addCloser closer).commands = a.commands ++ [closer] := by
  unfold addCloser
  dsimp only
  split <;> simp

@[simp] theorem commands_addPlain (c : Command) : (a.addPlain c).commands = a.commands ++ [c] := by
  unfold addPlain
  split <;> rfl

theorem mild_finish : Mild a.finish.issues ↔ Mild a.issues ∧ a.current = none := by
  unfold finish
  split <;> simp_all [Rule.severity]

/-- As long as nothing critical is found, the block that is open has a name. -/
def NamedSoFar (a : Assembly) : Prop := ∀ b ∈ a.current, Mild a.issues → b.opener.Named

section Steps
variable {a a' : Assembly} {c : Command} (hadds : Adds a c a') (h : a.NamedSoFar)
include hadds h

theorem Adds.namedSoFar : a'.NamedSoFar := by
  intro b' hb' hmild
  cases hadds with
  | opener =>
    cases hb'
    exact ((a.mild_addOpener c).1 hmild).2.2
  | closerOutside hcurrent => simp [addCloser_outside c hcurrent] at hb'
  | plainOutside hcurrent => simp [addPlain_outside c hcurrent] at hb'
  | @closerInside b hcurrent => simp [addCloser_inside (c.within b.name) hcurrent] at hb'
  | @plainInside b hcurrent =>
    obtain ⟨-, -, -, hsome⟩ := addPlain_inside (c.within b.name) hcurrent
    rw [hsome, Option.mem_some] at hb'
    subst hb'
    exact h b hcurrent (by simpa using hmild)

theorem Adds.mild_iff (cs : List Command) :
    (Mild a'.issues ∧ ∀ part ∈ group a'.current cs, part.Orderly) ↔
      Mild a.issues ∧ ∀ part ∈ group a.current (c :: cs), part.Orderly := by
  cases hadds with
  | opener hopen =>
    rw [mild_addOpener, current_addOpener]
    cases hcurrent : a.current with
    | none =>
      simp only [group, hopen, if_true, true_and, and_assoc]
      exact and_congr_right fun _ => and_iff_right_of_imp named_of_group
    | some b => simp [group, hopen, OpenBlock.part, Part.Orderly]
  | closerOutside hcurrent hclose =>
    rw [mild_addCloser]
    simp [hcurrent, group, hclose, Part.Orderly]
  | plainOutside hcurrent hopen hclose =>
    obtain ⟨-, -, -, hnone⟩ := addPlain_outside c hcurrent
    simp [hcurrent, hnone, group, hopen, hclose, Part.Orderly]
  | @closerInside b hcurrent hclose =>
    obtain ⟨-, -, -, hnone⟩ := addCloser_inside (c.within b.name) hcurrent
    rw [mild_addCloser, hnone]
    simp only [hcurrent, Option.isSome_some, and_true, group, hclose]
    refine and_congr_right fun hmild => ?_
    simp [OpenBlock.add, OpenBlock.part, Part.Orderly, h b hcurrent hmild]
  | @plainInside b hcurrent hopen hclose =>
    obtain ⟨-, -, -, hsome⟩ := addPlain_inside (c.within b.name) hcurrent
    rw [hsome, hcurrent, issues_addPlain]
    simp [group, hopen, hclose, OpenBlock.add]

end Steps

/-- Nothing critical is found if the parts that are still to come are orderly. -/
theorem mild_foldl (dialect : Dialect) (tokens : List Token) {a : Assembly} (h : a.NamedSoFar) :
    Mild (tokens.foldl (add dialect) a).finish.issues ↔ Mild a.issues ∧
      ∀ part ∈ group a.current (Command.ofTokens dialect a.commands.length tokens), part.Orderly := by
  induction tokens generalizing a with
  | nil =>
    rw [List.foldl_nil, mild_finish, Command.ofTokens]
    cases a.current with
    | none => simp [group]
    | some b => simp [group, OpenBlock.part, Part.Orderly]
  | cons token tokens ih =>
    have hadds := adds_add dialect a token
    rw [List.foldl_cons, ih (hadds.namedSoFar h), hadds.mild_iff h, Command.ofTokens,
      hadds.length_commands]

def rules : List Rule :=
  [.duplicateSubquery, .nestedBlock, .missingBlockName, .unmatchedBlockClose, .unclosedBlock]

/-- All issues are made at the given commands, and the block that is open starts with one of them. -/
structure Sited (cs : List Command) (a : Assembly) : Prop where
  issues : ∀ i ∈ a.issues, i.MadeAt rules cs
  opener : ∀ b ∈ a.current, b.opener ∈ cs

namespace Sited
variable {cs : List Command} {a : Assembly}

theorem mono {cs' : List Command} (h : Sited cs a) (hcs : cs ⊆ cs') : Sited cs' a :=
  ⟨fun i hi => (h.issues i hi).mono hcs, fun b hb => hcs (h.opener b hb)⟩

theorem report (h : Sited cs a) {c : Command} (hc : c ∈ cs) (rule : Rule) (hrule : rule ∈ rules)
    (message : Text) (suggestion : Option Text) :
    Sited cs (a.report (.ofCommand c rule message suggestion)) where
  issues := List.forall_mem_append.2
    ⟨h.issues, by simpa using madeAt_ofCommand hrule hc message suggestion⟩
  opener := h.opener

theorem endBlock (h : Sited cs a) {b : OpenBlock} (hb : b.opener ∈ cs) (closerIndex : Option Nat) :
    Sited cs (a.endBlock b closerIndex) := by
  have hended : Sited cs { a with
      blocks := a.blocks ++ [⟨b.name, b.commands, b.opener.index, closerIndex⟩], current := none } :=
    ⟨h.issues, by simp⟩
  unfold Assembly.endBlock
  dsimp only
  split
  · exact hended.report hb _ (by simp [rules]) _ _
  · exact hended

theorem addOpener (h : Sited cs a) {opener : Command} (hopener : opener ∈ cs) :
    Sited cs (a.addOpener opener) := by
  refine ⟨?_, by simpa [OpenBlock.start] using hopener⟩
  unfold Assembly.addOpener
  cases hcurrent : a.current with
  | none =>
    simp only
    split
    · exact (h.report hopener _ (by simp [rules]) _ _).issues
    · exact h.issues
  | some b =>
    have hended := fun message suggestion =>
      (h.report hopener .nestedBlock (by simp [rules]) message suggestion).endBlock
        (h.opener b hcurrent) none
    simp only
    split
    · exact ((hended _ _).report hopener _ (by simp [rules]) _ _).issues
    · exact (hended _ _).issues

theorem addCloser (h : Sited cs a) {closer : Command} (hcloser : closer ∈ cs) :
    Sited cs (a.addCloser closer) := by
  have hlisted : Sited cs { a with commands := a.commands ++ [closer] } := ⟨h.issues, h.opener⟩
  unfold Assembly.addCloser
  dsimp only
  split
  · have hreported := fun message suggestion =>
      hlisted.report hcloser .unmatchedBlockClose (by simp [rules]) message suggestion
    exact ⟨(hreported _ _).issues, h.opener⟩
  · rename_i b hcurrent
    exact hlisted.endBlock (b := { b with commands := b.commands ++ [closer] }) (h.opener b hcurrent) _

theorem addPlain (h : Sited cs a) (c : Command) : Sited cs (a.addPlain c) := by
  refine ⟨by rw [issues_addPlain]; exact h.issues, ?_⟩
  unfold Assembly.addPlain
  cases hcurrent : a.current with
  | none => simp
  | some b => simpa using h.opener b hcurrent

theorem add (h : Sited a.commands a) (dialect : Dialect) (token : Token) :
    Sited (add dialect a token).commands (add dialect a token) := by
  rw [add_eq]
  split
  · rw [commands_addOpener]
    exact (h.mono (List.subset_append_left _ _)).addOpener (by simp)
  · rw [commands_addCloser]
    exact (h.mono (List.subset_append_left _ _)).addCloser (by simp)
  · rw [commands_addPlain]
    exact (h.mono (List.subset_append_left _ _)).addPlain _

theorem foldl (h : Sited a.commands a) (dialect : Dialect) (tokens : List Token) :
    Sited (tokens.foldl (Assembly.add dialect) a).commands (tokens.foldl (Assembly.add dialect) a) := by
  induction tokens generalizing a with
  | nil => exact h
  | cons token tokens ih => exact ih (h.add dialect token)

theorem finish (h : Sited a.commands a) : Sited a.finish.commands a.finish := by
  unfold Assembly.finish
  cases hcurrent : a.current with
  | none => exact h
  | some b =>
    rw [commands_endBlock, commands_report]
    have hopener := h.opener b hcurrent
    exact (h.report hopener _ (by simp [rules]) _ _).endBlock hopener none

end Sited

theorem sited_ofTokens (dialect : Dialect) (tokens : List Token) :
    Sited (ofTokens dialect tokens).commands (ofTokens dialect tokens) := by
  have hstart : Sited start.commands start := ⟨by simp [start], by simp [start]⟩
  exact (hstart.foldl dialect tokens).finish

end Assembly

section Parse
variable (dialect : Dialect) (text : Text)

theorem mild_strays (commands : List Command) (strays : List Stray) :
    Mild (strays.map (strayIssue commands)) ↔ strays = [] := by
  cases strays with
  | nil => simp
  | cons stray strays => simp [strayIssue, Rule.severity]

/-- A document is found in order if its parts are and the text has no stray lines. -/
theorem mild_issues_parse : Mild (parse dialect text).issues ↔
    (∀ part ∈ parts dialect text, part.Orderly) ∧
      ∀ chunk ∈ Chunk.ofText dialect.isKeyword text, ¬chunk.IsStray := by
  have hparts := Assembly.mild_foldl dialect (Tokens.ofText dialect.isKeyword text).tokens
    (a := .start) (by simp [Assembly.NamedSoFar, Assembly.start])
  have hstrays := strays_ofChunks .start 0 (Chunk.ofText dialect.isKeyword text)
  refine (mild_append _ _).trans (and_congr ?_ ((mild_strays _ _).trans hstrays))
  exact hparts.trans (and_iff_right (by simp [Assembly.start]))

theorem commands_parse_eq_nil : (parse dialect text).commands = [] ↔ parts dialect text = [] := by
  rw [commands_parse, List.flatMap_eq_nil_iff]
  constructor
  · intro h
    exact List.eq_nil_iff_forall_not_mem.2 fun part hpart =>
      List.ne_nil_of_mem part.head_mem_commands (h part hpart)
  · intro h
    simp [h]

/-- The issues of a document are made at its commands, or they are about stray lines. -/
theorem issues_parse_cases {i : Issue} (hi : i ∈ (parse dialect text).issues) :
    i.MadeAt Assembly.rules (parse dialect text).commands ∨
      ∃ stray ∈ (Tokens.ofText dialect.isKeyword text).strays,
        i = strayIssue (parse dialect text).commands stray := by
  have hsited := Assembly.sited_ofTokens dialect (Tokens.ofText dialect.isKeyword text).tokens
  rcases List.mem_append.1 hi with hi | hi
  · exact .inl (hsited.issues i hi)
  · obtain ⟨stray, hstray, rfl⟩ := List.mem_map.1 hi
    exact .inr ⟨stray, hstray, rfl⟩

theorem ruled_issues_parse : ∀ i ∈ (parse dialect text).issues, i.Ruled := by
  intro i hi
  rcases issues_parse_cases dialect text hi with hmade | ⟨stray, -, rfl⟩
  · exact hmade.ruled
  · exact ⟨.strayText, rfl, rfl⟩

end Parse
end Document

open Document

namespace Rules.Structure

def rules : List Rule :=
  [.unbalancedDelimiters, .payloadParseError, .missingPayload, .unexpectedPayload,
    .payloadKindMismatch]

theorem critical_commandIssues (c : Command) :
    ∀ i ∈ commandIssues c, i.MadeAt rules [c] ∧ i.severity = .critical := by
  refine List.forall_mem_append.2 ⟨?_, ?_⟩
  · unfold readingIssues
    split <;> simp [rules, Rule.severity]
  · split
    · simp
    · unfold contractIssues
      split
      · simp [rules, Rule.severity]
      · split
        · simp [rules, Rule.severity]
        · split
          · simp
          · split <;> simp [rules, Rule.severity]

/-- A payload is there, absent and of a shape as the specification asks. -/
def Meets (spec : Spec) (payload : Option Value) (text : Option Text) : Prop :=
  (spec.payload = .required → text.isSome = true ∧ ∀ v ∈ payload, v.isEmpty = false) ∧
    (spec.payload = .none → text = none) ∧
    ∀ v ∈ payload, spec.accepts ≠ [] → v.shape ∈ spec.accepts

theorem contractIssues_eq_nil (c : Command) (spec : Spec) :
    contractIssues c spec = [] ↔ Meets spec c.payload c.payloadText := by
  unfold contractIssues payloadIsEmpty Meets
  cases c.payload with
  | none => cases spec.payload <;> cases c.payloadText <;> simp
  | some v =>
    cases hempty : v.isEmpty <;> cases spec.payload <;> cases c.payloadText <;> simp [hempty]

/-- When nothing is found at a command by itself. -/
theorem commandIssues_eq_nil (c : Command) : commandIssues c = [] ↔
    c.delimiterFault = none ∧ c.payloadFault = none ∧
      ∀ spec ∈ c.spec, Meets spec c.payload c.payloadText := by
  have hreading : readingIssues c = [] ↔ c.delimiterFault = none ∧ c.payloadFault = none := by
    unfold readingIssues
    split <;> simp_all
  rw [commandIssues, List.append_eq_nil_iff, hreading, and_assoc]
  cases c.spec with
  | none => simp
  | some spec => simp [contractIssues_eq_nil]

theorem commandIssues_within (name : Text) (c : Command) :
    commandIssues (c.within name) = [] ↔ commandIssues c = [] := by
  rw [commandIssues_eq_nil, commandIssues_eq_nil]
  rfl

theorem mild_commandIssues (c : Command) : Mild (commandIssues c) ↔ commandIssues c = [] := by
  rw [List.eq_nil_iff_forall_not_mem]
  exact forall₂_congr fun i hi => by simp [(critical_commandIssues c i hi).2]

variable (dialect : Dialect) (text : Text)

theorem mild_issues : Mild (issues (parse dialect text)) ↔
    Mild (parse dialect text).issues ∧ parts dialect text ≠ [] ∧
      ∀ c ∈ (parse dialect text).commands, commandIssues c = [] := by
  refine (mild_append _ _).trans (and_congr_right fun _ => ?_)
  rw [ne_eq, ← commands_parse_eq_nil]
  split
  · rename_i hnone
    simp [List.isEmpty_iff.1 hnone, emptyQuery, ofQuery, Rule.severity]
  · rename_i hsome
    rw [List.isEmpty_iff] at hsome
    simp only [hsome, not_false_eq_true, true_and, ← mild_commandIssues]
    simp only [Mild, List.mem_flatMap, forall_exists_index, and_imp]
    exact ⟨fun h c hc i hi => h i c hc hi, fun h i c hc hi => h c hc i hi⟩

theorem ruled_issues : ∀ i ∈ issues (parse dialect text), i.Ruled := by
  refine List.forall_mem_append.2 ⟨ruled_issues_parse dialect text, ?_⟩
  split
  · simp [emptyQuery, ofQuery, Ruled]
  · intro i hi
    obtain ⟨c, -, hi⟩ := List.mem_flatMap.1 hi
    exact (critical_commandIssues c i hi).1.ruled

end Rules.Structure

/-- A query is valid if the structural rules and the ordering rules find nothing critical. -/
theorem Analysis.valid_run {σ : Type} (dialect : Dialect) (elapsed : Elapsed) (s : σ) (text : Text) :
    (run dialect {} elapsed none s text).report.valid = true ↔
      Mild (Rules.Structure.issues (parse dialect text)) ∧
        Mild (Rules.Ordering.issues (parse dialect text)) := by
  have hperformance := Rules.Performance.madeAt_issues (parse dialect text) none none
  have hstyle := Rules.Style.madeAt_issues (parse dialect text)
  refine (Report.valid_ofIssues _ _).trans ((mild_merge ?_ []).trans ?_)
  · simp only [Findings.lists, List.flatten_cons, List.flatten_nil,
      List.forall_mem_append]
    exact ⟨Rules.Structure.ruled_issues dialect text,
      fun i hi => (Rules.Ordering.ruled_issues _ i hi).ruled, by simp,
      fun i hi => (hperformance i hi).ruled, fun i hi => (hstyle i hi).ruled, by simp⟩
  · simp only [List.not_mem_nil, imp_false]
    change Mild _ ↔ _
    simp only [Findings.lists, List.flatten_cons, List.flatten_nil, mild_append,
      mild_nil, true_and, and_true]
    exact and_congr_right fun _ => and_iff_left
      ⟨Rules.Performance.mild_issues _ _ _, Rules.Style.mild_issues _⟩

end QueryLint
