import QueryLint.Proofs.Histories
import QueryLint.Proofs.Visibility

/-!
Issues by rule and by command.

The commands of a document have different indices. So where every scope is read from the front and
what is found lies at the command that is read, the issues at a command are those that were found
when it was read.
-/

namespace QueryLint
set_option autoImplicit false

namespace Issue

def tally (rule : Rule) (issues : List Issue) : Nat :=
  issues.countP fun i => i.code = rule.code

@[simp] theorem tally_nil (rule : Rule) : tally rule [] = 0 := rfl

@[simp] theorem tally_append (rule : Rule) (xs ys : List Issue) :
    tally rule (xs ++ ys) = tally rule xs + tally rule ys :=
  List.countP_append

@[simp] theorem tally_ofCommand_cons (rule rule' : Rule) (c : Command) (message : Text)
    (suggestion : Option Text) (issues : List Issue) :
    tally rule (ofCommand c rule' message suggestion :: issues) =
      (if rule' = rule then 1 else 0) + tally rule issues := by
  simp [tally, ofCommand, List.countP_cons, Nat.add_comm]

@[simp] theorem tally_ite (rule : Rule) (p : Prop) [Decidable p] (issues : List Issue) :
    tally rule (if p then issues else []) = if p then tally rule issues else 0 := by
  split <;> rfl

theorem tally_eq_zero {rule : Rule} {issues : List Issue} :
    tally rule issues = 0 ↔ ∀ i ∈ issues, i.code ≠ rule.code := by
  simp [tally, List.countP_eq_zero]

theorem filter_of_tally {rule : Rule} {issues : List Issue} (h : tally rule issues = 0) :
    issues.filter (fun i => i.code = rule.code) = [] := by
  simpa [List.filter_eq_nil_iff] using tally_eq_zero.1 h

def foundAt (c : Command) (issues : List Issue) : List Issue :=
  issues.filter fun i => i.commandIndex = (c.index : Int)

@[simp] theorem foundAt_append (c : Command) (xs ys : List Issue) :
    foundAt c (xs ++ ys) = foundAt c xs ++ foundAt c ys :=
  List.filter_append ..

theorem foundAt_eq_self {c : Command} {issues : List Issue} (h : ∀ i ∈ issues, i.At c) :
    foundAt c issues = issues :=
  List.filter_eq_self.2 fun i hi => decide_eq_true (h i hi).1

theorem foundAt_eq_nil {c : Command} {issues : List Issue}
    (h : ∀ i ∈ issues, ∃ c' : Command, i.At c' ∧ c'.index ≠ c.index) : foundAt c issues = [] := by
  refine List.filter_eq_nil_iff.2 fun i hi => ?_
  obtain ⟨c', hat, hne⟩ := h i hi
  rw [hat.1, decide_eq_true_eq]
  exact mod_cast hne

end Issue

open Issue

theorem Rules.Ordering.reported_eq_tally (rule : Rule) (c : Command) (issues : List Issue) :
    reported rule c issues = tally rule (foundAt c issues) := by
  rw [reported, tally, foundAt, List.countP_filter]

/-- Issues that are all found when a command is read lie at that command. -/
theorem foundAt_eachAfter {f : List Command → Command → List Issue}
    (hat : ∀ earlier c, ∀ i ∈ f earlier c, i.At c) {before front back : List Command} {c : Command}
    (hnodup : ((front ++ c :: back).map Command.index).Nodup) :
    foundAt c (eachAfter f before (front ++ c :: back)) = f (before ++ front) c := by
  simp only [List.map_append, List.map_cons, List.nodup_append, List.nodup_cons] at hnodup
  obtain ⟨-, ⟨hback, -⟩, hfront⟩ := hnodup
  have hother : ∀ {c' : Command}, c'.index ≠ c.index → ∀ earlier, ∀ i ∈ f earlier c',
      decide (i.commandIndex = (c.index : Int)) = false := by
    intro c' hne earlier i hi
    rw [(hat earlier c' i hi).1, decide_eq_false_iff_not]
    exact mod_cast hne
  rw [foundAt, filter_eachAfter]
  · exact foundAt_eq_self (hat _ c)
  · intro earlier c' hc'
    refine hother (hfront _ (List.mem_map_of_mem hc') _ (by simp)) earlier
  · intro earlier c' hc'
    refine hother (fun heq => hback (heq ▸ List.mem_map_of_mem hc')) earlier

namespace Document

theorem nodup_index_scopes (dialect : Dialect) (text : Text) :
    (((parse dialect text).scopes.flatMap Scope.commands).map Command.index).Nodup := by
  have hdivided := divided_parse dialect text
  rw [(hdivided.shared.map Command.index).nodup_iff, hdivided.numbered]
  exact List.nodup_range

theorem foundAt_scopes {d : Document}
    (hnodup : ((d.scopes.flatMap Scope.commands).map Command.index).Nodup)
    {f : Scope → List Command → Command → List Issue}
    (hat : ∀ s earlier c, ∀ i ∈ f s earlier c, i.At c) {s : Scope} (hs : s ∈ d.scopes)
    {before after : List Command} {c : Command} (hcommands : s.commands = before ++ c :: after) :
    foundAt c (d.scopes.flatMap fun s => eachAfter (f s) [] s.commands) = f s before c := by
  obtain ⟨front, back, hscopes⟩ := List.append_of_mem hs
  rw [hscopes] at hnodup ⊢
  simp only [List.flatMap_append, List.flatMap_cons, List.map_append, List.nodup_append] at hnodup
  obtain ⟨-, ⟨hown, -, hback⟩, hfront⟩ := hnodup
  have hc : c.index ∈ s.commands.map Command.index := by simp [hcommands]
  -- what is found in another scope lies at a command of that scope
  have hother : ∀ {scopes : List Scope},
      (∀ n ∈ (scopes.flatMap Scope.commands).map Command.index, n ≠ c.index) →
      foundAt c (scopes.flatMap fun s => eachAfter (f s) [] s.commands) = [] := by
    intro scopes hne
    refine foundAt_eq_nil fun i hi => ?_
    obtain ⟨s', hs', hi⟩ := List.mem_flatMap.1 hi
    obtain ⟨before', c', after', hcs', hi⟩ := mem_eachAfter.1 hi
    refine ⟨c', hat _ _ c' i hi, hne _ (List.mem_map_of_mem (List.mem_flatMap.2 ⟨s', hs', ?_⟩))⟩
    simp [hcs']
  rw [List.flatMap_append, List.flatMap_cons, foundAt_append, foundAt_append, hother, hother,
    hcommands, foundAt_eachAfter (hat s) (hcommands ▸ hown)]
  · simp
  · exact fun n hn heq => hback _ hc n hn heq.symm
  · intro n hn heq
    exact hfront n hn _ (List.mem_append_left _ hc) heq

end Document
end QueryLint
