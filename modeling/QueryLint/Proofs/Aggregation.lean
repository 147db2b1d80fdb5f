import Mathlib.Data.Prod.Lex
import Mathlib.Order.Defs.PartialOrder
import QueryLint.Proofs.Histories
import QueryLint.Proofs.Merging
import QueryLint.Proofs.Numerals

/-!
What lists of issues are merged into.

Merged lists are the first occurrences of their issues in a stable order: by command, then by
severity, and otherwise as they were. A stable order is the only one of its kind, so merging depends
on the issues and their order alone, and merging once more changes nothing.
-/

namespace QueryLint
set_option autoImplicit false

/-- The second list is the first in the order of a key; elements with one key keep their order. -/
structure StableSort {α β : Type} [LE β] [DecidableEq β] (key : α → β) (xs ys : List α) : Prop where
  sorted : ys.Pairwise fun a b => key a ≤ key b
  stable : ∀ k, ys.filter (fun a => key a = k) = xs.filter fun a => key a = k

namespace StableSort
variable {α β : Type} [PartialOrder β] [DecidableEq β] {key : α → β} {xs ys zs : List α}

theorem mem_iff (h : StableSort key xs ys) {a : α} : a ∈ ys ↔ a ∈ xs := by
  have hown : ∀ l : List α, a ∈ l ↔ a ∈ l.filter fun b => key b = key a := by simp
  rw [hown, h.stable, ← hown]

/-- What two lists with the same elements for each key start with, if both are in order. -/
theorem head_eq {y z : α} (h : StableSort key (z :: zs) (y :: ys))
    (hsorted : (z :: zs).Pairwise fun a b => key a ≤ key b) : y = z := by
  have hyz : key y ≤ key z := by
    rcases List.mem_cons.1 (h.mem_iff.2 List.mem_cons_self) with rfl | hz
    · exact le_refl _
    · exact List.rel_of_pairwise_cons h.sorted hz
  have hzy : key z ≤ key y := by
    rcases List.mem_cons.1 (h.mem_iff.1 List.mem_cons_self) with rfl | hy
    · exact le_refl _
    · exact List.rel_of_pairwise_cons hsorted hy
  have hstable := h.stable (key y)
  rw [List.filter_cons_of_pos (by simp), List.filter_cons_of_pos (by simp [le_antisymm hyz hzy])] at hstable
  exact List.head_eq_of_cons_eq hstable

/-- A list that is in order stays as it is. -/
theorem eq_of_sorted (h : StableSort key xs ys) (hsorted : xs.Pairwise fun a b => key a ≤ key b) :
    ys = xs := by
  induction ys generalizing xs with
  | nil =>
    cases xs with
    | nil => rfl
    | cons x xs => exact absurd (h.mem_iff.2 List.mem_cons_self) List.not_mem_nil
  | cons y ys ih =>
    cases xs with
    | nil => exact absurd (h.mem_iff.1 List.mem_cons_self) List.not_mem_nil
    | cons x xs =>
      obtain rfl := h.head_eq hsorted
      congr 1
      refine ih ⟨(List.pairwise_cons.1 h.sorted).2, fun k => ?_⟩ (List.pairwise_cons.1 hsorted).2
      have hstable := h.stable k
      rw [List.filter_cons, List.filter_cons] at hstable
      split at hstable
      · exact List.tail_eq_of_cons_eq hstable
      · exact hstable

theorem unique (h : StableSort key xs ys) (h' : StableSort key xs zs) : ys = zs :=
  eq_of_sorted ⟨h.sorted, fun k => (h.stable k).trans (h'.stable k).symm⟩ h'.sorted

end StableSort

namespace Issue

/-- The issues share command, code and message. -/
def Same (i j : Issue) : Prop :=
  i.commandIndex = j.commandIndex ∧ i.code = j.code ∧ i.message = j.message

instance (i j : Issue) : Decidable (i.Same j) := inferInstanceAs (Decidable (_ ∧ _))

/-- The issue by one text: command index, code and message, each parted from the next by a NUL. -/
def label (i : Issue) : Text :=
  Text.ofInt i.commandIndex ++ (0 : CodeUnit) :: (i.code ++ (0 : CodeUnit) :: i.message)

theorem same_iff {i j : Issue} (hi : (0 : CodeUnit) ∉ i.code) (hj : (0 : CodeUnit) ∉ j.code) :
    i.Same j ↔ i.identity = j.identity :=
  (identity_eq_iff hi hj).symm

theorem label_eq_iff {i j : Issue} : i.label = j.label ↔ i.identity = j.identity := by
  rw [label, label, append_zero_inj (Text.zero_not_mem_ofInt _) (Text.zero_not_mem_ofInt _), identity,
    identity, Prod.mk.injEq]
  exact and_congr_left fun _ => ⟨Text.ofInt_injective, congrArg Text.ofInt⟩

namespace Same
variable {i j k : Issue}

theorem trans (h : i.Same j) (h' : j.Same k) : i.Same k :=
  ⟨h.1.trans h'.1, h.2.1.trans h'.2.1, h.2.2.trans h'.2.2⟩

end Same

def unlessRepeated (earlier : List Issue) (i : Issue) : List Issue :=
  if ∃ j ∈ earlier, j.Same i then [] else [i]

def firsts (issues : List Issue) : List Issue := eachAfter unlessRepeated [] issues

theorem mem_unlessRepeated {earlier : List Issue} {i j : Issue} :
    i ∈ unlessRepeated earlier j ↔ i = j ∧ ∀ k ∈ earlier, ¬k.Same j := by
  unfold unlessRepeated
  split
  · rename_i hsame
    obtain ⟨k, hk, hsame⟩ := hsame
    simp only [List.not_mem_nil, false_iff, not_and, not_forall, not_not]
    exact fun _ => ⟨k, hk, hsame⟩
  · rename_i hnone
    rw [List.mem_singleton]
    exact (and_iff_left fun k hk hsame => hnone ⟨k, hk, hsame⟩).symm

theorem mem_eachAfter_unlessRepeated {before issues : List Issue} {i : Issue} :
    i ∈ eachAfter unlessRepeated before issues ↔
      ∃ front back, issues = front ++ i :: back ∧ ∀ j ∈ before ++ front, ¬j.Same i := by
  rw [mem_eachAfter]
  constructor
  · rintro ⟨front, x, back, heq, hi⟩
    obtain ⟨rfl, hnone⟩ := mem_unlessRepeated.1 hi
    exact ⟨front, back, heq, hnone⟩
  · rintro ⟨front, back, heq, hnone⟩
    exact ⟨front, i, back, heq, mem_unlessRepeated.2 ⟨rfl, hnone⟩⟩

theorem pairwise_firsts (issues : List Issue) : (firsts issues).Pairwise fun i j => ¬i.Same j := by
  have hpairwise : ∀ before : List Issue,
      (eachAfter unlessRepeated before issues).Pairwise fun i j => ¬i.Same j := by
    induction issues with
    | nil => exact fun _ => .nil
    | cons i is ih =>
      intro before
      rw [eachAfter, List.pairwise_append]
      refine ⟨?_, ih _, ?_⟩
      · unfold unlessRepeated
        split <;> simp
      · intro j hj k hk
        obtain ⟨rfl, -⟩ := mem_unlessRepeated.1 hj
        obtain ⟨front, back, -, hnone⟩ := mem_eachAfter_unlessRepeated.1 hk
        exact hnone j (by simp)
  exact hpairwise []

/-- Issues of which none is the same as another are all kept. -/
theorem firsts_eq_self {issues : List Issue} (h : issues.Pairwise fun i j => ¬i.Same j) :
    firsts issues = issues := by
  have hall : ∀ before : List Issue, (∀ j ∈ before, ∀ i ∈ issues, ¬j.Same i) →
      eachAfter unlessRepeated before issues = issues := by
    induction issues with
    | nil => exact fun _ _ => rfl
    | cons i is ih =>
      intro before hbefore
      obtain ⟨hi, his⟩ := List.pairwise_cons.1 h
      have hnew : unlessRepeated before i = [i] :=
        if_neg fun ⟨j, hj, hsame⟩ => hbefore j hj i List.mem_cons_self hsame
      rw [eachAfter, hnew, ih his, List.singleton_append]
      intro j hj k hk
      rcases List.mem_append.1 hj with hj | hj
      · exact hbefore j hj k (List.mem_cons_of_mem _ hk)
      · rw [List.mem_singleton.1 hj]
        exact hi k hk
  exact hall [] (by simp)

theorem exists_first {issues : List Issue} {i : Issue} (hi : i ∈ issues) :
    ∃ j ∈ firsts issues, j.Same i := by
  have hsome : (issues.find? fun j => j.Same i).isSome = true :=
    List.find?_isSome.2 ⟨i, hi, decide_eq_true ⟨rfl, rfl, rfl⟩⟩
  obtain ⟨j, hj⟩ := Option.isSome_iff_exists.1 hsome
  obtain ⟨hsame, front, back, heq, hfront⟩ := List.find?_eq_some_iff_append.1 hj
  rw [decide_eq_true_eq] at hsame
  refine ⟨j, mem_eachAfter_unlessRepeated.2 ⟨front, back, heq, fun k hk hkj => ?_⟩, hsame⟩
  exact absurd (hkj.trans hsame) (by simpa using hfront k hk)

theorem distinct_eq_eachAfter (before issues : List Issue)
    (h : ∀ i ∈ before ++ issues, (0 : CodeUnit) ∉ i.code) :
    distinct (before.map identity) issues = eachAfter unlessRepeated before issues := by
  induction issues generalizing before with
  | nil => rfl
  | cons i is ih =>
    have hrest := ih (before ++ [i]) (by simpa using h)
    have hknown : i.identity ∈ before.map identity ↔ ∃ j ∈ before, j.Same i := by
      rw [List.mem_map]
      refine exists_congr fun j => and_congr_right fun hj => ?_
      exact (same_iff (h j (List.mem_append_left _ hj)) (h i (by simp))).symm
    have hnext : ∀ {x : Int × Text}, x ∈ (before ++ [i]).map identity ↔
        x ∈ before.map identity ∨ x = i.identity := by
      intro x
      rw [List.map_append, List.mem_append, List.map_singleton, List.mem_singleton]
    rw [distinct, eachAfter, ← hrest, unlessRepeated]
    simp only [List.contains_iff_mem, hknown]
    split
    · -- an identity that was met before is met again
      rename_i hsame
      refine distinct_congr fun j _ => ?_
      rw [hnext]
      exact ⟨.inl, fun hj => hj.elim id fun heq => heq ▸ hknown.2 hsame⟩
    · rw [List.singleton_append]
      congr 1
      refine distinct_congr fun j _ => ?_
      rw [hnext, List.mem_cons, or_comm]

/-- Where an issue stands in a report: by command, then by severity. -/
def place (i : Issue) : Int ×ₗ Nat := toLex (i.commandIndex, i.severity.rank)

theorem precedes_iff_place {i j : Issue} : precedes i j = true ↔ i.place ≤ j.place := by
  rw [precedes_iff, place, place, Prod.Lex.toLex_le_toLex]

theorem stableSort_mergeSort (issues : List Issue) :
    StableSort place issues (issues.mergeSort precedes) where
  sorted := (List.pairwise_mergeSort precedes_trans precedes_total issues).imp precedes_iff_place.1
  stable := by
    intro k
    rw [filter_mergeSort precedes_trans precedes_total]
    refine List.mergeSort_of_pairwise (List.pairwise_of_forall_mem_list fun i hi j hj => ?_)
    have hplace : ∀ i ∈ issues.filter (fun i => i.place = k), i.place = k :=
      fun i hi => by simpa using (List.mem_filter.1 hi).2
    rw [precedes_iff_place, hplace i hi, hplace j hj]

def enabled (lists : List (List Issue)) (disabled : List Text) : List Issue :=
  lists.flatten.filter fun i => i.code ∉ disabled

section Merge
variable {lists : List (List Issue)} (h : ∀ i ∈ lists.flatten, (0 : CodeUnit) ∉ i.code)
variable (disabled : List Text)
include h

theorem merge_eq : merge lists disabled = (firsts (enabled lists disabled)).mergeSort precedes := by
  have henabled : (lists.flatten.filter fun i => !disabled.contains i.code) = enabled lists disabled :=
    List.filter_congr fun i _ => by simp
  have hdistinct := distinct_eq_eachAfter [] (enabled lists disabled)
    fun i hi => h i (List.mem_filter.1 hi).1
  rw [merge, henabled, ← List.map_nil, hdistinct, firsts]

theorem mem_merge {i : Issue} : i ∈ merge lists disabled ↔ i ∈ firsts (enabled lists disabled) := by
  rw [merge_eq h, List.mem_mergeSort]

theorem pairwise_merge : (merge lists disabled).Pairwise fun i j => ¬i.Same j := by
  have hsymm : ∀ {i j : Issue}, ¬i.Same j → ¬j.Same i :=
    fun hij hji => hij ⟨hji.1.symm, hji.2.1.symm, hji.2.2.symm⟩
  rw [merge_eq h]
  exact (List.mergeSort_perm _ _).symm.pairwise (pairwise_firsts _) hsymm

/-- Merging a merged list changes nothing. -/
theorem merge_merge {disabled' : List Text} (hsub : disabled' ⊆ disabled) :
    merge [merge lists disabled] disabled' = merge lists disabled := by
  have hmem : ∀ i ∈ merge lists disabled, i ∈ enabled lists disabled := by
    intro i hi
    obtain ⟨front, back, heq, -⟩ := mem_eachAfter_unlessRepeated.1 ((mem_merge h disabled).1 hi)
    rw [heq]
    simp
  have hcodes : ∀ i ∈ [merge lists disabled].flatten, (0 : CodeUnit) ∉ i.code := by
    intro i hi
    rw [List.flatten_singleton] at hi
    exact h i (List.mem_filter.1 (hmem i hi)).1
  have henabled : enabled [merge lists disabled] disabled' = merge lists disabled := by
    rw [enabled, List.flatten_singleton, List.filter_eq_self]
    intro i hi
    have hcode : i.code ∉ disabled := by simpa using (List.mem_filter.1 (hmem i hi)).2
    exact decide_eq_true fun hdisabled => hcode (hsub hdisabled)
  have hsorted : (merge lists disabled).Pairwise fun i j => precedes i j = true := by
    rw [merge_eq h]
    exact List.pairwise_mergeSort precedes_trans precedes_total _
  rw [merge_eq hcodes, henabled, firsts_eq_self (pairwise_merge h disabled)]
  exact List.mergeSort_of_pairwise hsorted

end Merge

/-- Lists of issues are merged into the first occurrences of the issues that are not disabled, in the
stable order by command and severity. So nothing is listed twice and nothing is lost, and neither
another division into lists nor merging once more changes the outcome. -/
theorem merge_firsts {lists : List (List Issue)}
    (h : ∀ i ∈ lists.flatten, (0 : CodeUnit) ∉ i.code) (disabled : List Text) :
    (∀ i ∈ lists.flatten, ∀ j ∈ lists.flatten, i.label = j.label ↔ i.Same j) ∧
    (∀ issues, StableSort place (firsts (enabled lists disabled)) issues ↔
      issues = merge lists disabled) ∧
    (merge lists disabled).Pairwise (fun i j => ¬i.Same j) ∧
    (∀ i ∈ lists.flatten, i.code ∉ disabled → ∃ j ∈ merge lists disabled, j.Same i) ∧
    (∀ lists' : List (List Issue), lists'.flatten = lists.flatten →
      merge lists' disabled = merge lists disabled) ∧
    ∀ disabled' ⊆ disabled, merge [merge lists disabled] disabled' = merge lists disabled := by
  have hsort : StableSort place (firsts (enabled lists disabled)) (merge lists disabled) := by
    rw [merge_eq h]
    exact stableSort_mergeSort _
  refine ⟨?_, ?_, pairwise_merge h disabled, ?_, ?_, fun _ hsub => merge_merge h disabled hsub⟩
  · intro i hi j hj
    rw [label_eq_iff, same_iff (h i hi) (h j hj)]
  · exact fun issues => ⟨fun hissues => hissues.unique hsort, fun heq => heq ▸ hsort⟩
  · intro i hi hcode
    have henabled : i ∈ enabled lists disabled := List.mem_filter.2 ⟨hi, decide_eq_true hcode⟩
    obtain ⟨j, hj, hsame⟩ := exists_first henabled
    exact ⟨j, (mem_merge h disabled).2 hj, hsame⟩
  · intro lists' hflatten
    rw [merge, merge, hflatten]

/-- An issue that is repeated stays as it came first, behind a graver one at its command. -/
theorem merge_firsts_repeated :
    let mild : Issue := ⟨.info, .style, "a", "m", 1, 1, none, none⟩
    let grave : Issue := ⟨.critical, .style, "b", "m", 1, 1, none, none⟩
    let again : Issue := { mild with severity := .critical }
    (∀ i ∈ [[mild, grave], [again]].flatten, (0 : CodeUnit) ∉ i.code) ∧
      [grave, mild] = merge [[mild, grave], [again]] [] := by
  intro mild grave again
  have hcodes : ∀ i ∈ [[mild, grave], [again]].flatten, (0 : CodeUnit) ∉ i.code := by decide
  have hfirsts : firsts (enabled [[mild, grave], [again]] []) = [mild, grave] := by decide
  have hplaces : grave.place ≠ mild.place := by decide
  refine ⟨hcodes, ((merge_firsts hcodes []).2.1 [grave, mild]).1 ⟨by decide, fun k => ?_⟩⟩
  rw [hfirsts]
  by_cases hgrave : grave.place = k
  · have hmild : mild.place ≠ k := hgrave ▸ hplaces.symm
    simp [hgrave, hmild]
  · simp [List.filter_cons, hgrave]

end Issue
end QueryLint
