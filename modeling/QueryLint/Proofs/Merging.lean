import QueryLint.Proofs.Verdicts

/-!
How lists of issues are merged.

Issues that are taken for one share their code, and the order of a report is stable. So leaving out
the issues of some codes can be done before the lists are merged or afterwards: no issue hides,
reveals or moves an issue of another code.
-/

namespace QueryLint
set_option autoImplicit false

section Sorting
variable {α : Type} {le : α → α → Bool}

/-- A list falls apart in one way only into elements that fail a test and elements that pass it. -/
theorem append_inj_of_test {q : α → Bool} {xs ys xs' ys' : List α} (h : xs ++ ys = xs' ++ ys')
    (hxs : ∀ a ∈ xs, q a = false) (hys : ∀ a ∈ ys, q a = true) (hxs' : ∀ a ∈ xs', q a = false)
    (hys' : ∀ a ∈ ys', q a = true) : xs = xs' ∧ ys = ys' := by
  have hfail : ∀ {us vs : List α}, (∀ a ∈ us, q a = false) → (∀ a ∈ vs, q a = true) →
      (us ++ vs).filter (fun a => !q a) = us := by
    intro us vs hus hvs
    rw [List.filter_append, List.filter_eq_self.2 (by simpa using hus),
      List.filter_eq_nil_iff.2 (by simpa using hvs), List.append_nil]
  have hfront : xs = xs' := by rw [← hfail hxs hys, h, hfail hxs' hys']
  subst hfront
  exact ⟨rfl, List.append_cancel_left h⟩

variable (trans : ∀ a b c, le a b = true → le b c = true → le a c = true)
variable (total : ∀ a b, (le a b || le b a) = true)
include trans total

/-- Sorting puts an element behind all that must precede it, and before all that need not. -/
theorem mergeSort_around (a : α) (l : List α) : ∃ before behind : List α,
    (a :: l).mergeSort le = before ++ a :: behind ∧ l.mergeSort le = before ++ behind ∧
      (∀ b ∈ before, le a b = false) ∧ ∀ b ∈ behind, le a b = true := by
  obtain ⟨before, behind, hcons, htail, hbefore⟩ := List.mergeSort_cons trans total a l
  refine ⟨before, behind, hcons, htail, by simpa using hbefore, ?_⟩
  have hsorted := List.pairwise_mergeSort trans total (a :: l)
  rw [hcons, List.pairwise_append, List.pairwise_cons] at hsorted
  exact hsorted.2.1.1

/-- Elements may be left out before sorting or afterwards. -/
theorem filter_mergeSort (p : α → Bool) (l : List α) :
    (l.mergeSort le).filter p = (l.filter p).mergeSort le := by
  induction l with
  | nil => simp
  | cons a l ih =>
    obtain ⟨before, behind, hcons, htail, hbefore, hbehind⟩ := mergeSort_around trans total a l
    rw [htail, List.filter_append] at ih
    rw [hcons, List.filter_append, List.filter_cons, List.filter_cons]
    split
    · obtain ⟨before', behind', hcons', htail', hbefore', hbehind'⟩ :=
        mergeSort_around trans total a (l.filter p)
      rw [htail'] at ih
      obtain ⟨hfront, hback⟩ := append_inj_of_test ih
        (fun b hb => hbefore b (List.mem_filter.1 hb).1) (fun b hb => hbehind b (List.mem_filter.1 hb).1)
        hbefore' hbehind'
      rw [hcons', hfront, hback]
    · exact ih

end Sorting

namespace Issue

theorem precedes_iff {a b : Issue} : precedes a b = true ↔ a.commandIndex < b.commandIndex ∨
    a.commandIndex = b.commandIndex ∧ a.severity.rank ≤ b.severity.rank := by
  simp [precedes]

theorem precedes_trans (a b c : Issue) (hab : precedes a b = true) (hbc : precedes b c = true) :
    precedes a c = true := by
  rw [precedes_iff] at *
  omega

theorem precedes_total (a b : Issue) : (precedes a b || precedes b a) = true := by
  rw [Bool.or_eq_true, precedes_iff, precedes_iff]
  omega

theorem distinct_congr {seen seen' : List (Int × Text)} {issues : List Issue}
    (h : ∀ i ∈ issues, i.identity ∈ seen ↔ i.identity ∈ seen') :
    distinct seen issues = distinct seen' issues := by
  induction issues generalizing seen seen' with
  | nil => rfl
  | cons i is ih =>
    obtain ⟨hi, his⟩ := List.forall_mem_cons.1 h
    have hnext : ∀ j ∈ is, j.identity ∈ i.identity :: seen ↔ j.identity ∈ i.identity :: seen' := by
      intro j hj
      rw [List.mem_cons, List.mem_cons, his j hj]
    simp only [distinct, List.contains_iff_mem, hi, ih his, ih hnext]

/-- Issues may be left out before the repeated ones are dropped or afterwards, if issues that are
taken for one are left out together. -/
theorem filter_distinct {p : Issue → Bool} {issues : List Issue}
    (hp : ∀ i ∈ issues, ∀ j ∈ issues, i.identity = j.identity → p i = p j) (seen : List (Int × Text)) :
    (distinct seen issues).filter p = distinct seen (issues.filter p) := by
  induction issues generalizing seen with
  | nil => rfl
  | cons i is ih =>
    have his := ih fun j hj k hk => hp j (List.mem_cons_of_mem _ hj) k (List.mem_cons_of_mem _ hk)
    rw [distinct, List.filter_cons]
    cases hi : p i with
    | true =>
      simp only [if_true, distinct]
      split
      · exact his seen
      · rw [List.filter_cons_of_pos hi, his]
    | false =>
      simp only [Bool.false_eq_true, if_false]
      split
      · exact his seen
      · -- nothing that is kept has the identity of the issue left out
        rw [List.filter_cons_of_neg (by simp [hi]), his]
        refine distinct_congr fun j hj => ?_
        obtain ⟨hj, hpj⟩ := List.mem_filter.1 hj
        have hne : j.identity ≠ i.identity := by
          intro heq
          have hsame := hp j (List.mem_cons_of_mem _ hj) i List.mem_cons_self heq
          rw [hpj, hi] at hsame
          cases hsame
        simp [hne]

/-- An issue is kept if it occurs with none of its identity before it. -/
theorem mem_distinct {seen : List (Int × Text)} {issues : List Issue} {i : Issue} :
    i ∈ distinct seen issues ↔ i.identity ∉ seen ∧ ∃ front back, issues = front ++ i :: back ∧
      ∀ j ∈ front, j.identity ≠ i.identity := by
  induction issues generalizing seen with
  | nil => simp [distinct]
  | cons k ks ih =>
    have hshift : (∃ front back, ks = front ++ i :: back ∧ ∀ j ∈ front, j.identity ≠ i.identity) ∧
        k.identity ≠ i.identity → ∃ front back, k :: ks = front ++ i :: back ∧
          ∀ j ∈ front, j.identity ≠ i.identity := by
      rintro ⟨⟨front, back, rfl, hfront⟩, hk⟩
      exact ⟨k :: front, back, rfl, List.forall_mem_cons.2 ⟨hk, hfront⟩⟩
    have hsplit : (∃ front back, k :: ks = front ++ i :: back ∧ ∀ j ∈ front, j.identity ≠ i.identity) →
        k = i ∨ (∃ front back, ks = front ++ i :: back ∧ ∀ j ∈ front, j.identity ≠ i.identity) ∧
          k.identity ≠ i.identity := by
      rintro ⟨front, back, heq, hfront⟩
      cases front with
      | nil => exact .inl (List.head_eq_of_cons_eq heq)
      | cons _ front =>
        rw [List.cons_append, List.cons.injEq] at heq
        obtain ⟨rfl, rfl⟩ := heq
        obtain ⟨hk, hfront⟩ := List.forall_mem_cons.1 hfront
        exact .inr ⟨⟨front, back, rfl, hfront⟩, hk⟩
    rw [distinct]
    split
    · rename_i hseen
      rw [List.contains_iff_mem] at hseen
      rw [ih]
      refine and_congr_right fun hi => ⟨fun h => hshift ⟨h, ?_⟩, fun h => ?_⟩
      · rintro heq
        exact hi (heq ▸ hseen)
      · rcases hsplit h with rfl | h
        · exact absurd hseen hi
        · exact h.1
    · rename_i hseen
      rw [List.contains_iff_mem] at hseen
      rw [List.mem_cons, ih, List.mem_cons, not_or]
      constructor
      · rintro (rfl | ⟨⟨hne, hi⟩, h⟩)
        · exact ⟨hseen, [], ks, rfl, by simp⟩
        · exact ⟨hi, hshift ⟨h, Ne.symm hne⟩⟩
      · rintro ⟨hi, h⟩
        rcases hsplit h with rfl | ⟨h, hne⟩
        · exact .inl rfl
        · exact .inr ⟨⟨Ne.symm hne, hi⟩, h⟩

section Merge
variable {lists : List (List Issue)} (h : ∀ i ∈ lists.flatten, i.Ruled)
include h

theorem code_eq {i j : Issue} (hi : i ∈ lists.flatten) (hj : j ∈ lists.flatten)
    (heq : i.identity = j.identity) : i.code = j.code :=
  ((identity_eq_iff (h i hi).zero_not_mem (h j hj).zero_not_mem).1 heq).2.1

/-- The issues of some codes may be left out before merging or afterwards. -/
theorem filter_merge (p : Text → Bool) (disabled : List Text) :
    (merge lists disabled).filter (fun i => p i.code) =
      merge (lists.map (List.filter fun i => p i.code)) disabled := by
  have hkept : ∀ i ∈ lists.flatten.filter (fun i => !disabled.contains i.code), i ∈ lists.flatten :=
    fun i hi => (List.mem_filter.1 hi).1
  unfold merge
  rw [filter_mergeSort precedes_trans precedes_total, filter_distinct, ← List.filter_flatten,
    List.filter_filter, List.filter_filter]
  · simp only [Bool.and_comm]
  · intro i hi j hj heq
    rw [code_eq h (hkept i hi) (hkept j hj) heq]

/-- Disabling rules leaves their issues out of the report. -/
theorem merge_disabled (disabled : List Text) :
    merge lists disabled = (merge lists []).filter fun i => !disabled.contains i.code := by
  rw [filter_merge h fun code => !disabled.contains code]
  unfold merge
  rw [← List.filter_flatten, List.filter_filter]
  simp

end Merge

end Issue
end QueryLint
