import Mathlib.Data.List.Basic
import Mathlib.Data.List.Induction

/-!
Lists that are read from the front: what is made of an element depends on the elements before it.
-/

namespace QueryLint
set_option autoImplicit false
variable {α β : Type}

/-- What `f` makes of the elements of a list, each with all elements before it; `before` stands in
front of the list. -/
def eachAfter (f : List α → α → List β) (before : List α) : List α → List β
  | [] => []
  | x :: xs => f before x ++ eachAfter f (before ++ [x]) xs

variable (f : List α → α → List β)

theorem eachAfter_append (before xs ys : List α) :
    eachAfter f before (xs ++ ys) = eachAfter f before xs ++ eachAfter f (before ++ xs) ys := by
  induction xs generalizing before with
  | nil => simp [eachAfter]
  | cons x xs ih => simp [eachAfter, ih]

theorem mem_eachAfter {f : List α → α → List β} {before xs : List α} {y : β} :
    y ∈ eachAfter f before xs ↔
      ∃ front x back, xs = front ++ x :: back ∧ y ∈ f (before ++ front) x := by
  induction xs generalizing before with
  | nil => simp [eachAfter]
  | cons x xs ih =>
    rw [eachAfter, List.mem_append, ih]
    constructor
    · rintro (hy | ⟨front, x', back, rfl, hy⟩)
      · exact ⟨[], x, xs, rfl, by simpa using hy⟩
      · exact ⟨x :: front, x', back, rfl, by simpa using hy⟩
    · rintro ⟨front, x', back, heq, hy⟩
      rcases List.cons_eq_append_iff.1 heq with ⟨rfl, heq⟩ | ⟨front, rfl, rfl⟩
      · cases heq
        exact .inl (by simpa using hy)
      · exact .inr ⟨front, x', back, rfl, by simpa using hy⟩

/-- What is made of an element is found by a test that nothing else passes. -/
theorem filter_eachAfter {f : List α → α → List β} {p : β → Bool} {before front back : List α} {x : α}
    (hfront : ∀ earlier, ∀ x' ∈ front, ∀ y ∈ f earlier x', p y = false)
    (hback : ∀ earlier, ∀ x' ∈ back, ∀ y ∈ f earlier x', p y = false) :
    (eachAfter f before (front ++ x :: back)).filter p = (f (before ++ front) x).filter p := by
  have hnone : ∀ earlier {xs : List α}, (∀ earlier, ∀ x' ∈ xs, ∀ y ∈ f earlier x', p y = false) →
      (eachAfter f earlier xs).filter p = [] := by
    intro earlier xs hxs
    refine List.filter_eq_nil_iff.2 fun y hy => ?_
    obtain ⟨front', x', back', rfl, hmade⟩ := mem_eachAfter.1 hy
    simp [hxs _ x' (by simp) y hmade]
  rw [eachAfter_append, eachAfter, List.filter_append, List.filter_append, hnone _ hfront,
    hnone _ hback, List.nil_append, List.append_nil]

theorem eachAfter_nothing (before xs : List α) : eachAfter (fun _ _ => ([] : List β)) before xs = [] := by
  induction xs generalizing before with
  | nil => rfl
  | cons x xs ih => exact ih _

/-- Where duplicates are erased, an element at the end counts only if it is new. -/
theorem eraseDups_concat [BEq α] [LawfulBEq α] (xs : List α) (x : α) :
    (xs ++ [x]).eraseDups = if x ∈ xs then xs.eraseDups else xs.eraseDups ++ [x] := by
  rw [List.eraseDups_append, List.removeAll]
  split
  · rename_i hmem
    rw [List.filter_cons_of_neg (by simpa using hmem)]
    simp
  · rename_i hmem
    rw [List.filter_cons_of_pos (by simpa using hmem)]
    rfl

theorem nodup_eraseDups [BEq α] [LawfulBEq α] (xs : List α) : xs.eraseDups.Nodup := by
  induction xs using List.reverseRecOn with
  | nil => exact List.nodup_nil
  | append_singleton xs x ih =>
    rw [eraseDups_concat]
    split
    · exact ih
    · rename_i hmem
      refine List.nodup_append.2 ⟨ih, by simp, fun y hy z hz => ?_⟩
      rw [List.mem_singleton.1 hz]
      rintro rfl
      exact hmem (List.mem_eraseDups.1 hy)

end QueryLint
