import Mathlib.Data.List.Induction
import Mathlib.Order.Bounds.Basic
import Mathlib.Order.MinMax
import QueryLint.Rules.Ordering

/-!
The distance of two texts is the least number of edits that lead from one to the other.

The rows follow a recurrence on two texts that are read from their ends. No edit, wherever it is made, takes a
text away from another one by more than one, so no sequence of edits is shorter than the recurrence says; and
each choice of the recurrence is an edit, which gives a sequence of that length.
-/

namespace QueryLint
set_option autoImplicit false

namespace Text

/-- One edit: a unit is inserted, deleted or replaced by another one, anywhere in a text. -/
inductive Edit : Text → Text → Prop where
  | insert (front : Text) (c : CodeUnit) (back : Text) : Edit (front ++ back) (front ++ c :: back)
  | delete (front : Text) (c : CodeUnit) (back : Text) : Edit (front ++ c :: back) (front ++ back)
  | replace (front : Text) {c d : CodeUnit} (hne : c ≠ d) (back : Text) :
      Edit (front ++ c :: back) (front ++ d :: back)

/-- So many edits, one after the other, lead from a text to another one. -/
inductive Edits : Nat → Text → Text → Prop where
  | refl (s : Text) : Edits 0 s s
  | step {n : Nat} {s u t : Text} : Edit s u → Edits n u t → Edits (n + 1) s t

theorem Edit.cons {s t : Text} (h : Edit s t) (c : CodeUnit) : Edit (c :: s) (c :: t) := by
  cases h with
  | insert front d back => exact .insert (c :: front) d back
  | delete front d back => exact .delete (c :: front) d back
  | replace front hne back => exact .replace (c :: front) hne back

theorem Edit.reverse {s t : Text} (h : Edit s t) : Edit s.reverse t.reverse := by
  cases h with
  | insert front c back => simpa using Edit.insert back.reverse c front.reverse
  | delete front c back => simpa using Edit.delete back.reverse c front.reverse
  | replace front hne back => simpa using Edit.replace back.reverse hne front.reverse

namespace Edits
variable {n : Nat} {s t : Text}

theorem cons (h : Edits n s t) (c : CodeUnit) : Edits n (c :: s) (c :: t) := by
  induction h with
  | refl s => exact .refl (c :: s)
  | step hedit _ ih => exact .step (hedit.cons c) ih

theorem insert (h : Edits n s t) (d : CodeUnit) : Edits (n + 1) s (d :: t) :=
  .step (.insert [] d s) (h.cons d)

theorem delete (h : Edits n s t) (c : CodeUnit) : Edits (n + 1) (c :: s) t :=
  .step (.delete [] c s) h

theorem replace (h : Edits n s t) (c d : CodeUnit) :
    Edits (n + if c = d then 0 else 1) (c :: s) (d :: t) := by
  split
  · subst d
    exact h.cons c
  · rename_i hne
    exact .step (.replace [] hne s) (h.cons d)

theorem min {m : Nat} (hm : Edits m s t) (hn : Edits n s t) : Edits (min m n) s t := by
  rcases min_choice m n with hmin | hmin
  · rwa [hmin]
  · rwa [hmin]

theorem reverse (h : Edits n s t) : Edits n s.reverse t.reverse := by
  induction h with
  | refl s => exact .refl s.reverse
  | step hedit _ ih => exact .step hedit.reverse ih

end Edits

/-- How far two texts are apart that are read from their ends. -/
def apart : Text → Text → Nat
  | [], t => t.length
  | _ :: s, [] => s.length + 1
  | c :: s, d :: t =>
    min (min (apart s (d :: t) + 1) (apart (c :: s) t + 1)) (apart s t + if c = d then 0 else 1)
termination_by s t => s.length + t.length

section Recurrence
variable (c d : CodeUnit) (s t : Text)

theorem apart_nil_left : apart [] t = t.length := by
  rw [apart]

theorem apart_nil_right : apart s [] = s.length := by
  cases s with
  | nil => rw [apart]
  | cons c s => rw [apart, List.length_cons]

theorem apart_cons_cons : apart (c :: s) (d :: t) =
    min (min (apart s (d :: t) + 1) (apart (c :: s) t + 1)) (apart s t + if c = d then 0 else 1) := by
  rw [apart]

theorem apart_self : apart s s = 0 := by
  induction s with
  | nil => rw [apart_nil_left, List.length_nil]
  | cons c s ih => simp [apart_cons_cons, ih]

theorem apart_cons_left_le : apart (c :: s) t ≤ apart s t + 1 := by
  cases t with
  | nil => rw [apart_nil_right, apart_nil_right, List.length_cons]
  | cons d t =>
    rw [apart_cons_cons]
    omega

theorem apart_cons_right_le : apart s (d :: t) ≤ apart s t + 1 := by
  cases s with
  | nil => rw [apart_nil_left, apart_nil_left, List.length_cons]
  | cons c s =>
    rw [apart_cons_cons]
    omega

theorem apart_both_le : apart (c :: s) (d :: t) ≤ apart s t + 1 := by
  rw [apart_cons_cons]
  split <;> omega

theorem apart_le_cons_left : apart s t ≤ apart (c :: s) t + 1 := by
  induction t with
  | nil =>
    rw [apart_nil_right, apart_nil_right, List.length_cons]
    omega
  | cons d t ih =>
    have hright := apart_cons_right_le d s t
    rw [apart_cons_cons]
    split <;> omega

theorem apart_replace_le (c' : CodeUnit) : apart (c :: s) t ≤ apart (c' :: s) t + 1 := by
  induction t with
  | nil =>
    rw [apart_nil_right, apart_nil_right, List.length_cons, List.length_cons]
    omega
  | cons d t ih =>
    have hleft := apart_cons_left_le c s (d :: t)
    have hright := apart_cons_right_le d (c :: s) t
    have hboth := apart_both_le c d s t
    rw [apart_cons_cons c']
    split <;> omega

end Recurrence

/-- What is true of two texts stays true with a unit in front of both. -/
theorem apart_cons_le {s u : Text} (h : ∀ t, apart s t ≤ apart u t + 1) (c : CodeUnit) (t : Text) :
    apart (c :: s) t ≤ apart (c :: u) t + 1 := by
  induction t with
  | nil =>
    have hnil := h []
    rw [apart_nil_right, apart_nil_right] at hnil
    rw [apart_nil_right, apart_nil_right, List.length_cons, List.length_cons]
    omega
  | cons d t ih =>
    have hlong := h (d :: t)
    have hshort := h t
    rw [apart_cons_cons c d s, apart_cons_cons c d u]
    omega

theorem apart_append_le {s u : Text} (h : ∀ t, apart s t ≤ apart u t + 1) (front t : Text) :
    apart (front ++ s) t ≤ apart (front ++ u) t + 1 := by
  induction front generalizing t with
  | nil => exact h t
  | cons c front ih => exact apart_cons_le ih c t

theorem Edit.apart_le {s u : Text} (h : Edit s u) (t : Text) : apart s t ≤ apart u t + 1 := by
  cases h with
  | insert front c back => exact apart_append_le (apart_le_cons_left c back) front t
  | delete front c back => exact apart_append_le (apart_cons_left_le c back) front t
  | replace front hne back => exact apart_append_le (fun t => apart_replace_le _ back t _) front t

theorem Edits.apart_le {n : Nat} {s t : Text} (h : Edits n s t) : apart s t ≤ n := by
  induction h with
  | refl s => exact (apart_self s).le
  | step hedit _ ih => exact (hedit.apart_le _).trans (Nat.add_le_add_right ih 1)

theorem edits_apart (s t : Text) : Edits (apart s t) s t := by
  induction s generalizing t with
  | nil =>
    rw [apart_nil_left]
    induction t with
    | nil => exact .refl []
    | cons d t ih => exact ih.insert d
  | cons c s ih =>
    induction t with
    | nil =>
      have hnil := (ih []).delete c
      rwa [apart_nil_right] at hnil ⊢
    | cons d t iht =>
      -- the three choices of the recurrence are the three kinds of edits
      rw [apart_cons_cons]
      exact (((ih (d :: t)).delete c).min (iht.insert d)).min ((ih t).replace c d)

/-- The cells of a row behind the leading part `q` of the second text. Both leading parts stand backwards. -/
def cellsBehind (p q : Text) : Text → List Nat
  | [] => []
  | d :: t => apart p (d :: q) :: cellsBehind p (d :: q) t

/-- The row of the leading part of the first text that is `p` backwards. -/
def rowOf (p t : Text) : List Nat := apart p [] :: cellsBehind p [] t

theorem cellsBehind_nil_left (q t : Text) : cellsBehind [] q t = List.range' (q.length + 1) t.length := by
  induction t generalizing q with
  | nil => rfl
  | cons d t ih =>
    rw [cellsBehind, ih, apart_nil_left]
    rfl

theorem rowOf_nil_left (t : Text) : rowOf [] t = List.range (t.length + 1) := by
  rw [rowOf, cellsBehind_nil_left, apart_nil_left, List.range_eq_range']
  rfl

theorem distanceCells_eq (c : CodeUnit) (p q t : Text) :
    distanceCells c (apart (c :: p) q) (apart p q) t (cellsBehind p q t) = cellsBehind (c :: p) q t := by
  induction t generalizing q with
  | nil => rfl
  | cons d t ih =>
    -- the new cell is the recurrence for the cells above, to the left and on the diagonal
    rw [cellsBehind, cellsBehind, distanceCells, ← ih, apart_cons_cons]

theorem distanceRow_rowOf (c : CodeUnit) (p t : Text) : distanceRow t (rowOf p t) c = rowOf (c :: p) t := by
  have hfirst : apart p [] + 1 = apart (c :: p) [] := by
    rw [apart_nil_right, apart_nil_right, List.length_cons]
  rw [rowOf, rowOf, distanceRow, hfirst, distanceCells_eq]

theorem foldl_distanceRow (s p t : Text) : s.foldl (distanceRow t) (rowOf p t) = rowOf (s.reverse ++ p) t := by
  induction s generalizing p with
  | nil => rfl
  | cons c s ih =>
    rw [List.foldl_cons, distanceRow_rowOf, ih, List.reverse_cons, List.append_assoc, List.singleton_append]

theorem getLastD_cellsBehind (p q t : Text) (n : Nat) :
    (apart p q :: cellsBehind p q t).getLastD n = apart p (t.reverse ++ q) := by
  induction t generalizing q n with
  | nil => rfl
  | cons d t ih =>
    rw [cellsBehind, List.getLastD_cons, ih, List.reverse_cons, List.append_assoc, List.singleton_append]

theorem distance_eq_apart (s t : Text) : distance s t = apart s.reverse t.reverse := by
  rw [distance, ← rowOf_nil_left, foldl_distanceRow, rowOf, getLastD_cellsBehind, List.append_nil,
    List.append_nil]

theorem isLeast_distance (s t : Text) : IsLeast {n | Edits n s t} (distance s t) := by
  rw [distance_eq_apart]
  constructor
  · simpa using (edits_apart s.reverse t.reverse).reverse
  · intro n hn
    exact hn.reverse.apart_le

example : distance "LIMIT" "LINT" = 2 := by decide

end Text

namespace Rules.Ordering
open Text (distance)

/-- The keyword is the earliest of those nearest to the word, which are fewer than three edits away. -/
def IsClosest (keywords : List Text) (word k : Text) : Prop :=
  ∃ before after, keywords = before ++ k :: after ∧ distance word k < 3 ∧
    (∀ other ∈ before, distance word k < distance word other) ∧
    ∀ other ∈ after, distance word k ≤ distance word other

section Closest
variable {keywords : List Text} {word k : Text}

theorem IsClosest.mem (h : IsClosest keywords word k) : k ∈ keywords := by
  obtain ⟨before, after, rfl, -⟩ := h
  exact List.mem_append_right before List.mem_cons_self

theorem IsClosest.lt_three (h : IsClosest keywords word k) : distance word k < 3 := by
  obtain ⟨-, -, -, hless, -⟩ := h
  exact hless

theorem IsClosest.le (h : IsClosest keywords word k) :
    ∀ other ∈ keywords, distance word k ≤ distance word other := by
  obtain ⟨before, after, rfl, -, hbefore, hafter⟩ := h
  intro other hother
  rcases List.mem_append.1 hother with hother | hother
  · exact (hbefore other hother).le
  · rcases List.mem_cons.1 hother with rfl | hother
    · exact le_rfl
    · exact hafter other hother

theorem IsClosest.unique {k' : Text} (h : IsClosest keywords word k) (h' : IsClosest keywords word k') :
    k = k' := by
  have hle := h.le k' h'.mem
  have hle' := h'.le k h.mem
  obtain ⟨before, after, rfl, -, hbefore, -⟩ := h
  obtain ⟨before', after', heq, -, hbefore', -⟩ := h'
  -- neither stands before the other one, which is as near
  rcases List.append_eq_append_iff.1 heq with ⟨between, rfl, htail⟩ | ⟨between, rfl, htail⟩
  · cases between with
    | nil => exact (List.cons.inj htail).1
    | cons first between =>
      obtain rfl := (List.cons.inj htail).1
      exact absurd (hbefore' k (by simp)) (not_lt.2 hle)
  · cases between with
    | nil => exact (List.cons.inj htail).1.symm
    | cons first between =>
      obtain rfl := (List.cons.inj htail).1
      exact absurd (hbefore k' (by simp)) (not_lt.2 hle')

theorem isClosest_concat (hless : distance word k < 3)
    (h : ∀ other ∈ keywords, distance word k < distance word other) : IsClosest (keywords ++ [k]) word k :=
  ⟨keywords, [], rfl, hless, h, by simp⟩

theorem IsClosest.concat {other : Text} (h : IsClosest keywords word k)
    (hle : distance word k ≤ distance word other) : IsClosest (keywords ++ [other]) word k := by
  obtain ⟨before, after, rfl, hless, hbefore, hafter⟩ := h
  refine ⟨before, after ++ [other], by simp, hless, hbefore, ?_⟩
  intro last hlast
  rcases List.mem_append.1 hlast with hlast | hlast
  · exact hafter last hlast
  · rw [List.mem_singleton.1 hlast]
    exact hle

inductive Compared (word : Text) (keywords : List Text) : Option Text × Nat → Prop where
  | far (h : ∀ k ∈ keywords, 3 ≤ distance word k) : Compared word keywords (none, 3)
  | near {k : Text} (h : IsClosest keywords word k) : Compared word keywords (some k, distance word k)

theorem Compared.concat {best : Option Text × Nat} (h : Compared word keywords best) (k : Text) :
    Compared word (keywords ++ [k])
      (if distance word k < best.2 then (some k, distance word k) else best) := by
  cases h with
  | far h =>
    split
    · rename_i hless
      exact .near (isClosest_concat hless fun other hother => Nat.lt_of_lt_of_le hless (h other hother))
    · rename_i hmore
      refine .far fun other hother => ?_
      rcases List.mem_append.1 hother with hother | hother
      · exact h other hother
      · rw [List.mem_singleton.1 hother]
        exact Nat.le_of_not_lt hmore
  | near h =>
    split
    · rename_i hless
      refine .near (isClosest_concat (Nat.lt_trans hless h.lt_three) fun other hother => ?_)
      exact Nat.lt_of_lt_of_le hless (h.le other hother)
    · rename_i hmore
      exact .near (h.concat (Nat.le_of_not_lt hmore))

theorem compared_foldl (keywords : List Text) (word : Text) :
    Compared word keywords (keywords.foldl (fun best candidate =>
      let d := distance word candidate
      if d < best.2 then (some candidate, d) else best) (none, 3)) := by
  induction keywords using List.reverseRecOn with
  | nil => exact .far (by simp)
  | append_singleton keywords k ih =>
    rw [List.foldl_append]
    exact ih.concat k

theorem closestKeyword_cases (keywords : List Text) (word : Text) :
    (closestKeyword keywords word = none ∧ ∀ k ∈ keywords, 3 ≤ distance word k) ∨
      ∃ k, closestKeyword keywords word = some k ∧ IsClosest keywords word k := by
  have hcompared := compared_foldl keywords word
  rw [closestKeyword]
  generalize keywords.foldl _ _ = best at hcompared ⊢
  cases hcompared with
  | far h => exact .inl ⟨rfl, h⟩
  | near h => exact .inr ⟨_, rfl, h⟩

end Closest

/-- The distance of two texts is the least number of edits that lead from one to the other, and the keyword
suggested for a word is the earliest of the nearest ones, provided that these are fewer than three edits away. -/
theorem closestKeyword_nearest :
    (∀ s t : Text, IsLeast {n | Text.Edits n s t} (distance s t)) ∧
    ∀ (dialect : Dialect) (word : Text),
      (∀ k, closestKeyword dialect.keywords word = some k ↔ IsClosest dialect.keywords word k) ∧
      (closestKeyword dialect.keywords word = none ↔ ∀ k ∈ dialect.keywords, 3 ≤ distance word k) := by
  refine ⟨Text.isLeast_distance, fun dialect word => ?_⟩
  rcases closestKeyword_cases dialect.keywords word with ⟨hnone, hfar⟩ | ⟨k, hsome, hclosest⟩
  · refine ⟨fun k => ?_, iff_of_true hnone hfar⟩
    rw [hnone]
    refine iff_of_false (Option.some_ne_none k).symm fun h => ?_
    exact absurd (hfar k h.mem) (Nat.not_le.2 h.lt_three)
  · constructor
    · intro k'
      rw [hsome, Option.some_inj]
      exact ⟨fun heq => heq ▸ hclosest, fun h => hclosest.unique h⟩
    · rw [hsome]
      refine iff_of_false (Option.some_ne_none k) fun hfar => ?_
      exact absurd (hfar k hclosest.mem) (Nat.not_le.2 hclosest.lt_three)

end Rules.Ordering
end QueryLint
