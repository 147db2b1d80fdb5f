import Mathlib.Data.List.Induction
import QueryLint.Proofs.Histories
import QueryLint.Record

/-!
Records keep one value for each key, and listing one in order changes nothing but the order.
-/

namespace QueryLint.Record
set_option autoImplicit false
variable {α β : Type}

theorem keys_set (key : Text) (value : α) (r : Record α) :
    keys (set key value r) = if key ∈ keys r then keys r else keys r ++ [key] := by
  induction r with
  | nil => simp [set, keys]
  | cons pair r ih =>
    obtain ⟨k, v⟩ := pair
    by_cases hk : k = key
    · simp [set, keys, hk]
    · have hk' : key ≠ k := Ne.symm hk
      simp only [keys] at ih
      by_cases hmem : key ∈ keys r
      · simp only [keys] at hmem
        simp [set, keys, hk, hk', ih, hmem]
      · simp only [keys] at hmem
        simp [set, keys, hk, hk', ih, hmem]

theorem nodup_keys_set {r : Record α} (h : (keys r).Nodup) (key : Text) (value : α) :
    (keys (set key value r)).Nodup := by
  rw [keys_set]
  split
  · exact h
  · rename_i hmem
    rw [List.nodup_append]
    refine ⟨h, by simp, ?_⟩
    intro a ha b hb
    rw [List.mem_singleton.1 hb]
    rintro rfl
    exact hmem ha

theorem nodup_keys_assign {r : Record α} (h : (keys r).Nodup) (key : Text) (value : α) :
    (keys (assign key value r)).Nodup := by
  unfold assign
  split
  · exact h
  · exact nodup_keys_set h key value

/-- A pair of a record was there before or has just been set. -/
theorem mem_set {key : Text} {value : α} {r : Record α} {pair : Text × α} (h : pair ∈ set key value r) :
    pair = (key, value) ∨ pair ∈ r := by
  induction r with
  | nil => exact .inl (List.mem_singleton.1 h)
  | cons other r ih =>
    obtain ⟨k, v⟩ := other
    rw [set] at h
    split at h
    · rename_i hk
      rcases List.mem_cons.1 h with rfl | h
      · exact .inl (by rw [hk])
      · exact .inr (List.mem_cons_of_mem _ h)
    · rcases List.mem_cons.1 h with rfl | h
      · exact .inr List.mem_cons_self
      · exact (ih h).imp id (List.mem_cons_of_mem _)

theorem mem_assign {key : Text} {value : α} {r : Record α} {pair : Text × α}
    (h : pair ∈ assign key value r) : (pair = (key, value) ∧ key ≠ reservedKey) ∨ pair ∈ r := by
  unfold assign at h
  split at h
  · exact .inr h
  · rename_i hkey
    exact (mem_set h).imp (fun heq => ⟨heq, hkey⟩) id

theorem mem_keys_assign {key k : Text} {value : α} {r : Record α} :
    k ∈ keys (assign key value r) ↔ (key = k ∧ k ≠ reservedKey) ∨ k ∈ keys r := by
  unfold assign
  split
  · rename_i hkey
    refine ⟨.inr, fun h => h.resolve_left ?_⟩
    rintro ⟨rfl, hne⟩
    exact hne hkey
  · rename_i hkey
    have hset : k ∈ keys (set key value r) ↔ key = k ∨ k ∈ keys r := by
      rw [keys_set]
      split
      · rename_i hmem
        exact ⟨.inr, fun h => h.elim (fun heq => heq ▸ hmem) id⟩
      · rw [List.mem_append, List.mem_singleton, or_comm, eq_comm]
    rw [hset]
    refine or_congr_left (and_iff_left_of_imp ?_).symm
    rintro rfl
    exact hkey

section Fold
variable {γ : Type} {key : γ → Text} {value : γ → α}

theorem nodup_keys_foldl {r : Record α} (h : (keys r).Nodup) (xs : List γ) :
    (keys (xs.foldl (fun r x => assign (key x) (value x) r) r)).Nodup := by
  induction xs generalizing r with
  | nil => exact h
  | cons x xs ih => exact ih (nodup_keys_assign h (key x) (value x))

theorem mem_foldl {xs : List γ} {r : Record α} {pair : Text × α}
    (h : pair ∈ xs.foldl (fun r x => assign (key x) (value x) r) r) :
    (∃ x ∈ xs, pair = (key x, value x) ∧ key x ≠ reservedKey) ∨ pair ∈ r := by
  induction xs generalizing r with
  | nil => exact .inr h
  | cons x xs ih =>
    rcases ih h with ⟨y, hy, heq⟩ | hmem
    · exact .inl ⟨y, List.mem_cons_of_mem _ hy, heq⟩
    · exact (mem_assign hmem).imp (fun heq => ⟨x, List.mem_cons_self, heq⟩) id

theorem mem_keys_foldl {xs : List γ} {r : Record α} {k : Text} :
    k ∈ keys (xs.foldl (fun r x => assign (key x) (value x) r) r) ↔
      (∃ x ∈ xs, key x = k ∧ k ≠ reservedKey) ∨ k ∈ keys r := by
  induction xs generalizing r with
  | nil => simp
  | cons x xs ih =>
    rw [List.foldl_cons, ih, mem_keys_assign, or_left_comm, ← or_assoc]
    simp only [List.mem_cons, or_and_right, exists_or, exists_eq_left]

end Fold

theorem set_of_not_mem {key : Text} {r : Record α} (h : key ∉ keys r) (value : α) :
    set key value r = r ++ [(key, value)] := by
  induction r with
  | nil => rfl
  | cons pair r ih =>
    obtain ⟨k, v⟩ := pair
    simp only [keys, List.map_cons, List.mem_cons, not_or] at h
    rw [set, if_neg (Ne.symm h.1), ih h.2, List.cons_append]

theorem ofPairs_eq_self {r : Record α} (h : (keys r).Nodup) : ofPairs r = r := by
  have hfold : ∀ (done rest : Record α), (keys (done ++ rest)).Nodup →
      rest.foldl (fun r pair => set pair.1 pair.2 r) done = done ++ rest := by
    intro done rest
    induction rest generalizing done with
    | nil => simp
    | cons pair rest ih =>
      intro hnodup
      have hfresh : pair.1 ∉ keys done := by
        intro hmem
        rw [keys, List.map_append, List.nodup_append] at hnodup
        exact hnodup.2.2 pair.1 hmem pair.1 (by simp) rfl
      rw [List.foldl_cons, set_of_not_mem hfresh, ih, List.append_assoc, List.singleton_append]
      rwa [List.append_assoc, List.singleton_append]
  exact hfold [] r h

theorem mem_of_mem_ofPairs {pairs : List (Text × α)} {pair : Text × α} (h : pair ∈ ofPairs pairs) :
    pair ∈ pairs := by
  have hfold : ∀ (pairs : List (Text × α)) (r : Record α),
      pair ∈ pairs.foldl (fun r pair => set pair.1 pair.2 r) r → pair ∈ r ∨ pair ∈ pairs := by
    intro pairs
    induction pairs with
    | nil => exact fun r hmem => Or.inl hmem
    | cons other pairs ih =>
      intro r hmem
      rcases ih _ hmem with hmem | hmem
      · rcases mem_set hmem with rfl | hmem
        · exact Or.inr List.mem_cons_self
        · exact Or.inl hmem
      · exact Or.inr (List.mem_cons_of_mem _ hmem)
  rcases hfold pairs [] h with hmem | hmem
  · cases hmem
  · exact hmem

@[simp] theorem get?_nil (key : Text) : get? ([] : Record α) key = none := rfl

theorem get?_cons (k : Text) (v : α) (r : Record α) (key : Text) :
    get? ((k, v) :: r) key = if key = k then some v else get? r key := by
  by_cases hk : key = k
  · simp [get?, hk]
  · rw [if_neg hk, get?, List.lookup_cons, beq_false_of_ne hk]
    rfl

theorem mem_of_get? {r : Record α} {key : Text} {v : α} (h : get? r key = some v) : (key, v) ∈ r := by
  induction r with
  | nil => cases h
  | cons pair r ih =>
    obtain ⟨k, w⟩ := pair
    rw [get?_cons] at h
    split at h
    · rename_i hk
      cases h
      rw [hk]
      exact List.mem_cons_self
    · exact List.mem_cons_of_mem _ (ih h)

theorem mem_keys_iff {r : Record α} {key : Text} : key ∈ keys r ↔ ∃ v, (key, v) ∈ r := by
  simp [keys]

theorem get?_eq_none_iff {r : Record α} {key : Text} : get? r key = none ↔ key ∉ keys r := by
  induction r with
  | nil => simp [keys]
  | cons pair r ih =>
    obtain ⟨k, w⟩ := pair
    rw [get?_cons]
    by_cases hk : key = k
    · simp [hk, keys]
    · rw [if_neg hk, ih]
      simp [hk, keys]

theorem has_iff {r : Record α} {key : Text} : has r key = true ↔ key ∈ keys r := by
  rw [has, Option.isSome_iff_ne_none, ne_eq, get?_eq_none_iff, Decidable.not_not]

theorem get?_eq_some_iff {r : Record α} (hr : (keys r).Nodup) {key : Text} {v : α} :
    get? r key = some v ↔ (key, v) ∈ r := by
  refine ⟨mem_of_get?, ?_⟩
  intro hmem
  induction r with
  | nil => cases hmem
  | cons pair r ih =>
    obtain ⟨k, w⟩ := pair
    obtain ⟨hk, hr⟩ := List.nodup_cons.1 hr
    rw [get?_cons]
    rcases List.mem_cons.1 hmem with heq | hother
    · cases heq
      rw [if_pos rfl]
    · have hne : key ≠ k := by
        rintro rfl
        exact hk (mem_keys_iff.2 ⟨v, hother⟩)
      rw [if_neg hne, ih hr hother]

theorem get?_of_unique {r : Record α} {key : Text} {v : α} (h : (key, v) ∈ r)
    (hunique : ∀ w, (key, w) ∈ r → w = v) : get? r key = some v := by
  cases hfound : get? r key with
  | none => exact absurd (mem_keys_iff.2 ⟨v, h⟩) (get?_eq_none_iff.1 hfound)
  | some w => rw [hunique w (mem_of_get? hfound)]

theorem get?_set (key : Text) (value : α) (r : Record α) (k : Text) :
    get? (set key value r) k = if k = key then some value else get? r k := by
  induction r with
  | nil => rw [set, get?_cons]
  | cons pair r ih =>
    obtain ⟨k', w⟩ := pair
    rw [set]
    split
    · rename_i hk
      rw [get?_cons, get?_cons, hk]
      split <;> rfl
    · rename_i hk
      rw [get?_cons, get?_cons, ih]
      by_cases hkey : k = key
      · subst hkey
        rw [if_neg (Ne.symm hk), if_pos rfl, if_pos rfl]
      · rw [if_neg hkey, if_neg hkey]

theorem nodup_keys_foldl_set {r : Record α} (h : (keys r).Nodup) (pairs : List (Text × α)) :
    (keys (pairs.foldl (fun r pair => set pair.1 pair.2 r) r)).Nodup := by
  induction pairs generalizing r with
  | nil => exact h
  | cons pair pairs ih => exact ih (nodup_keys_set h pair.1 pair.2)

/-- Setting the pairs of a record gives its keys their values and changes nothing else. -/
theorem get?_foldl_set {pairs : Record α} (h : (keys pairs).Nodup) (r : Record α) (key : Text) :
    get? (pairs.foldl (fun r pair => set pair.1 pair.2 r) r) key = (get? pairs key).or (get? r key) := by
  induction pairs generalizing r with
  | nil => rfl
  | cons pair pairs ih =>
    obtain ⟨k, v⟩ := pair
    obtain ⟨hk, hpairs⟩ := List.nodup_cons.1 h
    rw [List.foldl_cons, ih hpairs, get?_set, get?_cons]
    split
    · rename_i hkey
      rw [hkey, get?_eq_none_iff.2 hk, Option.none_or, Option.some_or]
    · rfl

theorem ofPairs_concat (pairs : List (Text × α)) (pair : Text × α) :
    ofPairs (pairs ++ [pair]) = set pair.1 pair.2 (ofPairs pairs) := by
  simp [ofPairs]

/-- The keys of a record that is set pair by pair stand in the order in which they come first. -/
theorem keys_ofPairs (pairs : List (Text × α)) :
    keys (ofPairs pairs) = (pairs.map Prod.fst).eraseDups := by
  induction pairs using List.reverseRecOn with
  | nil => rfl
  | append_singleton pairs pair ih =>
    rw [ofPairs_concat, keys_set, ih, List.map_append, List.map_singleton, eraseDups_concat]
    simp only [List.mem_eraseDups]

theorem get?_ofPairs (pairs : List (Text × α)) (key : Text) :
    get? (ofPairs pairs) key = ((pairs.filter fun pair => pair.1 = key).getLast?).map Prod.snd := by
  induction pairs using List.reverseRecOn with
  | nil => rfl
  | append_singleton pairs pair ih =>
    rw [ofPairs_concat, get?_set, ih, List.filter_append]
    by_cases hkey : pair.1 = key
    · simp [hkey]
    · simp [hkey, Ne.symm hkey]

theorem get?_assign (key : Text) (value : α) (r : Record α) (k : Text) :
    get? (assign key value r) k =
      if k = key ∧ key ≠ reservedKey then some value else get? r k := by
  unfold assign
  split
  · rename_i hkey
    rw [if_neg fun h => h.2 hkey]
  · rename_i hkey
    rw [get?_set]
    simp [hkey]

theorem set_map (f : α → β) (key : Text) (value : α) (r : Record α) :
    set key (f value) (r.map fun pair => (pair.1, f pair.2)) =
      (set key value r).map fun pair => (pair.1, f pair.2) := by
  induction r with
  | nil => rfl
  | cons pair r ih =>
    rw [List.map_cons, set, set]
    split
    · rfl
    · rw [ih, List.map_cons]

theorem ofPairs_map (f : α → β) (pairs : List (Text × α)) :
    ofPairs (pairs.map fun pair => (pair.1, f pair.2)) =
      (ofPairs pairs).map fun pair => (pair.1, f pair.2) := by
  have hfold : ∀ r : Record α,
      (pairs.map fun pair => (pair.1, f pair.2)).foldl (fun r pair => set pair.1 pair.2 r)
          (r.map fun pair => (pair.1, f pair.2)) =
        (pairs.foldl (fun r pair => set pair.1 pair.2 r) r).map fun pair => (pair.1, f pair.2) := by
    induction pairs with
    | nil => exact fun r => rfl
    | cons pair pairs ih =>
      intro r
      rw [List.map_cons, List.foldl_cons, List.foldl_cons, ← ih, ← set_map]
  exact hfold []

theorem arranged_perm (r : Record α) : (arranged r).Perm r :=
  ((List.mergeSort_perm _ _).append_right _).trans (List.filter_append_perm _ r)

theorem arranged_append {xs ys : Record α}
    (hsorted : xs.Pairwise fun a b => decide ((index? a.1).getD 0 ≤ (index? b.1).getD 0) = true)
    (hxs : ∀ pair ∈ xs, isIndex pair.1 = true) (hys : ∀ pair ∈ ys, isIndex pair.1 = false) :
    arranged (xs ++ ys) = xs ++ ys := by
  have hindices : ((xs ++ ys).filter fun pair => isIndex pair.1) = xs := by
    rw [List.filter_append, List.filter_eq_self.2 hxs, List.filter_eq_nil_iff.2, List.append_nil]
    exact fun pair hpair => by simp [hys pair hpair]
  have hothers : ((xs ++ ys).filter fun pair => !isIndex pair.1) = ys := by
    rw [List.filter_append, List.filter_eq_nil_iff.2, List.nil_append, List.filter_eq_self.2]
    · exact fun pair hpair => by simp [hys pair hpair]
    · exact fun pair hpair => by simp [hxs pair hpair]
  rw [arranged, hindices, hothers, List.mergeSort_of_pairwise hsorted]

theorem arranged_of_not_isIndex {r : Record α} (h : ∀ pair ∈ r, isIndex pair.1 = false) : arranged r = r :=
  arranged_append List.Pairwise.nil (fun _ hpair => absurd hpair List.not_mem_nil) h

theorem arranged_idem (r : Record α) : arranged (arranged r) = arranged r := by
  refine arranged_append (List.pairwise_mergeSort ?_ ?_ _) ?_ ?_
  · intro a b c hab hbc
    simp only [decide_eq_true_eq] at hab hbc ⊢
    omega
  · intro a b
    simp only [Bool.or_eq_true, decide_eq_true_eq]
    omega
  · intro pair hpair
    exact (List.mem_filter.1 ((List.mergeSort_perm _ _).mem_iff.1 hpair)).2
  · intro pair hpair
    simpa using (List.mem_filter.1 hpair).2

/-- The order of a listing depends on the keys alone. -/
theorem arranged_map (f : Text × α → β) (r : Record α) :
    arranged (r.map fun pair => (pair.1, f pair)) = (arranged r).map fun pair => (pair.1, f pair) := by
  unfold arranged
  rw [List.map_append, List.map_mergeSort (s := fun a b : Text × β =>
    decide ((index? a.1).getD 0 ≤ (index? b.1).getD 0)) (fun _ _ _ _ => rfl), List.filter_map,
    List.filter_map]
  rfl

/-- A record in its listed order, with each key once and without the reserved one. -/
structure IsListing (r : Record α) : Prop where
  nodup : (keys r).Nodup
  arranged : arranged r = r
  unreserved : reservedKey ∉ keys r

theorem IsListing.map {r : Record α} (h : IsListing r) (f : α → β) :
    IsListing (r.map fun pair => (pair.1, f pair.2)) := by
  have hkeys : keys (r.map fun pair => (pair.1, f pair.2)) = keys r := by simp [keys]
  refine ⟨?_, ?_, ?_⟩
  · rw [hkeys]
    exact h.nodup
  · rw [arranged_map (fun pair => f pair.2), h.arranged]
  · rw [hkeys]
    exact h.unreserved

theorem nodup_keys_arranged {r : Record α} (h : (keys r).Nodup) : (keys (arranged r)).Nodup :=
  ((arranged_perm r).map _).nodup_iff.2 h

theorem isListing_arranged {r : Record α} (hnodup : (keys r).Nodup) (hunreserved : reservedKey ∉ keys r) :
    IsListing (Record.arranged r) where
  nodup := nodup_keys_arranged hnodup
  arranged := arranged_idem r
  unreserved := by rwa [keys, ((arranged_perm r).map _).mem_iff]

theorem get?_arranged {r : Record α} (h : (keys r).Nodup) (key : Text) :
    get? (arranged r) key = get? r key := by
  apply Option.ext
  intro v
  rw [get?_eq_some_iff (nodup_keys_arranged h), get?_eq_some_iff h, (arranged_perm r).mem_iff]

end QueryLint.Record
