import Mathlib.Order.Bounds.Basic
import QueryLint.Proofs.Templates

/-!
The name of a fixture block is found by a search that ends.

The search itself has no bound: it goes on for as long as the names that it makes are taken. Different numbers
make different names, none of them the preferred one, so a list of taken names that has the preferred name in it
holds fewer of them than it is long.
-/

namespace QueryLint
set_option autoImplicit false

namespace Fixture

/-- The search for a free number: it starts at one number and ends at another. It goes up for as long as the name is
taken, and nothing else stops it. -/
inductive SearchEnds (taken : List Text) (preferred : Text) : Nat → Nat → Prop where
  | free {n : Nat} (h : numbered preferred n ∉ taken) : SearchEnds taken preferred n n
  | taken {n m : Nat} (h : numbered preferred n ∈ taken) (rest : SearchEnds taken preferred (n + 1) m) :
      SearchEnds taken preferred n m

section Search
variable {taken : List Text} {preferred : Text} {n m : Nat}

/-- The search passes the names that are taken and ends at the first one that is not. -/
theorem searchEnds_iff : SearchEnds taken preferred n m ↔
    n ≤ m ∧ numbered preferred m ∉ taken ∧ ∀ i, n ≤ i → i < m → numbered preferred i ∈ taken := by
  constructor
  · intro h
    induction h with
    | free h => exact ⟨le_rfl, h, fun i hlow hhigh => absurd hhigh (Nat.not_lt.2 hlow)⟩
    | @taken n m h _ ih =>
      obtain ⟨hle, hfree, hbefore⟩ := ih
      refine ⟨by omega, hfree, fun i hlow hhigh => ?_⟩
      rcases hlow.eq_or_lt with rfl | hlow
      · exact h
      · exact hbefore i hlow hhigh
  · rintro ⟨hle, hfree, hbefore⟩
    obtain ⟨steps, rfl⟩ := Nat.exists_eq_add_of_le hle
    induction steps generalizing n with
    | zero => exact .free hfree
    | succ steps ih =>
      have hsum : n + (steps + 1) = n + 1 + steps := by omega
      rw [hsum] at hfree hbefore ⊢
      refine .taken (hbefore n le_rfl (by omega)) (ih (by omega) hfree ?_)
      intro i hlow hhigh
      exact hbefore i (by omega) hhigh

theorem SearchEnds.isLeast (h : SearchEnds taken preferred n m) :
    IsLeast {i | n ≤ i ∧ numbered preferred i ∉ taken} m := by
  obtain ⟨hle, hfree, hbefore⟩ := searchEnds_iff.1 h
  refine ⟨⟨hle, hfree⟩, ?_⟩
  rintro i ⟨hlow, hi⟩
  by_contra hless
  exact hi (hbefore i hlow (by omega))

theorem SearchEnds.unique {m' : Nat} (h : SearchEnds taken preferred n m) (h' : SearchEnds taken preferred n m') :
    m = m' :=
  h.isLeast.unique h'.isLeast

theorem exists_searchEnds (h : preferred ∈ taken) : ∃ n < taken.length + 2,
    SearchEnds taken preferred 2 n ∧ freeName taken preferred = numbered preferred n := by
  obtain ⟨i, hi, hname, hfree, hbefore⟩ := exists_freeName_eq h
  refine ⟨i + 2, by omega, searchEnds_iff.2 ⟨by omega, hfree, ?_⟩, hname⟩
  intro n hlow hhigh
  obtain ⟨j, rfl⟩ := Nat.exists_eq_add_of_le' hlow
  exact hbefore j (by omega)

end Search

/-- The name of a fixture block is none that a block of the document has. It is the preferred name if that is free.
Otherwise the search from two on ends, at one number only, which is the least with a free name and makes the name. -/
theorem freeName_search_ends (d : Document) (preferred : Text) :
    let taken := d.blocks.map (·.name)
    freeName taken preferred ∉ taken ∧
    (preferred ∉ taken → freeName taken preferred = preferred) ∧
    (preferred ∈ taken → ∃ n < taken.length + 2, (∀ m, SearchEnds taken preferred 2 m ↔ m = n) ∧
      IsLeast {n | 2 ≤ n ∧ numbered preferred n ∉ taken} n ∧ freeName taken preferred = numbered preferred n) := by
  intro taken
  refine ⟨freeName_not_mem taken preferred, freeName_of_not_mem, fun h => ?_⟩
  obtain ⟨n, hn, hends, hname⟩ := exists_searchEnds h
  refine ⟨n, hn, fun m => ⟨fun hm => hm.unique hends, ?_⟩, hends.isLeast, hname⟩
  rintro rfl
  exact hends

end Fixture
end QueryLint
