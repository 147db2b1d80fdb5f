import Mathlib.Algebra.Order.Floor.Semiring
import QueryLint.Proofs.WholeNumbers

/-!
Rounded quotients of whole numbers.

Below 2 ^ 53 a quotient that exceeds a whole number still exceeds it when it is rounded: the quotient is further
away than the rounding can reach. So rounded quotients are on the same side of every whole number as the exact
ones, and have the same ceiling.
-/

namespace QueryLint.Number
set_option autoImplicit false

/-- A number of the format that exceeds a whole number leaves a gap. -/
theorem OnGrid.add_le {x : ℚ} (hx : OnGrid x) (hle : x ≤ 2 ^ 53) {n : Nat} (h : (n : ℚ) < x) :
    n + x / 2 ^ 53 ≤ x := by
  obtain ⟨k, e, hk, -, heq⟩ := hx
  rcases le_total 0 e with he | he
  · -- a whole number itself
    obtain ⟨i, rfl⟩ := Int.eq_ofNat_of_zero_le he
    have hwhole : x = (k * 2 ^ i : Nat) := by
      rw [heq, twoPow_natCast]
      push_cast
      rfl
    have hsucc : ((n + 1 : Nat) : ℚ) ≤ x := by
      rw [hwhole] at h ⊢
      exact_mod_cast h
    push_cast at hsucc
    linarith
  · -- a whole number of steps that are not wider than one
    obtain ⟨i, hi⟩ := Int.eq_ofNat_of_zero_le (neg_nonneg.2 he)
    have hstep : twoPow e * 2 ^ i = 1 := by
      rw [← twoPow_natCast, ← twoPow_add, ← hi, Int.add_right_neg, twoPow_eq, zpow_zero]
    have hsteps : n * 2 ^ i + 1 ≤ k := by
      have hless : ((n * 2 ^ i : Nat) : ℚ) < k := by
        push_cast
        calc (n : ℚ) * 2 ^ i < x * 2 ^ i := mul_lt_mul_of_pos_right h (by positivity)
          _ = k := by rw [heq, mul_assoc, hstep, mul_one]
      exact_mod_cast hless
    have hgap : ((n * 2 ^ i + 1 : Nat) : ℚ) * twoPow e ≤ k * twoPow e :=
      mul_le_mul_of_nonneg_right (by exact_mod_cast hsteps) (twoPow_pos e).le
    have hexpand : ((n * 2 ^ i + 1 : Nat) : ℚ) * twoPow e = n + twoPow e := by
      push_cast
      rw [add_mul, mul_assoc, mul_comm (2 ^ i) (twoPow e), hstep, mul_one, one_mul]
    have hwide : x / 2 ^ 53 ≤ twoPow e := by
      rw [div_le_iff₀ (by norm_num), heq, mul_comm]
      exact mul_le_mul_of_nonneg_left (by exact_mod_cast hk) (twoPow_pos e).le
    rw [← heq, hexpand] at hgap
    linarith

/-- The rounding of a magnitude does not reach a number that is so far below it. -/
theorem lt_nearest {g q : ℚ} (hq : normalBound ≤ q) (h : g + q / 2 ^ 53 ≤ q) : g < nearest q := by
  have hpos : 0 < q := (twoPow_pos _).trans_le hq
  rcases (spacing_mul_le hq).lt_or_eq with hless | heq
  · have hnearest := sub_half_spacing_le_nearest hpos
    linarith
  · -- a power of two is not rounded at all
    have hself : nearest q = q := nearest_of_multiple hpos.ne' (z := 2 ^ 52) (by
      push_cast
      rw [mul_comm]
      exact heq.symm)
    rw [hself]
    linarith

theorem eq_natCeil {q : ℚ} (hq : 0 ≤ q) : q.ceil = (⌈q⌉₊ : Int) := by
  have hceil : 0 ≤ q.ceil := by
    have hcast : (0 : ℚ) ≤ q.ceil := hq.trans Rat.le_ceil
    exact_mod_cast hcast
  obtain ⟨k, hk⟩ := Int.eq_ofNat_of_zero_le hceil
  apply le_antisymm
  · apply Rat.ceil_le_iff.2
    exact_mod_cast Nat.le_ceil q
  · have hle : q ≤ k := by
      have hle := Rat.le_ceil (x := q)
      rw [hk] at hle
      exact_mod_cast hle
    rw [hk]
    exact_mod_cast Nat.ceil_le.2 hle

section Quotient
variable {x : ℚ} {n : Nat}

theorem div_le_bound (hpos : 0 < x) (hle : x ≤ 2 ^ 53) (hn : 0 < n) : x / n ≤ 2 ^ 53 := by
  have hone : (1 : ℚ) ≤ n := by exact_mod_cast hn
  exact (div_le_self hpos.le hone).trans hle

theorem onGrid_bound : OnGrid (2 ^ 53) := by
  have hgrid := onGrid_natCast (n := 2 ^ 53) le_rfl
  push_cast at hgrid
  exact hgrid

theorem nearest_div_le_bound (hpos : 0 < x) (hle : x ≤ 2 ^ 53) (hn : 0 < n) : nearest (x / n) ≤ 2 ^ 53 :=
  onGrid_bound.nearest_le (div_pos hpos (by exact_mod_cast hn)) (div_le_bound hpos hle hn)

/-- Rounding keeps a quotient on its side of every whole number. -/
theorem lt_nearest_div_iff (hx : OnGrid x) (hpos : 0 < x) (hle : x ≤ 2 ^ 53) (hn : 0 < n)
    (hnormal : normalBound ≤ x / n) (k : Nat) : (k : ℚ) < nearest (x / n) ↔ (k : ℚ) < x / n := by
  have hdivisor : (0 : ℚ) < n := by exact_mod_cast hn
  constructor
  · intro h
    by_contra hnot
    have hk : k ≤ 2 ^ 53 := by
      have hbound := h.le.trans (nearest_div_le_bound hpos hle hn)
      exact_mod_cast hbound
    have hround := (onGrid_natCast hk).nearest_le (div_pos hpos hdivisor) (not_lt.1 hnot)
    exact absurd h (not_lt.2 hround)
  · intro h
    rw [lt_div_iff₀ hdivisor] at h
    have hgap := hx.add_le hle (n := k * n) (by exact_mod_cast h)
    apply lt_nearest hnormal
    rw [div_right_comm, ← mul_div_cancel_right₀ (k : ℚ) hdivisor.ne', ← add_div]
    apply div_le_div_of_nonneg_right _ hdivisor.le
    exact_mod_cast hgap

theorem finite_div_ofNat (hpos : 0 < x) (hle : x ≤ 2 ^ 53) (hn : 0 < n) (hexact : IsExact n) :
    finite false x / ofNat n = finite false (nearest (x / n)) := by
  have hne : (n : ℚ) ≠ 0 := by exact_mod_cast hn.ne'
  have hbound : nearest (x / n) < overflowBound := by
    have hless := natCast_lt_overflowBound (n := 2 ^ 53) le_rfl
    push_cast at hless
    exact (nearest_div_le_bound hpos hle hn).trans_lt hless
  rw [hexact]
  change (if (n : ℚ) = 0 then _ else round (false != false) (x / n)) = _
  rw [if_neg hne, round]
  exact if_neg (not_le.2 hbound)

theorem ceil_finite {q : ℚ} (hq : 0 ≤ q) (hle : q ≤ 2 ^ 53) : (finite false q).ceil = ofNat ⌈q⌉₊ := by
  have hceil : ⌈q⌉₊ ≤ 2 ^ 53 := by
    apply Nat.ceil_le.2
    exact_mod_cast hle
  rw [ofNat_eq hceil, ceil, eq_natCeil hq, Int.cast_natCast]

theorem twoPow_le_div {d : Int} {e : Nat} (hx : twoPow d ≤ x) (hn : 0 < n) (hle : n ≤ 2 ^ e) :
    twoPow (d - e) ≤ x / n := by
  have hsplit : twoPow d = twoPow (d - e) * 2 ^ e := by
    rw [← twoPow_natCast, ← twoPow_add, Int.sub_add_cancel]
  rw [le_div_iff₀ (by exact_mod_cast hn)]
  calc twoPow (d - e) * n ≤ twoPow (d - e) * 2 ^ e :=
        mul_le_mul_of_nonneg_left (by exact_mod_cast hle) (twoPow_pos _).le
    _ ≤ x := hsplit ▸ hx

end Quotient

section WholeNumbers
variable {m n : Nat}

theorem ofNat_div_ofNat (hpos : 0 < m) (hm : m < 2 ^ 53) (hn : 0 < n) (hexact : IsExact n) :
    ofNat m / ofNat n = finite false (nearest (m / n)) := by
  have hcast : (m : ℚ) ≤ 2 ^ 53 := by exact_mod_cast hm.le
  rw [ofNat_eq hm.le]
  exact finite_div_ofNat (Nat.cast_pos.2 hpos) hcast hn hexact

variable (hpos : 0 < m) (hn : 0 < n) (hle : n ≤ 2 ^ 56)
include hpos hn hle

theorem twoPow_le_quotient : twoPow (-56) ≤ (m : ℚ) / n := by
  have hone : twoPow 0 ≤ m := by
    rw [twoPow_eq, zpow_zero]
    exact_mod_cast hpos
  have hquotient := twoPow_le_div hone hn hle
  rwa [show (0 : Int) - (56 : Nat) = -56 by decide] at hquotient

variable (hm : m < 2 ^ 53)
include hm

theorem lt_nearest_quotient_iff (k : Nat) : (k : ℚ) < nearest (m / n) ↔ (k : ℚ) < m / n := by
  have hnormal : normalBound ≤ (m : ℚ) / n := (twoPow_le (by norm_num)).trans (twoPow_le_quotient hpos hn hle)
  exact lt_nearest_div_iff (onGrid_natCast hm.le) (Nat.cast_pos.2 hpos) (by exact_mod_cast hm.le) hn hnormal k

variable (hexact : IsExact n)
include hexact

/-- Whether a quotient exceeds a whole number shows in the rounded one. -/
theorem ofNat_lt_div_iff (k : Nat) : (ofNat k).lt (ofNat m / ofNat n) = true ↔ k * n < m := by
  have hdivisor : (0 : ℚ) < n := by exact_mod_cast hn
  rw [ofNat_div_ofNat hpos hm hn hexact]
  rcases Nat.lt_or_ge k (2 ^ 53) with hk | hk
  · have hside := lt_nearest_quotient_iff hpos hn hle hm k
    rw [lt_div_iff₀ hdivisor] at hside
    rw [ofNat_eq hk.le]
    change decide ((k : ℚ) < nearest (m / n)) = true ↔ _
    rw [decide_eq_true_iff, hside]
    exact_mod_cast Iff.rfl
  · -- the whole number is too large for both
    have hlarge : (m : ℚ) ≤ nearest k := by
      have hcast : (2 ^ 53 : ℚ) ≤ k := by exact_mod_cast hk
      have hnormal : normalBound ≤ (k : ℚ) := normalBound_le_one.trans (by linarith)
      have hsmall : (m : ℚ) + 1 ≤ 2 ^ 53 := by exact_mod_cast hm
      have hround := sub_le_nearest hnormal
      linarith
    have hquotient : nearest ((m : ℚ) / n) ≤ m := by
      have hone : (1 : ℚ) ≤ n := by exact_mod_cast hn
      have hself : (m : ℚ) / n ≤ m := div_le_self (Nat.cast_nonneg m) hone
      exact (onGrid_natCast hm.le).nearest_le (div_pos (Nat.cast_pos.2 hpos) hdivisor) hself
    refine iff_of_false ?_ (Nat.not_lt.2 ?_)
    · rw [Bool.not_eq_true, ofNat, round]
      split
      · rfl
      · exact decide_eq_false (not_lt.2 (hquotient.trans hlarge))
    · exact (hm.le.trans hk).trans (Nat.le_mul_of_pos_right k hn)

theorem ceil_ofNat_div : (ofNat m / ofNat n).ceil = ofNat ⌈(m : ℚ) / n⌉₊ := by
  have hcast : (m : ℚ) ≤ 2 ^ 53 := by exact_mod_cast hm.le
  have hceil : ⌈nearest ((m : ℚ) / n)⌉₊ = ⌈(m : ℚ) / n⌉₊ := by
    apply eq_of_forall_lt_iff
    intro k
    rw [Nat.lt_ceil, Nat.lt_ceil]
    exact lt_nearest_quotient_iff hpos hn hle hm k
  rw [ofNat_div_ofNat hpos hm hn hexact, ← hceil]
  apply ceil_finite
  · exact nearest_nonneg (div_nonneg (Nat.cast_nonneg m) (Nat.cast_nonneg n))
  · exact nearest_div_le_bound (Nat.cast_pos.2 hpos) hcast hn

/-- So is the ceiling of a quotient that is divided again. -/
theorem ceil_ofNat_div_div {d : Nat} (hd : 0 < d) (hdexact : IsExact d) (hdle : d ≤ 2 ^ 56) :
    (ofNat m / ofNat n / ofNat d).ceil = ofNat ⌈(m : ℚ) / n / d⌉₊ := by
  have hcast : (m : ℚ) ≤ 2 ^ 53 := by exact_mod_cast hm.le
  have hdivisor : (0 : ℚ) < d := by exact_mod_cast hd
  have hlow := twoPow_le_quotient hpos hn hle
  have hquotient : (0 : ℚ) < m / n := (twoPow_pos _).trans_le hlow
  have hgrid := onGrid_nearest hquotient.le
  have hbound := nearest_div_le_bound (Nat.cast_pos.2 hpos) hcast hn
  have hhalf : twoPow (-57) ≤ nearest ((m : ℚ) / n) := by
    have hnearest := half_le_nearest ((twoPow_le (by norm_num)).trans hlow)
    have hdouble : twoPow (-56) = twoPow (-57) * 2 := by
      rw [show (-56 : Int) = -57 + 1 by norm_num, twoPow_add, twoPow_eq 1, zpow_one]
    linarith
  have hrounded : 0 < nearest ((m : ℚ) / n) := (twoPow_pos _).trans_le hhalf
  have hnormal : normalBound ≤ nearest ((m : ℚ) / n) / d :=
    (twoPow_le (by norm_num)).trans (twoPow_le_div hhalf hd hdle)
  have hceil : ⌈nearest (nearest ((m : ℚ) / n) / d)⌉₊ = ⌈(m : ℚ) / n / d⌉₊ := by
    apply eq_of_forall_lt_iff
    intro k
    have hfirst := lt_nearest_quotient_iff hpos hn hle hm (k * d)
    push_cast at hfirst
    rw [Nat.lt_ceil, Nat.lt_ceil, lt_nearest_div_iff hgrid hrounded hbound hd hnormal, lt_div_iff₀ hdivisor,
      lt_div_iff₀ hdivisor, hfirst]
  rw [ofNat_div_ofNat hpos hm hn hexact, finite_div_ofNat hrounded hbound hd hdexact, ← hceil]
  apply ceil_finite
  · exact nearest_nonneg (div_nonneg hrounded.le hdivisor.le)
  · exact nearest_div_le_bound hrounded hbound hd

end WholeNumbers

end QueryLint.Number
