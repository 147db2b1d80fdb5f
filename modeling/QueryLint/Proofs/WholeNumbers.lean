import QueryLint.Number.Decimal
import QueryLint.Proofs.Rounding

/-!
Whole numbers up to 2 ^ 53: arithmetic on them is exact as long as its results are whole numbers up to 2 ^ 53.
Beyond these the format has some whole numbers only, the whole numbers of seconds among them.
-/

namespace QueryLint.Number
set_option autoImplicit false

def IsExact (n : Nat) : Prop := ofNat n = finite false n

theorem isExact_of_le {n : Nat} (h : n ≤ 2 ^ 53) : IsExact n := ofNat_eq h

theorem isExact_thousands {n : Nat} (h : n ≤ 2 ^ 46) : IsExact (n * 1000) := by
  have heq : ((n * 1000 : Nat) : ℚ) = (n * 125 : Nat) * twoPow 3 := by
    rw [twoPow_eq]
    push_cast
    ring
  have hgrid : OnGrid ((n * 1000 : Nat) : ℚ) := ⟨n * 125, 3, by omega, by norm_num, heq⟩
  have hbound : ((n * 1000 : Nat) : ℚ) < overflowBound := by
    have hless : ((n * 1000 : Nat) : ℚ) ≤ twoPow (56 : Nat) := by
      rw [twoPow_natCast]
      exact_mod_cast (by omega : n * 1000 ≤ 2 ^ 56)
    refine hless.trans_lt ?_
    rw [overflowBound, twoPow_eq, twoPow_eq]
    exact zpow_lt_zpow_right₀ (by norm_num) (by norm_num)
  exact round_of_onGrid (Nat.cast_nonneg _) hgrid hbound false

section Arithmetic
variable {m n : Nat}

theorem ofNat_mul (hm : m ≤ 2 ^ 53) (hn : n ≤ 2 ^ 53) : ofNat m * ofNat n = ofNat (m * n) := by
  rw [ofNat_eq hm, ofNat_eq hn, ofNat, Nat.cast_mul]
  rfl

theorem ofNat_add (hm : m ≤ 2 ^ 53) (hn : n ≤ 2 ^ 53) : ofNat m + ofNat n = ofNat (m + n) := by
  rw [ofNat_eq hm, ofNat_eq hn]
  change Number.add (finite false m) (finite false n) = _
  have hsum : (m : ℚ) + n = (m + n : Nat) := by push_cast; rfl
  simp only [Number.add, value, hsum]
  split
  · rename_i hzero
    have hnat : m + n = 0 := by exact_mod_cast hzero
    rw [hnat, ofNat_eq (Nat.zero_le _)]
    simp
  · rw [ofRat, if_neg (not_lt.2 (Nat.cast_nonneg _)), ofNat]

theorem ofNat_div (hm : IsExact m) (hn : n ≤ 2 ^ 53) (hpos : 0 < n) (hdvd : n ∣ m) :
    ofNat m / ofNat n = ofNat (m / n) := by
  have hne : (n : ℚ) ≠ 0 := by exact_mod_cast hpos.ne'
  obtain ⟨k, rfl⟩ := hdvd
  rw [hm, ofNat_eq hn, Nat.mul_div_cancel_left k hpos, ofNat]
  change (if (n : ℚ) = 0 then _ else round (false != false) (((n * k : Nat) : ℚ) / n)) = _
  rw [if_neg hne, Nat.cast_mul, mul_div_cancel_left₀ _ hne]
  rfl

/-- The remainder is exact whatever is divided. -/
theorem ofNat_mod (hm : IsExact m) (hn : n ≤ 2 ^ 53) (hpos : 0 < n) :
    ofNat m % ofNat n = ofNat (m % n) := by
  have hne : (n : ℚ) ≠ 0 := by exact_mod_cast hpos.ne'
  have hfloor : ((m : ℚ) / n).floor = (m / n : Nat) := Rat.floor_natCast_div_natCast m n
  have hsplit : (m : ℚ) - (m / n : Nat) * n = (m % n : Nat) := by
    have hcast : ((n * (m / n) + m % n : Nat) : ℚ) = m := by rw [Nat.div_add_mod]
    push_cast at hcast ⊢
    linarith
  rw [hm, ofNat_eq hn, ofNat_eq ((Nat.mod_lt m hpos).le.trans hn)]
  change (if (n : ℚ) = 0 then nan else finite false ((m : ℚ) - (((m : ℚ) / n).floor : ℚ) * n)) = _
  rw [if_neg hne, hfloor, Int.cast_natCast, hsplit]

end Arithmetic

section Order
variable {m n : Nat}

theorem ofNat_lt (h : m < n) (hn : n ≤ 2 ^ 53) : (ofNat m).lt (ofNat n) = true := by
  rw [ofNat_eq hn, ofNat_eq (h.le.trans hn)]
  exact decide_eq_true (Nat.cast_lt.2 h)

theorem le_ofNat_iff (hm : IsExact m) (hn : IsExact n) : (ofNat m).le (ofNat n) = true ↔ m ≤ n := by
  rw [hm, hn]
  change (!decide ((n : ℚ) < m)) = true ↔ _
  rw [Bool.not_eq_true', decide_eq_false_iff_not, not_lt, Nat.cast_le]

theorem pos_of_isPositive (h : (ofNat n).isPositive = true) : 0 < n := by
  rcases Nat.eq_zero_or_pos n with rfl | hn
  · have hzero : (0 : Number) = finite false 0 := ofNat_eq (Nat.zero_le _)
    rw [isPositive, hzero, ofNat_eq (Nat.zero_le _)] at h
    simp [lt, value] at h
  · exact hn

theorem isPositive_ofNat (hpos : 0 < n) (hn : IsExact n) : (ofNat n).isPositive = true := by
  have hzero : (0 : Number) = finite false 0 := ofNat_eq (Nat.zero_le _)
  rw [isPositive, hzero, hn]
  exact decide_eq_true (Nat.cast_pos.2 hpos)

theorem isZero_ofNat_iff (hn : n ≤ 2 ^ 53) : (ofNat n).isZero = true ↔ n = 0 := by
  rw [ofNat_eq hn, isZero, decide_eq_true_eq, Nat.cast_eq_zero]

theorem countBelow?_ofNat (h : n ≤ 2 ^ 53) : (ofNat n).countBelow? = some n := by
  rw [ofNat_eq h, countBelow?, ← Int.cast_natCast, Rat.ceil_intCast, Int.toNat_natCast]

end Order

/-- Whole numbers are written in plain digits. -/
theorem toText_ofNat {n : Nat} (hpos : 0 < n) (hn : n < 2 ^ 53) : (ofNat n).toText = Text.ofNat n := by
  have hempty : Text.ofString "" = [] := rfl
  have hne : (n : ℚ) ≠ 0 := by exact_mod_cast hpos.ne'
  have hsmall : n < 9007199254740992 := hn
  rw [ofNat_eq hn.le]
  simp [toText, magnitudeText, hne, hempty, hsmall]

end QueryLint.Number
