import Mathlib.Algebra.Order.Floor.Ring
import Mathlib.Data.Rat.Floor
import Mathlib.Tactic.Linarith
import Mathlib.Tactic.NormNum
import Mathlib.Tactic.Ring
import QueryLint.Number

/-!
The grid of the format: which magnitudes are numbers, and that rounding leads to one and leaves it
where it is.
-/

namespace QueryLint.Number
set_option autoImplicit false

theorem twoPow_eq (e : Int) : twoPow e = (2 : ℚ) ^ e := by
  unfold twoPow
  split
  · rename_i h
    obtain ⟨n, rfl⟩ := Int.eq_ofNat_of_zero_le h
    simp
  · rename_i h
    obtain ⟨n, hn⟩ := Int.eq_ofNat_of_zero_le (show 0 ≤ -e by omega)
    obtain rfl : e = -(n : Int) := by omega
    simp [Rat.mkRat_eq_div]

theorem twoPow_pos (e : Int) : 0 < twoPow e := by
  rw [twoPow_eq]
  exact zpow_pos (by norm_num) e

theorem twoPow_add (d e : Int) : twoPow (d + e) = twoPow d * twoPow e := by
  simp only [twoPow_eq]
  exact zpow_add₀ (by norm_num) d e

theorem twoPow_le {d e : Int} (h : d ≤ e) : twoPow d ≤ twoPow e := by
  simp only [twoPow_eq]
  exact zpow_le_zpow_right₀ (by norm_num) h

theorem lt_of_twoPow_lt {d e : Int} (h : twoPow d < twoPow e) : d < e := by
  by_contra hle
  exact absurd (twoPow_le (not_lt.1 hle)) (not_le.2 h)

theorem twoPow_natCast (n : Nat) : twoPow (n : Int) = (2 : ℚ) ^ n := by
  rw [twoPow_eq, zpow_natCast]

/-- A positive magnitude lies between two neighbouring powers of two. -/
theorem binaryExponent_spec {q : ℚ} (hq : 0 < q) :
    twoPow (binaryExponent q) ≤ q ∧ q < twoPow (binaryExponent q + 1) := by
  have hnum : (q.num.toNat : ℚ) = (q.den : ℚ) * q := by
    have hpos : 0 ≤ q.num := (Rat.num_pos.2 hq).le
    have hcast : ((q.num.toNat : Int) : ℚ) = (q.num : ℚ) := by rw [Int.toNat_of_nonneg hpos]
    rw [← Rat.mul_den_eq_num q, mul_comm] at hcast
    exact_mod_cast hcast
  have hnumPos : q.num.toNat ≠ 0 := by
    have := Rat.num_pos.2 hq
    omega
  have hlow : twoPow (Nat.log2 q.num.toNat) ≤ q.den * q := by
    rw [← hnum, twoPow_natCast]
    exact_mod_cast Nat.log2_self_le hnumPos
  have hhigh : (q.den : ℚ) * q < twoPow (Nat.log2 q.num.toNat) * 2 := by
    rw [← hnum, twoPow_natCast, ← pow_succ]
    exact_mod_cast Nat.lt_log2_self
  have hdenLow : twoPow (Nat.log2 q.den) ≤ q.den := by
    rw [twoPow_natCast]
    exact_mod_cast Nat.log2_self_le q.den_nz
  have hdenHigh : (q.den : ℚ) < twoPow (Nat.log2 q.den) * 2 := by
    rw [twoPow_natCast, ← pow_succ]
    exact_mod_cast Nat.lt_log2_self
  have hsplit : twoPow (Nat.log2 q.num.toNat) =
      twoPow ((Nat.log2 q.num.toNat : Int) - Nat.log2 q.den) * twoPow (Nat.log2 q.den) := by
    rw [← twoPow_add, Int.sub_add_cancel]
  have hpos := twoPow_pos (Nat.log2 q.den)
  have hupper : q < twoPow ((Nat.log2 q.num.toNat : Int) - Nat.log2 q.den) * 2 := by
    rw [hsplit] at hhigh
    nlinarith
  have hlower : twoPow ((Nat.log2 q.num.toNat : Int) - Nat.log2 q.den) < q * 2 := by
    rw [hsplit] at hlow
    nlinarith
  have hdouble : ∀ e, twoPow (e + 1) = twoPow e * 2 := by
    intro e
    rw [twoPow_add, twoPow_eq 1, zpow_one]
  unfold binaryExponent
  dsimp only
  generalize (Nat.log2 q.num.toNat : Int) - Nat.log2 q.den = e at hupper hlower
  split
  · exact ⟨‹_›, by rwa [hdouble]⟩
  · rename_i hnot
    have hhalf := hdouble (e - 1)
    rw [Int.sub_add_cancel] at hhalf
    rw [Int.sub_add_cancel]
    exact ⟨by linarith, not_le.1 hnot⟩

theorem roundEven_intCast (z : Int) : roundEven (z : ℚ) = z := by
  simp [roundEven, Rat.floor_intCast]

theorem roundEven_bounds (x : ℚ) : x.floor ≤ roundEven x ∧ roundEven x ≤ x.floor + 1 := by
  unfold roundEven
  dsimp only
  split
  · omega
  · split
    · omega
    · split <;> omega

theorem roundEven_le {x : ℚ} {z : Int} (h : x ≤ z) : roundEven x ≤ z := by
  obtain ⟨-, hceil⟩ := roundEven_bounds x
  by_cases hfloor : x.floor = z
  · have hlow := Rat.floor_le x
    rw [hfloor] at hlow
    rw [le_antisymm h hlow, roundEven_intCast]
  · have hle : x.floor ≤ z := by
      have hlow : (x.floor : ℚ) ≤ z := (Rat.floor_le x).trans h
      exact_mod_cast hlow
    omega

theorem sub_half_le_roundEven (x : ℚ) : x - 1 / 2 ≤ roundEven x := by
  have hceil := Rat.lt_floor_add_one x
  push_cast at hceil
  unfold roundEven
  dsimp only
  split
  · linarith
  · split
    · push_cast
      linarith
    · split
      · linarith
      · push_cast
        linarith

theorem roundEven_of_small {x : ℚ} (hx : 0 ≤ x) (h : x < 1 / 2) : roundEven x = 0 := by
  have hfloor : x.floor = 0 := by
    have hlow : 0 ≤ x.floor := Rat.le_floor_iff.2 (by exact_mod_cast hx)
    have hhigh : x.floor < 1 := Rat.floor_lt_iff.2 (by push_cast; linarith)
    omega
  simp only [roundEven, hfloor, Int.cast_zero, sub_zero, h, if_true]

/-- The magnitudes of the format, overflow not considered: whole multiples of a power of two with at
most 53 bits. -/
def OnGrid (q : ℚ) : Prop := ∃ (k : Nat) (e : Int), k ≤ 2 ^ 53 ∧ -1074 ≤ e ∧ q = k * twoPow e

theorem nearest_of_multiple {q : ℚ} (hq : q ≠ 0) {z : Int} (h : q = z * spacing q) : nearest q = q := by
  have hpos : spacing q ≠ 0 := (twoPow_pos _).ne'
  have hquotient : q / spacing q = z := by
    rw [div_eq_iff hpos]
    exact h
  rw [nearest, if_neg hq, hquotient, roundEven_intCast]
  exact h.symm

/-- A number of the format is on the grid of every magnitude up to it. -/
theorem OnGrid.exists_multiple {g q : ℚ} (h : OnGrid g) (hq : 0 < q) (hle : q ≤ g) :
    ∃ z : Int, g = z * spacing q := by
  obtain ⟨k, e, hk, he, heq⟩ := h
  have hlow := (binaryExponent_spec hq).1.trans hle
  have hcount : ∀ n : Nat, (2 : ℚ) ^ n * twoPow e = twoPow (n + e) := by
    intro n
    rw [twoPow_add, twoPow_natCast]
  -- a multiple of the spacing
  obtain ⟨k', e', heq', hspacing⟩ : ∃ (k' : Nat) (e' : Int), g = k' * twoPow e' ∧
      max (binaryExponent q - 52) (-1074) ≤ e' := by
    rcases hk.lt_or_eq with hlt | rfl
    · refine ⟨k, e, heq, ?_⟩
      have hbound : g < twoPow ((53 : Nat) + e) := by
        rw [heq, ← hcount]
        exact mul_lt_mul_of_pos_right (by exact_mod_cast hlt) (twoPow_pos e)
      have hexponent := lt_of_twoPow_lt (hlow.trans_lt hbound)
      omega
    · refine ⟨2 ^ 52, 1 + e, ?_, ?_⟩
      · rw [heq, twoPow_add, twoPow_eq 1]
        push_cast
        ring
      · have hbound : g < twoPow ((54 : Nat) + e) := by
          rw [heq, ← hcount]
          exact mul_lt_mul_of_pos_right (by norm_num) (twoPow_pos e)
        have hexponent := lt_of_twoPow_lt (hlow.trans_lt hbound)
        omega
  obtain ⟨n, hn⟩ := Int.eq_ofNat_of_zero_le (Int.sub_nonneg.2 hspacing)
  refine ⟨(k' * 2 ^ n : Nat), ?_⟩
  have hsplit : twoPow e' = (2 : ℚ) ^ n * spacing q := by
    rw [spacing, ← twoPow_natCast, ← twoPow_add, ← hn, Int.sub_add_cancel]
  calc g = k' * twoPow e' := heq'
    _ = ((k' * 2 ^ n : Nat) : Int) * spacing q := by
      rw [hsplit]
      push_cast
      ring

/-- Rounding leaves the numbers of the format where they are. -/
theorem OnGrid.nearest_eq {q : ℚ} (hq : 0 < q) (h : OnGrid q) : nearest q = q := by
  obtain ⟨z, hz⟩ := h.exists_multiple hq le_rfl
  exact nearest_of_multiple hq.ne' hz

/-- Rounding does not pass a number of the format. -/
theorem OnGrid.nearest_le {g q : ℚ} (h : OnGrid g) (hq : 0 < q) (hle : q ≤ g) : nearest q ≤ g := by
  obtain ⟨z, hz⟩ := h.exists_multiple hq hle
  have hpos : 0 < spacing q := twoPow_pos _
  have hround : roundEven (q / spacing q) ≤ z := by
    apply roundEven_le
    rw [div_le_iff₀ hpos, ← hz]
    exact hle
  rw [nearest, if_neg hq.ne', hz]
  exact mul_le_mul_of_nonneg_right (by exact_mod_cast hround) hpos.le

/-- Rounding leads to a number of the format. -/
theorem onGrid_nearest {q : ℚ} (hq : 0 ≤ q) : OnGrid (nearest q) := by
  rcases hq.eq_or_lt with rfl | hq
  · exact ⟨0, 0, by norm_num, by norm_num, by simp [nearest]⟩
  · obtain ⟨-, hhigh⟩ := binaryExponent_spec hq
    have hpos : 0 < spacing q := twoPow_pos _
    have hlow : 0 ≤ (q / spacing q).floor := Rat.le_floor_iff.2 (by exact_mod_cast (div_pos hq hpos).le)
    have hbound : (q / spacing q).floor < 2 ^ 53 := by
      rw [Rat.floor_lt_iff, div_lt_iff₀ hpos]
      refine hhigh.trans_le ?_
      have hexponent : twoPow (binaryExponent q + 1) ≤
          twoPow ((53 : Nat) + max (binaryExponent q - 52) (-1074)) := twoPow_le (by omega)
      rw [twoPow_add (53 : Nat), twoPow_natCast] at hexponent
      exact_mod_cast hexponent
    obtain ⟨hfloor, hceil⟩ := roundEven_bounds (q / spacing q)
    obtain ⟨k, hk⟩ := Int.eq_ofNat_of_zero_le (hlow.trans hfloor)
    refine ⟨k, max (binaryExponent q - 52) (-1074), by omega, by omega, ?_⟩
    rw [nearest, if_neg hq.ne', hk]
    rfl

theorem nearest_eq_zero {q : ℚ} (hq : 0 ≤ q) (h : q < twoPow (-1075)) : nearest q = 0 := by
  rcases hq.eq_or_lt with rfl | hq
  · simp [nearest]
  · have hpos : 0 < spacing q := twoPow_pos _
    have hhalf : q / spacing q < 1 / 2 := by
      have hspacing : twoPow (-1074) ≤ spacing q := twoPow_le (le_max_right _ _)
      have hdouble : twoPow (-1074) = twoPow (-1075) * 2 := by
        rw [show (-1074 : Int) = -1075 + 1 by norm_num, twoPow_add, twoPow_eq 1, zpow_one]
      rw [div_lt_iff₀ hpos]
      linarith
    rw [nearest, if_neg hq.ne', roundEven_of_small (div_pos hq hpos).le hhalf]
    simp

theorem sub_half_spacing_le_nearest {q : ℚ} (hq : 0 < q) : q - spacing q / 2 ≤ nearest q := by
  have hpos : 0 < spacing q := twoPow_pos _
  have hround := sub_half_le_roundEven (q / spacing q)
  rw [nearest, if_neg hq.ne']
  calc q - spacing q / 2 = (q / spacing q - 1 / 2) * spacing q := by
        rw [sub_mul, div_mul_cancel₀ _ hpos.ne']
        ring
    _ ≤ roundEven (q / spacing q) * spacing q := mul_le_mul_of_nonneg_right hround hpos.le

/-- The least magnitude from which on the format has its full precision. -/
def normalBound : ℚ := twoPow (-1022)

theorem normalBound_le_one : normalBound ≤ 1 := by
  have hone : twoPow 0 = 1 := by rw [twoPow_eq, zpow_zero]
  exact (twoPow_le (by norm_num)).trans hone.le

theorem spacing_mul_le {q : ℚ} (h : normalBound ≤ q) : spacing q * 2 ^ 52 ≤ q := by
  obtain ⟨hlow, hhigh⟩ := binaryExponent_spec ((twoPow_pos _).trans_le h)
  have hexponent := lt_of_twoPow_lt (h.trans_lt hhigh)
  refine le_trans ?_ hlow
  rw [spacing, ← twoPow_natCast, ← twoPow_add]
  exact twoPow_le (by push_cast; omega)

theorem sub_le_nearest {q : ℚ} (h : normalBound ≤ q) : q - q / 2 ^ 53 ≤ nearest q := by
  have hspacing := spacing_mul_le h
  have hnearest := sub_half_spacing_le_nearest ((twoPow_pos _).trans_le h)
  linarith

theorem half_le_nearest {q : ℚ} (h : normalBound ≤ q) : q ≤ nearest q * 2 := by
  have hpos : 0 < q := (twoPow_pos _).trans_le h
  have hnearest := sub_le_nearest h
  linarith

theorem overflow_le_nearest {q : ℚ} (h : twoPow 1025 ≤ q) : overflowBound ≤ nearest q := by
  have hnormal : normalBound ≤ twoPow 1025 := twoPow_le (by norm_num)
  have hdouble : twoPow 1025 = overflowBound * 2 := by
    rw [show (1025 : Int) = 1024 + 1 by norm_num, twoPow_add, twoPow_eq 1, zpow_one]
    rfl
  have hhalf := half_le_nearest (hnormal.trans h)
  linarith

theorem nearest_nonneg {q : ℚ} (hq : 0 ≤ q) : 0 ≤ nearest q := by
  obtain ⟨k, e, -, -, heq⟩ := onGrid_nearest hq
  rw [heq]
  exact mul_nonneg (Nat.cast_nonneg k) (twoPow_pos e).le

def Unsigned : Number → Prop
  | nan => True
  | infinite negative => negative = false
  | finite negative m => negative = false ∧ 0 ≤ m

/-- Numbers as sample rows have them: positive and of the format, if they are finite. -/
def Positive : Number → Prop
  | nan => True
  | infinite negative => negative = false
  | finite negative m => negative = false ∧ 0 < m ∧ OnGrid m ∧ m < overflowBound

theorem unsigned_round {q : ℚ} (hq : 0 ≤ q) : (round false q).Unsigned := by
  unfold round
  split
  · rfl
  · exact ⟨rfl, nearest_nonneg hq⟩

theorem unsigned_ofNat (n : Nat) : (ofNat n).Unsigned := unsigned_round (Nat.cast_nonneg n)

theorem onGrid_natCast {n : Nat} (h : n ≤ 2 ^ 53) : OnGrid (n : ℚ) :=
  ⟨n, 0, h, by norm_num, by simp [twoPow_eq]⟩

theorem natCast_lt_overflowBound {n : Nat} (h : n ≤ 2 ^ 53) : (n : ℚ) < overflowBound := by
  have hle : (n : ℚ) ≤ twoPow (53 : Nat) := by
    rw [twoPow_natCast]
    exact_mod_cast h
  have hlt : twoPow (53 : Nat) < overflowBound := by
    rw [overflowBound, twoPow_eq, twoPow_eq]
    exact zpow_lt_zpow_right₀ (by norm_num) (by norm_num)
  exact hle.trans_lt hlt

theorem round_of_onGrid {q : ℚ} (hq : 0 ≤ q) (h : OnGrid q) (hbound : q < overflowBound) (negative : Bool) :
    round negative q = finite negative q := by
  have hnearest : nearest q = q := by
    rcases hq.eq_or_lt with rfl | hpos
    · simp [nearest]
    · exact h.nearest_eq hpos
  rw [round, hnearest, if_neg (not_le.2 hbound)]

theorem ofNat_eq {n : Nat} (h : n ≤ 2 ^ 53) : ofNat n = finite false n :=
  round_of_onGrid (Nat.cast_nonneg n) (onGrid_natCast h) (natCast_lt_overflowBound h) false

theorem Unsigned.mul {x y : Number} (hx : x.Unsigned) (hy : y.Unsigned) : (x * y).Unsigned := by
  change (Number.mul x y).Unsigned
  cases x with
  | nan => exact hx
  | infinite s =>
    cases y with
    | nan => exact hy
    | infinite t =>
      obtain rfl : s = false := hx
      obtain rfl : t = false := hy
      rfl
    | finite t n =>
      obtain rfl : s = false := hx
      obtain ⟨rfl, -⟩ := hy
      rw [Number.mul]
      · split
        · trivial
        · rfl
      · simp
      · simp
      · simp
  | finite s m =>
    cases y with
    | nan => exact hy
    | infinite t =>
      obtain ⟨rfl, -⟩ := hx
      obtain rfl : t = false := hy
      rw [Number.mul]
      · split
        · trivial
        · rfl
      · simp
      · simp
      · simp
    | finite t n =>
      obtain ⟨rfl, hm⟩ := hx
      obtain ⟨rfl, hn⟩ := hy
      exact unsigned_round (mul_nonneg hm hn)

theorem positive_add {m : ℚ} (hm : 1 ≤ m) {y : Number} (hy : y.Unsigned) :
    (finite false m + y).Positive := by
  change (Number.add (finite false m) y).Positive
  cases y with
  | nan => trivial
  | infinite t => exact hy
  | finite t n =>
    obtain ⟨rfl, hn⟩ := hy
    have hsum : (1 : ℚ) ≤ m + n := by linarith
    have hne : m + n ≠ 0 := by linarith
    have hpos : ¬m + n < 0 := by linarith
    simp only [Number.add, value, hne, if_false, ofRat, hpos]
    unfold round
    split
    · rfl
    · rename_i hbound
      have hhalf := half_le_nearest (normalBound_le_one.trans hsum)
      exact ⟨rfl, by linarith, onGrid_nearest (by linarith), not_le.1 hbound⟩

end QueryLint.Number
