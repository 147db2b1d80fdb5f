import Mathlib.Data.List.TakeWhile
import Mathlib.Data.Nat.Prime.Basic
import Mathlib.Data.Rat.Lemmas
import Mathlib.Tactic.FieldSimp
import QueryLint.Proofs.Numerals
import QueryLint.Proofs.Rounding

/-!
Numbers are read back from their notation.
-/

namespace QueryLint
set_option autoImplicit false

def Text.IsDigits (t : Text) : Prop := ∀ c ∈ t, CodeUnit.isDigit c = true

theorem Text.isDigits_ofNat (n : Nat) : (Text.ofNat n).IsDigits := fun _ hc => Text.isDigit_of_mem_ofNat hc

theorem Text.isDigits_zeros (n : Nat) : Text.IsDigits (List.replicate n (CodeUnit.ofChar '0')) := by
  intro c hc
  rw [List.eq_of_mem_replicate hc]
  decide

theorem Text.IsDigits.append {t u : Text} (ht : t.IsDigits) (hu : u.IsDigits) :
    Text.IsDigits (t ++ u) := by
  intro c hc
  rcases List.mem_append.1 hc with hc | hc
  · exact ht c hc
  · exact hu c hc

theorem Text.IsDigits.take {t : Text} (ht : t.IsDigits) (n : Nat) : Text.IsDigits (t.take n) :=
  fun c hc => ht c (List.mem_of_mem_take hc)

theorem Text.IsDigits.drop {t : Text} (ht : t.IsDigits) (n : Nat) : Text.IsDigits (t.drop n) :=
  fun c hc => ht c (List.mem_of_mem_drop hc)

theorem Text.digitsValue_append (t u : Text) :
    Text.digitsValue (t ++ u) = Text.digitsValue t * 10 ^ u.length + Text.digitsValue u := by
  have hinit : ∀ (u : Text) (init : Nat), u.foldl (fun n c => n * 10 + (c.toNat - 48)) init =
      init * 10 ^ u.length + Text.digitsValue u := by
    intro u
    induction u with
    | nil => intro init; simp [Text.digitsValue]
    | cons c u ih =>
      intro init
      rw [Text.digitsValue, List.foldl_cons, List.foldl_cons, ih, ih, List.length_cons]
      ring
  rw [Text.digitsValue, List.foldl_append, hinit, ← Text.digitsValue]

theorem Text.digitsValue_zeros (n : Nat) :
    Text.digitsValue (List.replicate n (CodeUnit.ofChar '0')) = 0 := by
  have hzero : (CodeUnit.ofChar '0').toNat - 48 = 0 := by decide
  induction n with
  | zero => rfl
  | succ n ih =>
    rw [List.replicate_succ, Text.digitsValue, List.foldl_cons, hzero]
    exact ih

theorem Text.digitsValue_lt {t : Text} (ht : t.IsDigits) : Text.digitsValue t < 10 ^ t.length := by
  induction t with
  | nil => decide
  | cons c t ih =>
    have htail := ih fun d hd => ht d (List.mem_cons_of_mem _ hd)
    have hc := (CodeUnit.isDigit_iff c).1 (ht c List.mem_cons_self)
    have hfirst : Text.digitsValue [c] = c.toNat - 48 := by simp [Text.digitsValue]
    rw [← List.singleton_append, Text.digitsValue_append, hfirst, List.singleton_append, List.length_cons, pow_succ]
    have hscaled : (c.toNat - 48) * 10 ^ t.length ≤ 9 * 10 ^ t.length := Nat.mul_le_mul_right _ (by omega)
    omega

theorem Decimal.pow_width_le {n : Nat} (hn : n ≠ 0) : 10 ^ (width n - 1) ≤ n := by
  by_cases hone : width n - 1 = 0
  · rw [hone, pow_zero]
    omega
  · by_contra hnot
    have := (Nat.length_toDigits_le_iff (by decide) (Nat.pos_of_ne_zero hone)).2 (not_le.1 hnot)
    rw [← width] at this
    omega

/-- Decimal notation has no needless zero in front. -/
theorem Text.ofNat_eq_cons {n : Nat} (hn : n ≠ 0) :
    ∃ c rest, Text.ofNat n = c :: rest ∧ c ≠ CodeUnit.ofChar '0' := by
  obtain ⟨c, rest, heq⟩ := List.exists_cons_of_ne_nil (Text.ofNat_ne_nil n)
  refine ⟨c, rest, heq, ?_⟩
  rintro rfl
  have hdigits : Text.IsDigits rest := by
    intro d hd
    exact Text.isDigits_ofNat n d (by rw [heq]; exact List.mem_cons_of_mem _ hd)
  have hwidth : Decimal.width n = rest.length + 1 := by
    have hlength : (Text.ofNat n).length = Decimal.width n := List.length_map _
    rw [← hlength, heq, List.length_cons]
  have hzero : Text.digitsValue [CodeUnit.ofChar '0'] = 0 := by decide
  have hvalue := Text.digitsValue_ofNat n
  rw [heq, ← List.singleton_append, Text.digitsValue_append, hzero, Nat.zero_mul, Nat.zero_add] at hvalue
  have hlow := Decimal.pow_width_le hn
  rw [hwidth, Nat.add_sub_cancel] at hlow
  have hhigh := Text.digitsValue_lt hdigits
  omega

namespace Numeral

/-- A numeral in the strict form: no needless zero in front, and digits on both sides of a point. -/
def Strict (n : Numeral) : Prop :=
  (∃ c rest, n.whole = c :: rest ∧ (rest ≠ [] → c ≠ CodeUnit.ofChar '0')) ∧ n.fraction ≠ some []

def powerText (negative : Bool) (digits : Text) : Text :=
  CodeUnit.ofChar 'e' :: (if negative then CodeUnit.ofChar '-' else CodeUnit.ofChar '+') :: digits

theorem scanExponent_power (negative : Bool) {digits : Text} (hdigits : digits.IsDigits)
    (hne : digits ≠ []) : scanExponent (powerText negative digits) = (some (negative, digits), []) := by
  have htake : digits.takeWhile CodeUnit.isDigit = digits := List.takeWhile_eq_self_iff.2 hdigits
  have hdrop : digits.dropWhile CodeUnit.isDigit = [] := List.dropWhile_eq_nil_iff.2 hdigits
  have hplus : CodeUnit.ofChar '+' ≠ CodeUnit.ofChar '-' := by decide
  cases negative with
  | false => simp [scanExponent, powerText, htake, hdrop, hplus, hne]
  | true => simp [scanExponent, powerText, htake, hdrop, hne]

/-- What stands behind the digits of a numeral. -/
inductive Tail : Option (Bool × Text) → Text → Prop where
  | none : Tail none []
  | power (negative : Bool) {digits : Text} : digits.IsDigits → digits ≠ [] →
      Tail (some (negative, digits)) (powerText negative digits)

theorem Tail.scanExponent_eq {exponent : Option (Bool × Text)} {t : Text} (h : Tail exponent t) :
    scanExponent t = (exponent, []) := by
  cases h with
  | none => rfl
  | power negative hdigits hne => exact scanExponent_power negative hdigits hne

theorem Tail.takeWhile_append {exponent : Option (Bool × Text)} {w t : Text} (h : Tail exponent t)
    (hw : w.IsDigits) : (w ++ t).takeWhile CodeUnit.isDigit = w ∧
      (w ++ t).dropWhile CodeUnit.isDigit = t := by
  have hmark : (CodeUnit.ofChar 'e').isDigit = false := by decide
  rw [List.takeWhile_append_of_pos hw, List.dropWhile_append_of_pos hw]
  cases h with
  | none => simp
  | power => simp [powerText, hmark]

theorem scan_whole {exponent : Option (Bool × Text)} {w t : Text} (h : Tail exponent t)
    (hw : w.IsDigits) : scan (w ++ t) = (⟨w, none, exponent⟩, []) := by
  obtain ⟨htake, hdrop⟩ := h.takeWhile_append hw
  have hexponent := h.scanExponent_eq
  have hpoint : CodeUnit.ofChar 'e' ≠ CodeUnit.ofChar '.' := by decide
  unfold scan
  simp only [htake, hdrop]
  cases h with
  | none => simp [hexponent]
  | power => simp [powerText, hpoint] at hexponent ⊢; simp [hexponent]

theorem scan_fraction {exponent : Option (Bool × Text)} {w f t : Text} (h : Tail exponent t)
    (hw : w.IsDigits) (hf : f.IsDigits) :
    scan (w ++ CodeUnit.ofChar '.' :: (f ++ t)) = (⟨w, some f, exponent⟩, []) := by
  obtain ⟨htake, hdrop⟩ := h.takeWhile_append hf
  have hpoint : (CodeUnit.ofChar '.').isDigit = false := by decide
  unfold scan
  simp only [List.takeWhile_append_of_pos hw, List.dropWhile_append_of_pos hw]
  simp [hpoint, htake, hdrop, h.scanExponent_eq]

theorem ofText?_whole {exponent : Option (Bool × Text)} {w t : Text} (h : Tail exponent t)
    (hw : w.IsDigits) (hne : w ≠ []) : ofText? (w ++ t) = some ⟨w, none, exponent⟩ := by
  simp [ofText?, scan_whole h hw, wellFormed, hne]

theorem ofText?_fraction {exponent : Option (Bool × Text)} {w f t : Text} (h : Tail exponent t)
    (hw : w.IsDigits) (hf : f.IsDigits) (hne : w ≠ []) :
    ofText? (w ++ CodeUnit.ofChar '.' :: (f ++ t)) = some ⟨w, some f, exponent⟩ := by
  simp [ofText?, scan_fraction h hw hf, wellFormed, hne]

end Numeral

namespace Decimal

theorem tenPow_eq (e : Int) : tenPow e = (10 : ℚ) ^ e := by
  unfold tenPow
  split
  · rename_i h
    obtain ⟨n, rfl⟩ := Int.eq_ofNat_of_zero_le h
    simp
  · rename_i h
    obtain ⟨n, hn⟩ := Int.eq_ofNat_of_zero_le (show 0 ≤ -e by omega)
    obtain rfl : e = -(n : Int) := by omega
    simp [Rat.mkRat_eq_div]

/-- The exponent of a decimal in scientific notation. -/
theorem powerText_eq (power : Int) :
    Text.ofString "e" ++ (if power < 0 then "-" else "+") ++ Text.ofNat power.natAbs =
      Numeral.powerText (decide (power < 0)) (Text.ofNat power.natAbs) := by
  have hmark : Text.ofString "e" = [CodeUnit.ofChar 'e'] := by decide
  have hminus : Text.ofString "-" = [CodeUnit.ofChar '-'] := by decide
  have hplus : Text.ofString "+" = [CodeUnit.ofChar '+'] := by decide
  by_cases hpower : power < 0 <;> simp [Numeral.powerText, hmark, hminus, hplus, hpower]

theorem tail_power (power : Int) :
    Numeral.Tail (some (decide (power < 0), Text.ofNat power.natAbs))
      (Numeral.powerText (decide (power < 0)) (Text.ofNat power.natAbs)) :=
  .power _ (Text.isDigits_ofNat _) (Text.ofNat_ne_nil _)

/-- The digits of a decimal, with no needless zero in front. -/
structure Writes (digits : Text) (d : Decimal) : Prop where
  isDigits : digits.IsDigits
  ne_nil : digits ≠ []
  value : Text.digitsValue digits = d.digits
  front : d.digits ≠ 0 → ∃ c rest, digits = c :: rest ∧ c ≠ CodeUnit.ofChar '0'

theorem writes_ofNat (d : Decimal) : Writes (Text.ofNat d.digits) d where
  isDigits := Text.isDigits_ofNat d.digits
  ne_nil := Text.ofNat_ne_nil d.digits
  value := Text.digitsValue_ofNat d.digits
  front := Text.ofNat_eq_cons

/-- The text is read as a numeral with the value of the decimal, in the strict form. -/
def ReadsBack (d : Decimal) (t : Text) : Prop :=
  ∃ n, Numeral.ofText? t = some n ∧ n.toDecimal.value = d.value ∧ (d.digits ≠ 0 → n.Strict)

namespace Writes
variable {digits : Text} {d : Decimal} (h : Writes digits d)
include h

theorem readsBack_zeros (hexponent : 0 ≤ d.exponent) (count : Nat) (hcount : count = d.exponent.toNat) :
    d.ReadsBack (digits ++ List.replicate count (CodeUnit.ofChar '0')) := by
  subst hcount
  have hread := Numeral.ofText?_whole .none (h.isDigits.append (Text.isDigits_zeros d.exponent.toNat))
    (by simp [h.ne_nil])
  rw [List.append_nil] at hread
  refine ⟨_, hread, ?_, ?_⟩
  · obtain ⟨n, hn⟩ := Int.eq_ofNat_of_zero_le hexponent
    simp [Numeral.toDecimal, Decimal.value, tenPow_eq, Text.digitsValue_append, Text.digitsValue_zeros,
      h.value, hn]
  · intro hd
    obtain ⟨c, rest, hcons, hc⟩ := h.front hd
    exact ⟨⟨c, _, by rw [hcons, List.cons_append], fun _ => hc⟩, nofun⟩

theorem readsBack_point {cut : Nat} (hpos : 0 < cut) (hcut : cut < digits.length)
    (hpoint : d.exponent + digits.length = cut) :
    d.ReadsBack (digits.take cut ++ CodeUnit.ofChar '.' :: digits.drop cut) := by
  have hfirst : digits.take cut ≠ [] := by
    rw [ne_eq, List.take_eq_nil_iff, not_or]
    exact ⟨by omega, h.ne_nil⟩
  have hread := Numeral.ofText?_fraction .none (h.isDigits.take cut) (h.isDigits.drop cut) hfirst
  rw [List.append_nil] at hread
  refine ⟨_, hread, congrArg Decimal.value ?_, ?_⟩
  · simp only [Numeral.toDecimal, Option.getD_some, List.take_append_drop, h.value, List.length_drop]
    exact Decimal.mk.injEq .. ▸ ⟨rfl, by omega⟩
  · intro hd
    obtain ⟨c, rest, hcons, hc⟩ := h.front hd
    obtain ⟨k, rfl⟩ := Nat.exists_eq_add_one_of_ne_zero hpos.ne'
    refine ⟨⟨c, rest.take k, ?_, fun _ => hc⟩, ?_⟩
    · rw [hcons, List.take_succ_cons]
    · simpa using hcut

/-- Zeros stand behind the point. -/
theorem readsBack_fraction {zeros : Nat} (hzeros : d.exponent + digits.length = -zeros) :
    d.ReadsBack (CodeUnit.ofChar '0' :: CodeUnit.ofChar '.' ::
      (List.replicate zeros (CodeUnit.ofChar '0') ++ digits)) := by
  have hread := Numeral.ofText?_fraction .none (Text.isDigits_zeros 1)
    ((Text.isDigits_zeros zeros).append h.isDigits) (by simp)
  rw [List.append_nil] at hread
  refine ⟨_, hread, congrArg Decimal.value ?_,
    fun _ => ⟨⟨_, [], rfl, fun hrest => absurd rfl hrest⟩, by simp [h.ne_nil]⟩⟩
  have hzero : Text.digitsValue (List.replicate 1 (CodeUnit.ofChar '0') ++
      (List.replicate zeros (CodeUnit.ofChar '0') ++ digits)) = d.digits := by
    simp only [Text.digitsValue_append, Text.digitsValue_zeros, h.value]
    omega
  simp only [Numeral.toDecimal, Option.getD_some, hzero, List.length_append, List.length_replicate]
  exact Decimal.mk.injEq .. ▸ ⟨rfl, by omega⟩

/-- Scientific notation: the exponent is that of the first digit. -/
theorem readsBack_power {power : Int} (hpower : d.exponent + digits.length - 1 = power) :
    d.ReadsBack (mantissaText digits ++
      Numeral.powerText (decide (power < 0)) (Text.ofNat power.natAbs)) := by
  have hsigned : (if decide (power < 0) = true then -(Text.digitsValue (Text.ofNat power.natAbs) : Int)
      else (Text.digitsValue (Text.ofNat power.natAbs) : Int)) = power := by
    rw [Text.digitsValue_ofNat]
    split
    · rename_i hneg
      rw [decide_eq_true_eq] at hneg
      omega
    · rename_i hneg
      rw [decide_eq_true_eq] at hneg
      omega
  have hvalue := h.value
  match digits, h.ne_nil with
  | [c], _ =>
    have hread := Numeral.ofText?_whole (tail_power power) h.isDigits (by simp)
    refine ⟨_, hread, congrArg Decimal.value ?_,
      fun _ => ⟨⟨c, [], rfl, fun hrest => absurd rfl hrest⟩, nofun⟩⟩
    simp only [Numeral.toDecimal, Option.getD_none, List.append_nil, hvalue, hsigned]
    exact Decimal.mk.injEq .. ▸ ⟨rfl, by simp [← hpower]⟩
  | c :: e :: rest, _ =>
    have hfirst : Text.IsDigits [c] := h.isDigits.take 1
    have hread := Numeral.ofText?_fraction (tail_power power) hfirst (h.isDigits.drop 1) (by simp)
    have htext : ∀ t : Text, mantissaText (c :: e :: rest) ++ t =
        [c] ++ CodeUnit.ofChar '.' :: (e :: rest ++ t) := by
      intro t
      simp [mantissaText, show Text.ofString "." = [CodeUnit.ofChar '.'] by decide]
    refine ⟨_, (congrArg Numeral.ofText? (htext _)).trans hread, congrArg Decimal.value ?_,
      fun _ => ⟨⟨c, [], rfl, fun hrest => absurd rfl hrest⟩, by simp⟩⟩
    simp only [Numeral.toDecimal, Option.getD_some, List.drop_succ_cons, List.drop_zero,
      List.singleton_append, hvalue, hsigned]
    exact Decimal.mk.injEq .. ▸ ⟨rfl, by simp only [← hpower, List.length_cons]; push_cast; omega⟩

end Writes

/-- A decimal is read back with its value, and written in the strict form. -/
theorem readsBack_toText (d : Decimal) : d.ReadsBack d.toText := by
  have h := writes_ofNat d
  have hpoint : Text.ofString "." = [CodeUnit.ofChar '.'] := by decide
  have hlead : Text.ofString "0." = [CodeUnit.ofChar '0', CodeUnit.ofChar '.'] := by decide
  unfold toText
  dsimp only
  generalize Text.ofNat d.digits = digits at h ⊢
  split
  · rename_i hrange
    rw [Bool.and_eq_true, decide_eq_true_eq, decide_eq_true_eq] at hrange
    exact h.readsBack_zeros (by omega) _ (by omega)
  · split
    · rename_i hbig hrange
      simp only [Bool.and_eq_true, decide_eq_true_eq, not_and] at hbig hrange
      rw [hpoint, List.append_assoc, List.singleton_append]
      exact h.readsBack_point (by omega) (by omega) (by omega)
    · split
      · rename_i hrange
        rw [Bool.and_eq_true, decide_eq_true_eq, decide_eq_true_eq] at hrange
        rw [hlead, List.append_assoc]
        exact h.readsBack_fraction (by omega)
      · rw [List.append_assoc, List.append_assoc, ← List.append_assoc (Text.ofString "e"), powerText_eq]
        exact h.readsBack_power rfl

theorem value_nonneg (d : Decimal) : 0 ≤ d.value := by
  rw [value, tenPow_eq]
  exact mul_nonneg (Nat.cast_nonneg _) (zpow_nonneg (by norm_num) _)

/-- The place of the first digit tells the magnitude. -/
theorem value_bounds {d : Decimal} (hd : d.digits ≠ 0) :
    (10 : ℚ) ^ (d.exponent + width d.digits - 1) ≤ d.value ∧
      d.value < 10 ^ (d.exponent + width d.digits) := by
  have hwidth : 0 < width d.digits := Nat.length_toDigits_pos
  have hhigh : d.digits < 10 ^ width d.digits :=
    (Nat.length_toDigits_le_iff (by decide) hwidth).1 le_rfl
  have hlow : 10 ^ (width d.digits - 1) ≤ d.digits := pow_width_le hd
  have hpos : (0 : ℚ) < 10 ^ d.exponent := zpow_pos (by norm_num) _
  rw [value, tenPow_eq]
  constructor
  · have hsplit : d.exponent + (width d.digits : Int) - 1 = ((width d.digits - 1 : Nat) : Int) + d.exponent := by
      omega
    rw [hsplit, zpow_add₀ (by norm_num), zpow_natCast]
    exact mul_le_mul_of_nonneg_right (by exact_mod_cast hlow) hpos.le
  · rw [add_comm, zpow_add₀ (by norm_num), zpow_natCast]
    exact mul_lt_mul_of_pos_right (by exact_mod_cast hhigh) hpos

end Decimal

namespace Number

/-- A decimal is read as the magnitude next to it. -/
theorem ofDecimal_eq {d : Decimal} {m : ℚ} (hd : nearest d.value = m) (hm : 0 < m)
    (hbound : m < overflowBound) (negative : Bool) : ofDecimal negative d = finite negative m := by
  have hdigits : d.digits ≠ 0 := by
    intro hzero
    have hvalue : d.value = 0 := by simp [Decimal.value, hzero]
    rw [hvalue, nearest, if_pos rfl] at hd
    exact hm.ne hd
  obtain ⟨hlow, hhigh⟩ := Decimal.value_bounds hdigits
  have hsmall : ¬400 < d.exponent + (Decimal.width d.digits : Int) := by
    intro hpoint
    have hten : (10 : ℚ) ^ (400 : Int) ≤ d.value :=
      (zpow_le_zpow_right₀ (by norm_num) (by omega)).trans hlow
    have htwo : twoPow 1025 ≤ (10 : ℚ) ^ (400 : Int) := by
      calc twoPow 1025 = ((2 : ℚ) ^ 41) ^ 25 := by rw [twoPow_eq, ← pow_mul]; rfl
        _ ≤ ((10 : ℚ) ^ 16) ^ 25 := pow_le_pow_left₀ (by norm_num) (by norm_num) 25
        _ = (10 : ℚ) ^ (400 : Int) := by rw [← pow_mul]; rfl
    have hover := overflow_le_nearest (htwo.trans hten)
    rw [hd] at hover
    exact absurd hbound (not_lt.2 hover)
  have hlarge : ¬d.exponent + (Decimal.width d.digits : Int) < -400 := by
    intro hpoint
    have hten : d.value < (10 : ℚ) ^ (-400 : Int) :=
      hhigh.trans_le (zpow_le_zpow_right₀ (by norm_num) (by omega))
    have htwo : (10 : ℚ) ^ (-400 : Int) < twoPow (-1075) := by
      have hpowers : twoPow 1075 < (10 : ℚ) ^ (400 : Int) := by
        calc twoPow 1075 = ((2 : ℚ) ^ 43) ^ 25 := by rw [twoPow_eq, ← pow_mul]; rfl
          _ < ((10 : ℚ) ^ 16) ^ 25 := pow_lt_pow_left₀ (by norm_num) (by norm_num) (by norm_num)
          _ = (10 : ℚ) ^ (400 : Int) := by rw [← pow_mul]; rfl
      rw [twoPow_eq] at hpowers ⊢
      rw [zpow_neg, zpow_neg]
      exact inv_strictAnti₀ (zpow_pos (by norm_num) _) hpowers
    rw [nearest_eq_zero d.value_nonneg (hten.trans htwo)] at hd
    exact hm.ne hd
  rw [ofDecimal, if_neg hdigits]
  dsimp only
  rw [if_neg hsmall, if_neg hlarge, round, hd, if_neg (not_le.2 hbound)]

end Number

namespace Decimal

theorem value_stripZeros (fuel : Nat) (d : Decimal) : (stripZeros fuel d).value = d.value := by
  induction fuel generalizing d with
  | zero => rfl
  | succ fuel ih =>
    rw [stripZeros]
    split
    · rename_i h
      simp only [Bool.and_eq_true, decide_eq_true_eq] at h
      have hdigits : ((d.digits / 10 : Nat) : ℚ) * 10 = d.digits := by
        exact_mod_cast Nat.div_mul_cancel (Nat.dvd_of_mod_eq_zero h.2)
      rw [ih]
      simp only [value, tenPow_eq]
      rw [zpow_add₀ (by norm_num), zpow_one, ← hdigits]
      ring
    · rfl

theorem readsAs_of_withDigits {q : ℚ} {count : Nat} {d : Decimal} (h : withDigits q count = some d) :
    Number.nearest d.value = q := by
  have hreads : ∀ {d : Decimal}, d.readsAs q = true → Number.nearest d.value = q := by
    intro d hd
    simpa [readsAs] using hd
  unfold withDigits at h
  dsimp only at h
  split at h
  · rename_i hlow hhigh
    rw [Option.some.injEq] at h
    subst h
    split
    · exact hreads hlow
    · split
      · exact hreads hhigh
      · split
        · exact hreads hlow
        · exact hreads hhigh
  · rename_i hlow _
    cases h
    exact hreads hlow
  · rename_i _ hhigh
    cases h
    exact hreads hhigh
  · cases h

theorem value_expansion {q : ℚ} (hq : 0 < q) (h : Number.OnGrid q) : (expansion q).value = q := by
  obtain ⟨k, e, -, -, heq⟩ := h
  -- the denominator is a power of two
  obtain ⟨n, hn⟩ : ∃ n, q.den ∣ 2 ^ n := by
    have hfactors := Rat.mul_den_dvd (k : ℚ) (Number.twoPow e)
    rw [← heq, Rat.den_natCast, one_mul] at hfactors
    unfold Number.twoPow at hfactors
    split at hfactors
    · exact ⟨0, by simpa using hfactors⟩
    · rw [Rat.mkRat_eq_divInt] at hfactors
      exact ⟨(-e).toNat, hfactors.trans (Int.natCast_dvd_natCast.1 (Rat.den_dvd 1 _))⟩
  obtain ⟨places, -, hplaces⟩ := (Nat.dvd_prime_pow Nat.prime_two).1 hn
  have hlog : Nat.log2 q.den = places := by rw [hplaces, Nat.log2_two_pow]
  have hnum : (q.num.toNat : ℚ) = q * q.den := by
    have hpos : 0 ≤ q.num := (Rat.num_pos.2 hq).le
    have hcast : ((q.num.toNat : Int) : ℚ) = (q.num : ℚ) := by rw [Int.toNat_of_nonneg hpos]
    rw [← Rat.mul_den_eq_num q] at hcast
    exact_mod_cast hcast
  have hten : (10 : ℚ) ^ places = 2 ^ places * 5 ^ places := by
    rw [← mul_pow]
    norm_num
  simp only [expansion, value, hlog, tenPow_eq, zpow_neg, zpow_natCast, Nat.pow_eq]
  push_cast
  rw [hnum, hplaces, hten]
  push_cast
  field_simp

/-- The shortest notation reads back. -/
theorem nearest_shortest {q : ℚ} (hq : 0 < q) (h : Number.OnGrid q) :
    Number.nearest (shortest q).value = q := by
  rw [shortest, normal, value_stripZeros]
  cases hfind : (List.range 17).findSome? fun i => withDigits q (i + 1) with
  | none =>
    rw [Option.getD_none, value_expansion hq h]
    exact h.nearest_eq hq
  | some d =>
    obtain ⟨i, -, hi⟩ := List.exists_of_findSome?_eq_some hfind
    exact readsAs_of_withDigits hi

end Decimal

namespace Number

theorem ofLiteral?_of_ofText? {t : Text} {n : Numeral} (h : Numeral.ofText? t = some n) :
    ofLiteral? t = some (ofDecimal false n.toDecimal) := by
  cases t with
  | nil => cases h
  | cons c t =>
    have hc : c ≠ CodeUnit.ofChar '-' := by
      rintro rfl
      have hdigit : (CodeUnit.ofChar '-').isDigit = false := by decide
      have hpoint : CodeUnit.ofChar '-' ≠ CodeUnit.ofChar '.' := by decide
      have hlower : CodeUnit.ofChar '-' ≠ CodeUnit.ofChar 'e' := by decide
      have hupper : CodeUnit.ofChar '-' ≠ CodeUnit.ofChar 'E' := by decide
      simp [Numeral.ofText?, Numeral.scan, Numeral.scanExponent, hdigit, hpoint, hlower, hupper] at h
    simp [ofLiteral?, hc, h]

/-- A positive magnitude of the format is written in the strict form, by digits that are read as it. -/
theorem ofText?_magnitudeText {m : ℚ} (hm : 0 < m) (hgrid : OnGrid m) :
    ∃ n, Numeral.ofText? (magnitudeText m) = some n ∧ nearest n.toDecimal.value = m ∧ n.Strict := by
  unfold magnitudeText
  split
  · rename_i hwhole
    simp only [Bool.and_eq_true, decide_eq_true_eq] at hwhole
    have hread := Numeral.ofText?_whole .none (Text.isDigits_ofNat m.num.toNat) (Text.ofNat_ne_nil _)
    rw [List.append_nil] at hread
    have hnum : (m.num.toNat : ℚ) = m := by
      have hcast : ((m.num.toNat : Int) : ℚ) = m := by
        rw [Int.toNat_of_nonneg (Rat.num_pos.2 hm).le]
        exact Rat.coe_int_num_of_den_eq_one hwhole.1
      exact_mod_cast hcast
    refine ⟨_, hread, ?_, ?_, nofun⟩
    · have hsame : Decimal.value (Numeral.toDecimal ⟨Text.ofNat m.num.toNat, none, none⟩) = m := by
        simp [Numeral.toDecimal, Decimal.value, Decimal.tenPow_eq, Text.digitsValue_ofNat, hnum]
      rw [hsame]
      exact hgrid.nearest_eq hm
    · have hpos := Rat.num_pos.2 hm
      obtain ⟨c, rest, hcons, hc⟩ := Text.ofNat_eq_cons (show m.num.toNat ≠ 0 by omega)
      exact ⟨c, rest, hcons, fun _ => hc⟩
  · have hnearest := Decimal.nearest_shortest hm hgrid
    obtain ⟨n, hn, hvalue, hstrict⟩ := Decimal.readsBack_toText (Decimal.shortest m)
    refine ⟨n, hn, by rw [hvalue, hnearest], hstrict ?_⟩
    intro hzero
    have hvanish : (Decimal.shortest m).value = 0 := by simp [Decimal.value, hzero]
    rw [hvanish, nearest, if_pos rfl] at hnearest
    exact hm.ne hnearest

/-- A positive number of the format is read back from its notation. -/
theorem ofLiteral?_toText {m : ℚ} (hm : 0 < m) (hgrid : OnGrid m) (hbound : m < overflowBound) :
    ofLiteral? (finite false m).toText = some (finite false m) := by
  have hempty : Text.ofString "" = [] := rfl
  have htext : (finite false m).toText = magnitudeText m := by
    simp [toText, hm.ne', hempty]
  obtain ⟨n, hn, hvalue, -⟩ := ofText?_magnitudeText hm hgrid
  rw [htext, ofLiteral?_of_ofText? hn, ofDecimal_eq hvalue hm hbound]

end Number

end QueryLint
