import QueryLint.Duration
import QueryLint.Proofs.Lines
import QueryLint.Proofs.Notation
import QueryLint.Proofs.WholeNumbers

/-!
Durations are read back from their texts.

A whole number of milliseconds is written in the largest unit that divides it, with plain digits before the
symbol of the unit. The reader takes the digits and the symbol apart and multiplies back, all without rounding.
-/

namespace QueryLint
set_option autoImplicit false

namespace TimeUnit

theorem milliseconds_pos (u : TimeUnit) : 0 < u.milliseconds := by cases u <;> decide

theorem milliseconds_le (u : TimeUnit) : u.milliseconds ≤ 2 ^ 53 := by cases u <;> decide

theorem mem_all (u : TimeUnit) : u ∈ all := by cases u <;> decide

/-- The units are listed from the largest to the smallest. -/
theorem pairwise_all : all.Pairwise fun u v => v.milliseconds ≤ u.milliseconds := by decide

theorem ofSymbol?_symbol (u : TimeUnit) : ofSymbol? u.symbol = some u := by cases u <;> decide

theorem plain_of_mem_symbol (u : TimeUnit) : ∀ c ∈ u.symbol,
    CodeUnit.isDigit c = false ∧ CodeUnit.isSpace c = false ∧ c ≠ CodeUnit.ofChar '.' := by
  cases u <;> decide

theorem exists_symbol_eq_cons (u : TimeUnit) : ∃ c rest, u.symbol = c :: rest := by
  cases u <;> exact ⟨_, _, rfl⟩

def IsLargest (u : TimeUnit) (ms : Nat) : Prop :=
  u.milliseconds ∣ ms ∧ ∀ v : TimeUnit, v.milliseconds ∣ ms → v.milliseconds ≤ u.milliseconds

theorem IsLargest.div_pos {u : TimeUnit} {ms : Nat} (h : u.IsLargest ms) (hpos : 0 < ms) : 0 < ms / u.milliseconds :=
  Nat.div_pos (Nat.le_of_dvd hpos h.1) u.milliseconds_pos

/-- The first unit of the list that divides is the largest. -/
theorem isLargest_of_find? {u : TimeUnit} {ms : Nat}
    (h : all.find? (fun v => v.milliseconds ∣ ms) = some u) : u.IsLargest ms := by
  obtain ⟨hu, before, behind, hall, hbefore⟩ := List.find?_eq_some_iff_append.1 h
  refine ⟨of_decide_eq_true hu, ?_⟩
  intro v hv
  have hmem : v ∈ before ++ u :: behind := hall ▸ mem_all v
  have hsorted : (u :: behind).Pairwise fun u v => v.milliseconds ≤ u.milliseconds :=
    (List.pairwise_append.1 (hall ▸ pairwise_all)).2.1
  rcases List.mem_append.1 hmem with hmem | hmem
  · simpa [hv] using hbefore v hmem
  · rcases List.mem_cons.1 hmem with rfl | hmem
    · exact le_rfl
    · exact (List.pairwise_cons.1 hsorted).1 v hmem

end TimeUnit

namespace Duration

theorem fits_ofNat {ms : Nat} (hpos : 0 < ms) (hms : Number.IsExact ms) (u : TimeUnit) :
    fits (Number.ofNat ms) u = decide (u.milliseconds ∣ ms) := by
  have hle : u.milliseconds ∣ ms → u.milliseconds ≤ ms := Nat.le_of_dvd hpos
  have hrest : ms % u.milliseconds ≤ 2 ^ 53 := (Nat.mod_lt ms u.milliseconds_pos).le.trans u.milliseconds_le
  rw [fits, Number.ofNat_mod hms u.milliseconds_le u.milliseconds_pos, Bool.eq_iff_iff, Bool.and_eq_true,
    Number.le_ofNat_iff (Number.isExact_of_le u.milliseconds_le) hms, decide_eq_true_iff,
    Number.isZero_ofNat_iff hrest, ← Nat.dvd_iff_mod_eq_zero, and_iff_right_of_imp hle]

/-- A whole number of milliseconds is written in the largest unit that divides it, if so many of the unit can be
written in plain digits. -/
theorem exists_toText_of_isExact {ms : Nat} (hpos : 0 < ms) (hms : Number.IsExact ms)
    (hplain : ∀ u : TimeUnit, u.IsLargest ms → ms / u.milliseconds < 2 ^ 53) :
    ∃ u : TimeUnit, u.IsLargest ms ∧
      toText (Number.ofNat ms) = Text.ofNat (ms / u.milliseconds) ++ u.symbol := by
  have hfits : fits (Number.ofNat ms) = fun u => decide (u.milliseconds ∣ ms) := funext (fits_ofNat hpos hms)
  have hall : TimeUnit.all = [.week, .day, .hour, .minute, .second] ++ [.millisecond] := rfl
  cases hfind : [TimeUnit.week, .day, .hour, .minute, .second].find? fun u => u.milliseconds ∣ ms with
  | some u =>
    have hlargest : u.IsLargest ms := TimeUnit.isLargest_of_find? (by rw [hall, List.find?_append, hfind]; rfl)
    refine ⟨u, hlargest, ?_⟩
    simp only [toText, hfits, hfind]
    rw [Number.ofNat_div hms u.milliseconds_le u.milliseconds_pos hlargest.1,
      Number.toText_ofNat (hlargest.div_pos hpos) (hplain u hlargest)]
  | none =>
    have hlargest : TimeUnit.millisecond.IsLargest ms :=
      TimeUnit.isLargest_of_find? (by rw [hall, List.find?_append, hfind]; simp [TimeUnit.milliseconds])
    have hone : ms / TimeUnit.milliseconds .millisecond = ms := Nat.div_one ms
    have hless := hplain .millisecond hlargest
    rw [hone] at hless
    refine ⟨.millisecond, hlargest, ?_⟩
    simp only [toText, hfits, hfind]
    rw [hone, Number.toText_ofNat hpos hless]

theorem exists_toText_ofNat {ms : Nat} (hpos : 0 < ms) (hms : ms < 2 ^ 53) :
    ∃ u : TimeUnit, u.IsLargest ms ∧
      toText (Number.ofNat ms) = Text.ofNat (ms / u.milliseconds) ++ u.symbol :=
  exists_toText_of_isExact hpos (Number.isExact_of_le hms.le) fun _ _ => (Nat.div_le_self _ _).trans_lt hms

/-- Digits and the symbol of a unit are taken apart again. -/
theorem split?_ofNat {k : Nat} (hpos : 0 < k) (hk : k ≤ 2 ^ 53) (u : TimeUnit) :
    split? (Text.ofNat k ++ u.symbol) = some (Number.ofNat k, u) := by
  have hdigits := Text.isDigits_ofNat k
  have hplain := u.plain_of_mem_symbol
  obtain ⟨c, rest, hsymbol⟩ := u.exists_symbol_eq_cons
  have hunit := u.ofSymbol?_symbol
  rw [hsymbol] at hplain hunit ⊢
  obtain ⟨hdigit, hspace, hpoint⟩ := hplain c List.mem_cons_self
  have hwhole : (Text.ofNat k ++ c :: rest).takeWhile CodeUnit.isDigit = Text.ofNat k := by
    rw [List.takeWhile_append_of_pos hdigits, List.takeWhile_cons, hdigit]
    simp
  have hbehind : (Text.ofNat k ++ c :: rest).dropWhile CodeUnit.isDigit = c :: rest := by
    rw [List.dropWhile_append_of_pos hdigits, List.dropWhile_cons, hdigit]
    rfl
  have hnumber : Number.ofDecimal false (Numeral.toDecimal ⟨Text.ofNat k, none, none⟩) = Number.ofNat k := by
    have hcast : (0 : ℚ) < k := by exact_mod_cast hpos
    have hvalue : (Numeral.toDecimal ⟨Text.ofNat k, none, none⟩).value = k := by
      simp [Numeral.toDecimal, Decimal.value, Decimal.tenPow_eq, Text.digitsValue_ofNat]
    rw [Number.ofNat_eq hk]
    refine Number.ofDecimal_eq ?_ hcast (Number.natCast_lt_overflowBound hk) false
    rw [hvalue, (Number.onGrid_natCast hk).nearest_eq hcast]
  have hdrop : (c :: rest).dropWhile CodeUnit.isSpace = c :: rest := by
    rw [List.dropWhile_cons, hspace]
    rfl
  simp [split?, hwhole, hbehind, hpoint, Text.ofNat_ne_nil, hnumber, hdrop, hunit]

/-- Digits and the symbol of a unit are read as so many milliseconds. -/
theorem ofText?_of_isExact {k : Nat} {u : TimeUnit} (hpos : 0 < k) (hle : k ≤ 2 ^ 53)
    (hk : Number.IsExact (k * u.milliseconds)) :
    ofText? (Text.ofNat k ++ u.symbol) = some (Number.ofNat (k * u.milliseconds)) := by
  have htrim : Text.trim (Text.ofNat k ++ u.symbol) = Text.ofNat k ++ u.symbol := by
    apply Text.trim_eq_self
    intro c hc
    rcases List.mem_append.1 hc with hc | hc
    · exact CodeUnit.isSpace_of_isDigit (Text.isDigit_of_mem_ofNat hc)
    · exact (u.plain_of_mem_symbol c hc).2.1
  rw [ofText?, htrim, split?_ofNat hpos hle]
  dsimp only
  rw [Number.ofNat_mul hle u.milliseconds_le, positive?,
    Number.isPositive_ofNat (Nat.mul_pos hpos u.milliseconds_pos) hk, if_pos rfl]

theorem ofText?_ofNat {k : Nat} {u : TimeUnit} (hpos : 0 < k) (hk : k * u.milliseconds ≤ 2 ^ 53) :
    ofText? (Text.ofNat k ++ u.symbol) = some (Number.ofNat (k * u.milliseconds)) :=
  ofText?_of_isExact hpos ((Nat.le_mul_of_pos_right k u.milliseconds_pos).trans hk) (Number.isExact_of_le hk)

/-- A whole number of milliseconds below 2 ^ 53 is read back from its text, which gives it in the largest unit that
divides it. -/
theorem ofText?_toText_ofNat {ms : Nat} (hpos : 1 ≤ ms) (hms : ms < 2 ^ 53) :
    ofText? (toText (Number.ofNat ms)) = some (Number.ofNat ms) ∧
      ∃ u : TimeUnit, u.IsLargest ms ∧
        toText (Number.ofNat ms) = Text.ofNat (ms / u.milliseconds) ++ u.symbol := by
  obtain ⟨u, hlargest, htext⟩ := exists_toText_ofNat hpos hms
  have hback : ms / u.milliseconds * u.milliseconds = ms := Nat.div_mul_cancel hlargest.1
  refine ⟨?_, u, hlargest, htext⟩
  rw [htext, ofText?_ofNat (hlargest.div_pos hpos) (by omega), hback]

/-- A week and a minute. -/
theorem ofText?_toText_overWeek : (1 ≤ 604860000 ∧ 604860000 < 2 ^ 53) ∧
    ofText? (toText (Number.ofNat 604860000)) = some (Number.ofNat 604860000) ∧
    ∃ u : TimeUnit, u.IsLargest 604860000 ∧
      toText (Number.ofNat 604860000) = Text.ofNat (604860000 / u.milliseconds) ++ u.symbol :=
  ⟨by decide, ofText?_toText_ofNat (by decide) (by decide)⟩

end Duration
end QueryLint
