import QueryLint.Number.Decimal

/-!
Numbers in decimal notation.
-/

namespace QueryLint
set_option autoImplicit false

theorem CodeUnit.toNat_ofChar {c : Char} (h : c.toNat < 65536) : (CodeUnit.ofChar c).toNat = c.toNat := by
  simp only [CodeUnit.ofChar, Nat.toUInt16, UInt16.toNat_ofNat']
  exact Nat.mod_eq_of_lt h

theorem CodeUnit.isDigit_iff (c : CodeUnit) : c.isDigit = true ↔ 48 ≤ c.toNat ∧ c.toNat ≤ 57 := by
  have h0 : CodeUnit.ofChar '0' = 48 := by decide
  have h9 : CodeUnit.ofChar '9' = 57 := by decide
  simp [CodeUnit.isDigit, h0, h9, UInt16.le_iff_toNat_le]

theorem CodeUnit.isSpace_of_isDigit {c : CodeUnit} (h : c.isDigit = true) : c.isSpace = false := by
  rw [isDigit_iff] at h
  rw [← Bool.not_eq_true]
  intro hspace
  simp only [isSpace, Bool.or_eq_true, Bool.and_eq_true, decide_eq_true_eq, UInt16.le_iff_toNat_le,
    ← UInt16.toNat_inj] at hspace
  simp at hspace
  omega

namespace Text

theorem exists_digit {n : Nat} {c : CodeUnit} (h : c ∈ ofNat n) :
    ∃ d : Char, d.isDigit = true ∧ c.toNat = d.toNat := by
  obtain ⟨d, hd, rfl⟩ := List.mem_map.1 h
  have hdigit := Nat.isDigit_of_mem_toDigits (by decide) (by decide) hd
  refine ⟨d, hdigit, CodeUnit.toNat_ofChar ?_⟩
  have hbound : d.toNat ≤ 57 := (Char.isDigit_iff_toNat.1 hdigit).2
  omega

theorem isDigit_of_mem_ofNat {n : Nat} {c : CodeUnit} (h : c ∈ ofNat n) : c.isDigit = true := by
  obtain ⟨d, hdigit, hc⟩ := exists_digit h
  rw [CodeUnit.isDigit_iff, hc]
  exact Char.isDigit_iff_toNat.1 hdigit

theorem ofNat_ne_nil (n : Nat) : ofNat n ≠ [] := by
  simp [ofNat, Nat.toDigits_ne_nil]

theorem digitsValue_map {cs : List Char} (h : ∀ c ∈ cs, c.isDigit = true) (init : Nat) :
    (cs.map CodeUnit.ofChar).foldl (fun n c => n * 10 + (c.toNat - 48)) init =
      Nat.ofDigitChars 10 cs init := by
  induction cs generalizing init with
  | nil => rfl
  | cons c cs ih =>
    have hbound : c.toNat ≤ 57 := (Char.isDigit_iff_toNat.1 (h c List.mem_cons_self)).2
    have hc : (CodeUnit.ofChar c).toNat = c.toNat := CodeUnit.toNat_ofChar (by omega)
    rw [List.map_cons, List.foldl_cons, ih (fun d hd => h d (List.mem_cons_of_mem _ hd)), hc,
      Nat.ofDigitChars_cons, Nat.mul_comm]
    rfl

/-- Decimal notation is read back. -/
theorem digitsValue_ofNat (n : Nat) : digitsValue (ofNat n) = n := by
  rw [digitsValue, ofNat, digitsValue_map fun c hc =>
    Nat.isDigit_of_mem_toDigits (by decide) (by decide) hc]
  exact Nat.ofDigitChars_ten_toDigits

theorem ofNat_injective {m n : Nat} (h : ofNat m = ofNat n) : m = n := by
  rw [← digitsValue_ofNat m, h, digitsValue_ofNat]

theorem ofInt_injective {m n : Int} (h : ofInt m = ofInt n) : m = n := by
  have hsign : ∀ {k l : Nat}, ofString "-" ++ ofNat k ≠ ofNat l := by
    intro k l heq
    have hminus : CodeUnit.ofChar '-' ∈ ofNat l := by
      rw [← heq]
      exact List.mem_append_left _ (by decide)
    have hdigit := isDigit_of_mem_ofNat hminus
    revert hdigit
    decide
  unfold ofInt at h
  split at h <;> split at h
  · have := ofNat_injective (List.append_cancel_left h)
    omega
  · exact absurd h hsign
  · exact absurd h.symm hsign
  · have := ofNat_injective h
    omega

theorem zero_not_mem_ofInt (n : Int) : (0 : CodeUnit) ∉ ofInt n := by
  have hnat : ∀ k, (0 : CodeUnit) ∉ ofNat k := by
    intro k h
    have hdigit := isDigit_of_mem_ofNat h
    revert hdigit
    decide
  unfold ofInt
  split
  · rw [List.mem_append, not_or]
    exact ⟨by decide, hnat _⟩
  · exact hnat _

end Text

def CodeUnit.isNumberUnit (c : CodeUnit) : Bool := c.isDigit || c.isLetter || c = '.' || c = '+' || c = '-'

namespace Text

def IsNumeric (t : Text) : Prop := ∀ c ∈ t, c.isNumberUnit = true

instance (t : Text) : Decidable t.IsNumeric := inferInstanceAs (Decidable (∀ c ∈ t, _))

theorem isNumeric_append {s t : Text} : IsNumeric (s ++ t) ↔ s.IsNumeric ∧ t.IsNumeric :=
  List.forall_mem_append

theorem isNumeric_ofNat (n : Nat) : (ofNat n).IsNumeric := by
  intro c hc
  simp [CodeUnit.isNumberUnit, isDigit_of_mem_ofNat hc]

theorem isNumeric_zeros (count : Nat) : IsNumeric (List.replicate count (CodeUnit.ofChar '0')) := by
  intro c hc
  rw [List.eq_of_mem_replicate hc]
  decide

theorem IsNumeric.take {t : Text} (h : t.IsNumeric) (count : Nat) : IsNumeric (t.take count) :=
  fun c hc => h c (List.mem_of_mem_take hc)

theorem IsNumeric.drop {t : Text} (h : t.IsNumeric) (count : Nat) : IsNumeric (t.drop count) :=
  fun c hc => h c (List.mem_of_mem_drop hc)

end Text

namespace Decimal

theorem toText_ne_nil (d : Decimal) : d.toText ≠ [] := by
  have hdigits := Text.ofNat_ne_nil d.digits
  have hpoint : Text.ofString "." ≠ [] := by decide
  have hmark : Text.ofString "e" ≠ [] := by decide
  have hzero : Text.ofString "0." ≠ [] := by decide
  unfold toText
  dsimp only
  split
  · simp [hdigits]
  · split
    · simp [hpoint]
    · split
      · simp [hzero]
      · simp [hmark]

/-- The digits with a point behind the first one, unless it is the only one. -/
def mantissaText : Text → Text
  | [] => []
  | [c] => [c]
  | c :: rest => [c] ++ "." ++ rest

theorem isNumeric_mantissaText {digits : Text} (h : digits.IsNumeric) :
    Text.IsNumeric (mantissaText digits) := by
  match digits with
  | [] => exact h
  | [c] => exact h
  | c :: e :: rest =>
    have hpoint : Text.IsNumeric (Text.ofString ".") := by decide
    exact Text.isNumeric_append.2 ⟨Text.isNumeric_append.2 ⟨h.take 1, hpoint⟩, h.drop 1⟩

theorem isNumeric_toText (d : Decimal) : Text.IsNumeric d.toText := by
  have hdigits := Text.isNumeric_ofNat d.digits
  have hpoint : Text.IsNumeric (Text.ofString ".") := by decide
  have hlead : Text.IsNumeric (Text.ofString "0.") := by decide
  have hmark : Text.IsNumeric (Text.ofString "e") := by decide
  have hsign : ∀ p : Prop, [Decidable p] → Text.IsNumeric (Text.ofString (if p then "-" else "+")) := by
    intro p _
    split <;> decide
  unfold toText
  dsimp only
  generalize Text.ofNat d.digits = digits at hdigits ⊢
  split
  · exact Text.isNumeric_append.2 ⟨hdigits, Text.isNumeric_zeros _⟩
  · split
    · exact Text.isNumeric_append.2 ⟨Text.isNumeric_append.2 ⟨hdigits.take _, hpoint⟩, hdigits.drop _⟩
    · split
      · exact Text.isNumeric_append.2
          ⟨Text.isNumeric_append.2 ⟨hlead, Text.isNumeric_zeros _⟩, hdigits⟩
      · simp only [Text.isNumeric_append]
        exact ⟨⟨⟨isNumeric_mantissaText hdigits, hmark⟩, hsign _⟩, Text.isNumeric_ofNat _⟩

end Decimal

namespace Number

theorem magnitudeText_ne_nil (m : Rat) : magnitudeText m ≠ [] := by
  unfold magnitudeText
  split
  · exact Text.ofNat_ne_nil _
  · exact Decimal.toText_ne_nil _

theorem toText_ne_nil (x : Number) : x.toText ≠ [] := by
  cases x with
  | nan => decide
  | infinite negative => cases negative <;> decide
  | finite negative m =>
    simp only [toText]
    split
    · decide
    · simp [magnitudeText_ne_nil]

theorem isNumeric_magnitudeText (m : Rat) : Text.IsNumeric (magnitudeText m) := by
  unfold magnitudeText
  split
  · exact Text.isNumeric_ofNat _
  · exact Decimal.isNumeric_toText _

theorem isNumeric_toText (x : Number) : x.toText.IsNumeric := by
  cases x with
  | nan => decide
  | infinite negative => cases negative <;> decide
  | finite negative m =>
    simp only [toText]
    split
    · decide
    · have hsign : Text.IsNumeric (Text.ofString (if negative then "-" else "")) := by
        cases negative <;> decide
      exact Text.isNumeric_append.2 ⟨hsign, isNumeric_magnitudeText m⟩

end Number
end QueryLint
