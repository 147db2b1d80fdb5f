import QueryLint.Json.Printer
import QueryLint.Json.Reader
import QueryLint.Proofs.Notation

/-!
Texts and numbers are read back from their JSON, whatever follows it: a text up to its closing quote,
a number up to the first unit that cannot belong to one.
-/

namespace QueryLint
set_option autoImplicit false

namespace Numeral

/-- What follows a number does not go on with it. -/
def Stops (rest : Text) : Prop := ∀ c ∈ rest.head?, c.isNumberUnit = false

theorem stops_cons {c : CodeUnit} (h : c.isNumberUnit = false) (rest : Text) : Stops (c :: rest) := by
  intro d hd
  cases hd
  exact h

theorem Stops.not_isDigit {c : CodeUnit} {rest : Text} (h : Stops (c :: rest)) : c.isDigit = false := by
  have hc := h c rfl
  simp only [CodeUnit.isNumberUnit, Bool.or_eq_false_iff] at hc
  exact hc.1.1.1.1

theorem Stops.ne_of_isNumberUnit {c d : CodeUnit} {rest : Text} (h : Stops (c :: rest))
    (hd : d.isNumberUnit = true) : c ≠ d := by
  rintro rfl
  rw [h c rfl] at hd
  cases hd

theorem takeWhile_append_stops (t : Text) {rest : Text} (h : Stops rest) :
    (t ++ rest).takeWhile CodeUnit.isDigit = t.takeWhile CodeUnit.isDigit ∧
      (t ++ rest).dropWhile CodeUnit.isDigit = t.dropWhile CodeUnit.isDigit ++ rest := by
  induction t with
  | nil =>
    cases rest with
    | nil => exact ⟨rfl, rfl⟩
    | cons c rest => simp [h.not_isDigit]
  | cons c t ih =>
    cases hc : c.isDigit with
    | false => simp [hc]
    | true => simp [hc, ih]

theorem scanExponent_append (t : Text) {rest : Text} (h : Stops rest) :
    scanExponent (t ++ rest) = ((scanExponent t).1, (scanExponent t).2 ++ rest) := by
  cases t with
  | nil =>
    cases rest with
    | nil => rfl
    | cons c rest =>
      have hlower : c ≠ CodeUnit.ofChar 'e' := h.ne_of_isNumberUnit (by decide)
      have hupper : c ≠ CodeUnit.ofChar 'E' := h.ne_of_isNumberUnit (by decide)
      simp [scanExponent, hlower, hupper]
  | cons mark t =>
    rw [List.cons_append]
    unfold scanExponent
    dsimp only
    split
    · cases t with
      | nil =>
        cases rest with
        | nil => rfl
        | cons c rest =>
          have hminus : c ≠ CodeUnit.ofChar '-' := h.ne_of_isNumberUnit (by decide)
          have hplus : c ≠ CodeUnit.ofChar '+' := h.ne_of_isNumberUnit (by decide)
          simp [hminus, hplus, h.not_isDigit]
      | cons sign more =>
        obtain ⟨htake, hdrop⟩ := takeWhile_append_stops more h
        obtain ⟨htake', hdrop'⟩ := takeWhile_append_stops (sign :: more) h
        dsimp only [List.cons_append] at htake' hdrop' ⊢
        by_cases hminus : sign = CodeUnit.ofChar '-'
        · simp only [if_pos hminus, htake, hdrop]
          split <;> rfl
        · by_cases hplus : sign = CodeUnit.ofChar '+'
          · simp only [if_neg hminus, if_pos hplus, htake, hdrop]
            split <;> rfl
          · simp only [if_neg hminus, if_neg hplus, htake', hdrop']
            split <;> rfl
    · rfl

/-- A numeral is scanned alike with something behind it that does not go on with it. -/
theorem scan_append {t rest : Text} (h : Stops rest) :
    scan (t ++ rest) = ((scan t).1, (scan t).2 ++ rest) := by
  obtain ⟨htake, hdrop⟩ := takeWhile_append_stops t h
  simp only [scan, htake, hdrop]
  cases t.dropWhile CodeUnit.isDigit with
  | nil =>
    cases rest with
    | nil => rfl
    | cons c rest =>
      have hpoint : c ≠ CodeUnit.ofChar '.' := h.ne_of_isNumberUnit (by decide)
      have hexponent := scanExponent_append [] h
      rw [List.nil_append] at hexponent
      simp only [List.nil_append, hpoint, if_false, hexponent]
  | cons c more =>
    obtain ⟨htake', hdrop'⟩ := takeWhile_append_stops more h
    by_cases hc : c = CodeUnit.ofChar '.'
    · simp only [List.cons_append, hc, if_true, htake', hdrop', scanExponent_append _ h]
    · have hexponent := scanExponent_append (c :: more) h
      rw [List.cons_append] at hexponent
      simp only [List.cons_append, hc, if_false, hexponent]

theorem scan_of_ofText? {t : Text} {n : Numeral} (h : ofText? t = some n) : scan t = (n, []) := by
  unfold ofText? at h
  split at h
  · rename_i m hscan
    split at h
    · cases h
      exact hscan
    · cases h
  · cases h

/-- A numeral starts with the first digit of its whole part. -/
theorem Strict.isDigit_head {t : Text} {n : Numeral} (hn : n.Strict) (h : ofText? t = some n) :
    ∃ c rest, t = c :: rest ∧ c.isDigit = true := by
  obtain ⟨⟨c, rest, hwhole, -⟩, -⟩ := hn
  have htake : t.takeWhile CodeUnit.isDigit = c :: rest := by
    rw [← hwhole]
    exact congrArg (·.1.whole) (scan_of_ofText? h)
  cases t with
  | nil => cases htake
  | cons d t =>
    refine ⟨d, t, rfl, ?_⟩
    cases hd : d.isDigit with
    | true => rfl
    | false =>
      rw [List.takeWhile_cons, hd] at htake
      cases htake

end Numeral

namespace Number

/-- The numbers that are read back from JSON: finite, of the format, and not the negative zero. -/
def IsPlain : Number → Prop
  | finite negative m => OnGrid m ∧ 0 ≤ m ∧ m < overflowBound ∧ (m = 0 → negative = false)
  | _ => False

/-- A number whose magnitude, if it has one, the format can hold. -/
def InFormat : Number → Prop
  | finite _ m => OnGrid m ∧ 0 ≤ m ∧ m < overflowBound
  | _ => True

theorem inFormat_ofDecimal (negative : Bool) (d : Decimal) : (ofDecimal negative d).InFormat := by
  have hzero : OnGrid 0 ∧ (0 : ℚ) ≤ 0 ∧ 0 < overflowBound :=
    ⟨⟨0, 0, by decide, by decide, by simp⟩, le_refl 0, twoPow_pos 1024⟩
  unfold ofDecimal
  split
  · exact hzero
  · dsimp only
    split
    · trivial
    · split
      · exact hzero
      · unfold round
        split
        · trivial
        · rename_i hbound
          exact ⟨onGrid_nearest d.value_nonneg, nearest_nonneg d.value_nonneg, lt_of_not_ge hbound⟩

/-- A zero without its sign; other numbers stay as they are. -/
def unsignedZero : Number → Number
  | finite negative m => finite (negative && m ≠ 0) m
  | x => x

theorem toText_unsignedZero (x : Number) : x.unsignedZero.toText = x.toText := by
  cases x with
  | nan => rfl
  | infinite negative => rfl
  | finite negative m =>
    by_cases hm : m = 0
    · simp [unsignedZero, toText, hm]
    · simp [unsignedZero, hm]

theorem isPlain_unsignedZero {x : Number} (hfinite : x.isFinite = true) (h : x.InFormat) :
    x.unsignedZero.IsPlain := by
  match x, hfinite, h with
  | finite negative m, _, ⟨hgrid, hm, hbound⟩ => exact ⟨hgrid, hm, hbound, fun hzero => by simp [hzero]⟩

theorem unsignedZero_eq_self {x : Number} (h : x ≠ finite true 0) : x.unsignedZero = x := by
  cases x with
  | nan => rfl
  | infinite negative => rfl
  | finite negative m =>
    by_cases hm : m = 0
    · subst hm
      cases negative with
      | true => exact absurd rfl h
      | false => rfl
    · simp [unsignedZero, hm]

end Number

namespace Json

theorem hexDigit?_digitChar : ∀ n < 16, (CodeUnit.ofChar (Nat.digitChar n)).hexDigit? = some n := by
  decide

theorem hex4?_hexDigits (c : CodeUnit) (rest : Text) :
    hex4? (hexDigits 4 c.toNat ++ rest) = some (c, rest) := by
  have hc : c.toNat < 65536 := c.toNat_lt
  have hlow : ∀ n, (CodeUnit.ofChar (Nat.digitChar (n % 16))).hexDigit? = some (n % 16) := by
    intro n
    exact hexDigit?_digitChar _ (Nat.mod_lt n (by decide))
  have hvalue : ((c.toNat / 16 / 16 / 16 % 16 * 16 + c.toNat / 16 / 16 % 16) * 16 + c.toNat / 16 % 16) * 16 +
      c.toNat % 16 = c.toNat := by omega
  simp only [hexDigits, List.nil_append, List.cons_append, hex4?, hlow, hvalue]
  rw [Nat.toUInt16_eq, UInt16.ofNat_toNat]

/-- The three ways to write a unit that is not part of a surrogate pair. -/
theorem quotedUnit_cases (c : CodeUnit) :
    (∃ e, simpleEscape? e = some c ∧ e ≠ CodeUnit.ofChar 'u' ∧ e < 0x80 ∧
      quotedUnit c = [CodeUnit.ofChar '\\', e]) ∨
    quotedUnit c = unicodeEscape c ∨
    (quotedUnit c = [c] ∧ c ≠ CodeUnit.ofChar '"' ∧ c ≠ CodeUnit.ofChar '\\' ∧ ¬c < 0x20 ∧
      c.isHighSurrogate = false ∧ c.isLowSurrogate = false) := by
  rw [quotedUnit]
  by_cases hquote : c = CodeUnit.ofChar '"'
  · rw [if_pos hquote, hquote]
    exact Or.inl ⟨CodeUnit.ofChar '"', by decide⟩
  rw [if_neg hquote]
  by_cases hslash : c = CodeUnit.ofChar '\\'
  · rw [if_pos hslash, hslash]
    exact Or.inl ⟨CodeUnit.ofChar '\\', by decide⟩
  rw [if_neg hslash]
  by_cases hback : c = 8
  · rw [if_pos hback, hback]
    exact Or.inl ⟨CodeUnit.ofChar 'b', by decide⟩
  rw [if_neg hback]
  by_cases htab : c = 9
  · rw [if_pos htab, htab]
    exact Or.inl ⟨CodeUnit.ofChar 't', by decide⟩
  rw [if_neg htab]
  by_cases hline : c = 10
  · rw [if_pos hline, hline]
    exact Or.inl ⟨CodeUnit.ofChar 'n', by decide⟩
  rw [if_neg hline]
  by_cases hpage : c = 12
  · rw [if_pos hpage, hpage]
    exact Or.inl ⟨CodeUnit.ofChar 'f', by decide⟩
  rw [if_neg hpage]
  by_cases hreturn : c = 13
  · rw [if_pos hreturn, hreturn]
    exact Or.inl ⟨CodeUnit.ofChar 'r', by decide⟩
  rw [if_neg hreturn]
  split
  · exact Or.inr (Or.inl rfl)
  · rename_i hplain
    simp only [Bool.or_eq_true, decide_eq_true_eq, not_or, Bool.not_eq_true] at hplain
    exact Or.inr (Or.inr ⟨rfl, hquote, hslash, hplain.1.1, hplain.1.2, hplain.2⟩)

/-- A unit that stands for itself inside quotes. -/
theorem stringBody_plain {c : CodeUnit} (hquote : c ≠ CodeUnit.ofChar '"') (hslash : c ≠ CodeUnit.ofChar '\\')
    (hcontrol : ¬c < 0x20) (fuel : Nat) (rest : Text) :
    stringBody (fuel + 1) (c :: rest) = (stringBody fuel rest).map fun (body, rest) => (c :: body, rest) := by
  rw [stringBody.eq_def]
  dsimp only
  rw [if_neg hquote, if_neg hslash, if_neg hcontrol]

theorem stringBody_quotedUnit (c : CodeUnit) (fuel : Nat) (rest : Text) :
    stringBody (fuel + 1) (quotedUnit c ++ rest) =
      (stringBody fuel rest).map fun (body, rest) => (c :: body, rest) := by
  have hquote : CodeUnit.ofChar '\\' ≠ CodeUnit.ofChar '"' := by decide
  rcases quotedUnit_cases c with ⟨e, he, hu, -, heq⟩ | heq | ⟨heq, hc, hslash, hcontrol, -, -⟩
  · rw [heq, List.cons_append, List.cons_append, List.nil_append, stringBody, if_neg hquote, if_pos rfl]
    dsimp only
    rw [if_neg hu, he, Option.bind_some]
  · have hmark : Text.ofString "\\u" = [CodeUnit.ofChar '\\', CodeUnit.ofChar 'u'] := by decide
    rw [heq, unicodeEscape, hmark, List.append_assoc, List.cons_append, List.cons_append, List.nil_append,
      stringBody, if_neg hquote, if_pos rfl]
    dsimp only
    rw [if_pos rfl, hex4?_hexDigits, Option.bind_some]
  · rw [heq]
    exact stringBody_plain hc hslash hcontrol fuel rest

theorem length_quotedUnit_pos (c : CodeUnit) : 0 < (quotedUnit c).length := by
  rcases quotedUnit_cases c with ⟨e, -, -, -, heq⟩ | heq | ⟨heq, -⟩
  · rw [heq]
    exact Nat.zero_lt_succ _
  · rw [heq, unicodeEscape, List.length_append]
    exact Nat.lt_add_right _ (by decide)
  · rw [heq]
    exact Nat.zero_lt_succ _

/-- The halves of a pair are written as they are. -/
theorem plain_of_surrogate {c : CodeUnit} (h : c.isHighSurrogate = true ∨ c.isLowSurrogate = true) :
    c ≠ CodeUnit.ofChar '"' ∧ c ≠ CodeUnit.ofChar '\\' ∧ ¬c < 0x20 := by
  have hbound : 0xD800 ≤ c := by
    rcases h with h | h
    · simp only [CodeUnit.isHighSurrogate, Bool.and_eq_true, decide_eq_true_eq] at h
      exact h.1
    · simp only [CodeUnit.isLowSurrogate, Bool.and_eq_true, decide_eq_true_eq] at h
      exact UInt16.le_trans (by decide) h.1
  refine ⟨?_, ?_, ?_⟩
  · rintro rfl
    exact absurd hbound (by decide)
  · rintro rfl
    exact absurd hbound (by decide)
  · intro hlt
    exact absurd (UInt16.lt_of_le_of_lt hbound hlt) (by decide)

theorem stringBody_quotedUnits (t rest : Text) {fuel : Nat} (hfuel : (quotedUnits t).length < fuel) :
    stringBody fuel (quotedUnits t ++ CodeUnit.ofChar '"' :: rest) = some (t, rest) := by
  have hend : ∀ fuel, stringBody (fuel + 1) (CodeUnit.ofChar '"' :: rest) = some ([], rest) := by
    intro fuel
    rw [stringBody.eq_def]
    exact if_pos rfl
  fun_induction quotedUnits t generalizing fuel with
  | case1 =>
    obtain ⟨fuel, rfl⟩ := Nat.exists_eq_add_one_of_ne_zero (Nat.ne_of_gt hfuel)
    exact hend fuel
  | case2 c =>
    have hpos := length_quotedUnit_pos c
    obtain ⟨fuel, rfl⟩ : ∃ n, fuel = n + 1 + 1 := ⟨fuel - 2, by omega⟩
    rw [stringBody_quotedUnit, hend]
    rfl
  | case3 c d more hpair ih =>
    rw [Bool.and_eq_true] at hpair
    obtain ⟨hc, hc', hc''⟩ := plain_of_surrogate (Or.inl hpair.1)
    obtain ⟨hd, hd', hd''⟩ := plain_of_surrogate (Or.inr hpair.2)
    rw [List.length_cons, List.length_cons] at hfuel
    obtain ⟨fuel, rfl⟩ : ∃ n, fuel = n + 1 + 1 := ⟨fuel - 2, by omega⟩
    rw [List.cons_append, List.cons_append, stringBody_plain hc hc' hc'', stringBody_plain hd hd' hd'',
      ih (by omega)]
    rfl
  | case4 c d more hpair ih =>
    have hpos := length_quotedUnit_pos c
    rw [List.length_append] at hfuel
    obtain ⟨fuel, rfl⟩ : ∃ n, fuel = n + 1 := ⟨fuel - 1, by omega⟩
    rw [List.append_assoc, stringBody_quotedUnit, ih (by omega)]
    rfl

theorem if_strict {α : Type} {n : Numeral} (h : n.Strict) (a : α) :
    (if (match n.whole with
        | [] => false
        | [_] => true
        | c :: _ => decide (c ≠ CodeUnit.ofChar '0')) && decide (n.fraction ≠ some []) then some a else none) =
      some a := by
  obtain ⟨⟨c, ds, hwhole, hzero⟩, hfraction⟩ := h
  rw [hwhole, decide_eq_true hfraction]
  cases ds with
  | nil => rfl
  | cons e ds =>
    have hc := hzero (List.cons_ne_nil e ds)
    exact if_pos (by simp [hc])

theorem numberAt_signed {t : Text} {n : Numeral} (hn : Numeral.ofText? t = some n) (hstrict : n.Strict)
    (negative : Bool) {rest : Text} (h : Numeral.Stops rest) :
    numberAt ((if negative then [CodeUnit.ofChar '-'] else []) ++ t ++ rest) =
      some (Number.ofDecimal negative n.toDecimal, rest) := by
  have hscan : Numeral.scan (t ++ rest) = (n, rest) := by
    rw [Numeral.scan_append h, Numeral.scan_of_ofText? hn]
    rfl
  obtain ⟨d, more, rfl, hd⟩ := hstrict.isDigit_head hn
  have hminus : d ≠ CodeUnit.ofChar '-' := by
    rintro rfl
    exact absurd hd (by decide)
  cases negative with
  | true =>
    rw [if_pos rfl, List.singleton_append, List.cons_append]
    unfold numberAt
    simp only [if_true, hscan]
    exact if_strict hstrict _
  | false =>
    rw [if_neg Bool.false_ne_true, List.nil_append]
    unfold numberAt
    simp only [List.cons_append, if_neg hminus] at hscan ⊢
    simp only [hscan]
    exact if_strict hstrict _

theorem numberAt_toText {x : Number} (hx : x.IsPlain) {rest : Text} (h : Numeral.Stops rest) :
    numberAt (x.toText ++ rest) = some (x, rest) := by
  match x, hx with
  | .finite negative m, ⟨hgrid, hm, hbound, hsign⟩ =>
    by_cases hzero : m = 0
    · have hn : Numeral.ofText? "0" = some ⟨"0", none, none⟩ := by decide
      have hstrict : Numeral.Strict ⟨"0", none, none⟩ :=
        ⟨⟨CodeUnit.ofChar '0', [], by decide, fun hne => absurd rfl hne⟩, nofun⟩
      have hread := numberAt_signed hn hstrict false h
      rw [hsign hzero, hzero, Number.toText, if_pos rfl]
      exact hread
    · have hpos : 0 < m := lt_of_le_of_ne hm (Ne.symm hzero)
      obtain ⟨n, hn, hnearest, hstrict⟩ := Number.ofText?_magnitudeText hpos hgrid
      have hread := numberAt_signed hn hstrict negative h
      have hsigned : (Number.finite negative m).toText =
          (if negative then [CodeUnit.ofChar '-'] else []) ++ Number.magnitudeText m := by
        rw [Number.toText, if_neg hzero]
        cases negative <;> rfl
      rw [hsigned, hread, Number.ofDecimal_eq hnearest hpos hbound]

theorem inFormat_of_numberAt {t rest : Text} {x : Number} (h : numberAt t = some (x, rest)) : x.InFormat := by
  unfold numberAt at h
  obtain ⟨-, h⟩ := Option.ite_none_right_eq_some.1 h
  cases h
  exact Number.inFormat_ofDecimal _ _

/-- A number in JSON starts with a sign or a digit. -/
theorem head_toText {x : Number} (hx : x.IsPlain) :
    ∃ c rest, x.toText = c :: rest ∧ (c = CodeUnit.ofChar '-' ∨ c.isDigit = true) := by
  match x, hx with
  | .finite negative m, ⟨hgrid, hm, _, _⟩ =>
    rw [Number.toText]
    split
    · exact ⟨CodeUnit.ofChar '0', [], by decide, Or.inr (by decide)⟩
    · rename_i hzero
      obtain ⟨n, hn, -, hstrict⟩ := Number.ofText?_magnitudeText (lt_of_le_of_ne hm (Ne.symm hzero)) hgrid
      obtain ⟨c, rest, heq, hc⟩ := hstrict.isDigit_head hn
      cases negative with
      | true => exact ⟨CodeUnit.ofChar '-', Number.magnitudeText m, rfl, Or.inl rfl⟩
      | false => exact ⟨c, rest, heq, Or.inr hc⟩

end Json
end QueryLint
