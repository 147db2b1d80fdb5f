import QueryLint.Proofs.Json.RoundTrip

/-!
Documents keep their units when they are stored: the printer escapes every half of a surrogate pair that
stands alone, and a text without such halves is well-formed already.
-/

namespace QueryLint
set_option autoImplicit false

theorem CodeUnit.isHighSurrogate_iff (c : CodeUnit) :
    c.isHighSurrogate = true ↔ 0xD800 ≤ c.toNat ∧ c.toNat ≤ 0xDBFF := by
  simp [CodeUnit.isHighSurrogate, UInt16.le_iff_toNat_le]

theorem CodeUnit.isLowSurrogate_iff (c : CodeUnit) :
    c.isLowSurrogate = true ↔ 0xDC00 ≤ c.toNat ∧ c.toNat ≤ 0xDFFF := by
  simp [CodeUnit.isLowSurrogate, UInt16.le_iff_toNat_le]

namespace Text

/-- Every half of a surrogate pair stands with its other half. -/
inductive Paired : Text → Prop where
  | nil : Paired []
  | single {c : CodeUnit} {t : Text} : c.isHighSurrogate = false → c.isLowSurrogate = false → Paired t →
      Paired (c :: t)
  | pair {c d : CodeUnit} {t : Text} : c.isHighSurrogate = true → d.isLowSurrogate = true → Paired t →
      Paired (c :: d :: t)

theorem Paired.append {t u : Text} (ht : Paired t) (hu : Paired u) : Paired (t ++ u) := by
  induction ht with
  | nil => exact hu
  | single hhigh hlow _ ih => exact .single hhigh hlow ih
  | pair hhigh hlow _ ih => exact .pair hhigh hlow ih

theorem paired_of_lt {t : Text} (h : ∀ c ∈ t, c.toNat < 0xD800) : Paired t := by
  induction t with
  | nil => exact .nil
  | cons c t ih =>
    have hc := h c List.mem_cons_self
    refine .single ?_ ?_ (ih fun d hd => h d (List.mem_cons_of_mem _ hd))
    · rw [Bool.eq_false_iff, ne_eq, CodeUnit.isHighSurrogate_iff]
      omega
    · rw [Bool.eq_false_iff, ne_eq, CodeUnit.isLowSurrogate_iff]
      omega

theorem scalars_cons {c : CodeUnit} (hc : c.isHighSurrogate = false) (t : Text) :
    scalars (c :: t) = c.toNat :: scalars t := by
  cases t with
  | nil => rfl
  | cons d t => simp [scalars, hc]

/-- A unit outside of pairs is a character of its own. -/
theorem ofScalar_single {c : CodeUnit} (hhigh : c.isHighSurrogate = false) (hlow : c.isLowSurrogate = false) :
    c.toNat.isValidChar ∧ CodeUnit.ofScalar c.toNat = [c] := by
  have hc := c.toNat_lt
  rw [Bool.eq_false_iff, ne_eq, CodeUnit.isHighSurrogate_iff] at hhigh
  rw [Bool.eq_false_iff, ne_eq, CodeUnit.isLowSurrogate_iff] at hlow
  constructor
  · unfold Nat.isValidChar
    omega
  · rw [CodeUnit.ofScalar, if_pos hc, Nat.toUInt16_eq, UInt16.ofNat_toNat]

/-- The two halves of a pair make one character. -/
theorem ofScalar_pair {c d : CodeUnit} (hc : c.isHighSurrogate = true) (hd : d.isLowSurrogate = true) :
    (0x10000 + (c.toNat - 0xD800) * 0x400 + (d.toNat - 0xDC00)).isValidChar ∧
      CodeUnit.ofScalar (0x10000 + (c.toNat - 0xD800) * 0x400 + (d.toNat - 0xDC00)) = [c, d] := by
  rw [CodeUnit.isHighSurrogate_iff] at hc
  rw [CodeUnit.isLowSurrogate_iff] at hd
  constructor
  · unfold Nat.isValidChar
    omega
  · have hfirst : 0xD800 + (0x10000 + (c.toNat - 0xD800) * 0x400 + (d.toNat - 0xDC00) - 0x10000) / 0x400 = c.toNat := by
      omega
    have hsecond :
        0xDC00 + (0x10000 + (c.toNat - 0xD800) * 0x400 + (d.toNat - 0xDC00) - 0x10000) % 0x400 = d.toNat := by
      omega
    rw [CodeUnit.ofScalar, if_neg (by omega), hfirst, hsecond, Nat.toUInt16_eq, Nat.toUInt16_eq, UInt16.ofNat_toNat,
      UInt16.ofNat_toNat]

theorem wellFormed_of_paired {t : Text} (h : Paired t) : wellFormed t = t := by
  induction h with
  | nil => rfl
  | @single c t hhigh hlow _ ih =>
    obtain ⟨hvalid, hunit⟩ := ofScalar_single hhigh hlow
    rw [wellFormed, scalars_cons hhigh, List.map_cons, if_pos hvalid, ofScalars, List.flatMap_cons, hunit]
    exact congrArg (c :: ·) ih
  | @pair c d t hhigh hlow _ ih =>
    obtain ⟨hvalid, hunits⟩ := ofScalar_pair hhigh hlow
    rw [wellFormed, scalars, hhigh, hlow, Bool.and_self, if_pos rfl, List.map_cons, if_pos hvalid, ofScalars,
      List.flatMap_cons, hunits]
    exact congrArg (fun u => c :: d :: u) ih

theorem paired_join {sep : Text} (hsep : Paired sep) {ts : List Text} (hts : ∀ t ∈ ts, Paired t) :
    Paired (join sep ts) := by
  cases ts with
  | nil => exact .nil
  | cons t ts =>
    rw [join_cons]
    refine (hts t List.mem_cons_self).append ?_
    have hrest : ∀ u ∈ ts, Paired u := fun u hu => hts u (List.mem_cons_of_mem _ hu)
    clear hts
    induction ts with
    | nil => exact .nil
    | cons u ts ih =>
      rw [List.flatMap_cons]
      exact (hsep.append (hrest u List.mem_cons_self)).append
        (ih fun v hv => hrest v (List.mem_cons_of_mem _ hv))

end Text

namespace Json

theorem paired_hexDigits (width n : Nat) : Text.Paired (hexDigits width n) := by
  have hdigit : ∀ k < 16, (CodeUnit.ofChar (Nat.digitChar k)).toNat < 0xD800 := by decide
  induction width generalizing n with
  | zero => exact .nil
  | succ width ih =>
    refine (ih (n / 16)).append (Text.paired_of_lt ?_)
    intro c hc
    rw [List.mem_singleton.1 hc]
    exact hdigit _ (Nat.mod_lt n (by decide))

theorem paired_quotedUnit (c : CodeUnit) : Text.Paired (quotedUnit c) := by
  rcases quotedUnit_cases c with ⟨e, -, -, he, heq⟩ | heq | ⟨heq, -, -, -, hhigh, hlow⟩
  · rw [heq]
    have hlt : e.toNat < 0x80 := UInt16.lt_iff_toNat_lt.1 he
    have hslash : (CodeUnit.ofChar '\\').toNat < 0xD800 := by decide
    apply Text.paired_of_lt
    intro d hd
    simp only [List.mem_cons, List.not_mem_nil, or_false] at hd
    rcases hd with rfl | rfl
    · exact hslash
    · omega
  · rw [heq]
    exact (Text.paired_of_lt (by decide)).append (paired_hexDigits 4 _)
  · rw [heq]
    exact .single hhigh hlow .nil

theorem paired_quotedUnits (t : Text) : Text.Paired (quotedUnits t) := by
  fun_induction quotedUnits t with
  | case1 => exact .nil
  | case2 c => exact paired_quotedUnit c
  | case3 c d rest hpair ih =>
    rw [Bool.and_eq_true] at hpair
    exact .pair hpair.1 hpair.2 ih
  | case4 c d rest _ ih => exact (paired_quotedUnit c).append ih

theorem paired_quoted (t : Text) : Text.Paired (quoted t) :=
  ((Text.paired_of_lt (by decide)).append (paired_quotedUnits t)).append (Text.paired_of_lt (by decide))

theorem paired_toText (x : Number) : Text.Paired x.toText := by
  apply Text.paired_of_lt
  intro c hc
  have hunit := Number.isNumeric_toText x c hc
  have hupper : (CodeUnit.ofChar 'Z').toNat = 90 := by decide
  have hlower : (CodeUnit.ofChar 'z').toNat = 122 := by decide
  simp only [CodeUnit.isNumberUnit, CodeUnit.isLetter, CodeUnit.isUpper, CodeUnit.isLower, Bool.or_eq_true,
    Bool.and_eq_true, decide_eq_true_eq, CodeUnit.isDigit_iff, UInt16.le_iff_toNat_le, hupper, hlower] at hunit
  rcases hunit with (((hdigit | hletter) | rfl) | rfl) | rfl
  · omega
  · omega
  · decide
  · decide
  · decide

theorem paired_breakAt (depth : Nat) : Text.Paired (breakAt depth) := by
  apply Text.paired_of_lt
  intro c hc
  rcases List.mem_append.1 hc with hc | hc
  · rw [List.mem_singleton.1 hc]
    decide
  · rw [List.eq_of_mem_replicate hc]
    decide

theorem paired_enclose {opening closing : Text} (hopening : Text.Paired opening) (hclosing : Text.Paired closing)
    (depth : Nat) {items : List Text} (hitems : ∀ t ∈ items, Text.Paired t) :
    Text.Paired (enclose opening closing depth items) := by
  have hcomma : Text.Paired (Text.ofString ",") := Text.paired_of_lt (by decide)
  unfold enclose
  split
  · exact hopening.append hclosing
  · exact (((hopening.append (paired_breakAt _)).append
      (Text.paired_join (hcomma.append (paired_breakAt _)) hitems)).append (paired_breakAt _)).append hclosing

theorem IsPlain.paired {j : Json} (hj : j.IsPlain) (depth : Nat) : Text.Paired (indented depth j) := by
  induction hj generalizing depth with
  | null =>
    change Text.Paired (Text.ofString "null")
    exact Text.paired_of_lt (by decide)
  | bool value =>
    have hwords : ∀ b : Bool, ∀ c ∈ (if b then Text.ofString "true" else Text.ofString "false"), c.toNat < 0xD800 := by
      decide
    exact Text.paired_of_lt (hwords value)
  | number hx =>
    rw [indented, numberText_of_isPlain hx]
    exact paired_toText _
  | text value => exact paired_quoted value
  | array _ ih =>
    refine paired_enclose (Text.paired_of_lt (by decide)) (Text.paired_of_lt (by decide)) depth ?_
    rw [indentedItems_eq]
    intro t ht
    obtain ⟨item, hitem, rfl⟩ := List.mem_map.1 ht
    exact ih item hitem (depth + 1)
  | object _ _ _ ih =>
    refine paired_enclose (Text.paired_of_lt (by decide)) (Text.paired_of_lt (by decide)) depth ?_
    rw [indentedMembers_eq]
    intro t ht
    obtain ⟨member, hmember, rfl⟩ := List.mem_map.1 ht
    exact ((paired_quoted member.1).append (Text.paired_of_lt (by decide))).append (ih member hmember (depth + 1))

theorem read_stored {j : Json} (hj : j.IsPlain) : read (Text.wellFormed j.document) = some j := by
  have hpaired : Text.Paired j.document := (hj.paired 0).append (Text.paired_of_lt (by decide))
  rw [Text.wellFormed_of_paired hpaired]
  exact read_document hj

end Json
end QueryLint
