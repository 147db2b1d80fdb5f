import QueryLint.Proofs.Delimiter.Scanning

/-!
The scanner accepts the balanced texts.

A nested word leaves the stack as it finds it. The other way round, a word that fits a stack and
leaves nothing of it is cut by the closing signs of the stack into nested words, one for each
bracket and one behind the last.
-/

namespace QueryLint
set_option autoImplicit false

namespace Delimiter

/-- A bracket of the stack, as an error text shows what it reads there. -/
def shown (unit : Bracket → CodeUnit) : Option Bracket → Text
  | some bracket => [unit bracket]
  | none => "undefined"

/-- The error text that the stack gives: at the first closing bracket that is not of the innermost
bracket's kind, or at the end of the text. -/
def Reports (t message : Text) : Prop :=
  (∃ (u : Text) (found : Bracket), u ++ [found.closing] <+: t ∧ shadeBehind u = .bare ∧ Matched u ∧
    (stackBehind u).head? ≠ some found ∧
    message = "Mismatched delimiter: expected '" ++ shown Bracket.closing (stackBehind u).head? ++
      "' but found '" ++ [found.closing] ++ "'") ∨
  message = "Unclosed '" ++ shown Bracket.opening (stackBehind t).head? ++ "'"

/-- What a scanner of balanced texts says of a text that opens with a bracket. -/
structure Recognises (t : Text) (e : Extent) : Prop where
  sound_iff : e.fault = none ↔ ∃ w, w <+: t ∧ Balanced w
  ends : ∀ w, w <+: t → Balanced w → e.length = w.length
  inside : 0 < e.length ∧ e.length ≤ t.length
  /-- The stack is empty behind the payload, or nowhere behind its first unit. -/
  stack : ∀ u, u <+: t → u ≠ [] →
    u.length < e.length ∨ stackBehind (t.take e.length) ≠ [] → stackBehind u ≠ []
  text : ∀ fault, e.fault = some fault →
    Reports t fault.message ∧ ¬("undefined" : Text) <:+: fault.message

theorem Nested.fits {ss : List Sign} (h : Nested ss) :
    ∀ stack, Fits stack ss ∧ ss.foldl Sign.act stack = stack := by
  induction h with
  | nil => exact fun stack => ⟨trivial, rfl⟩
  | around bracket _ _ inner outer =>
    intro stack
    obtain ⟨hinner, hback⟩ := inner (bracket :: stack)
    obtain ⟨houter, hrest⟩ := outer stack
    constructor
    · apply (fits_append (bracket :: stack) _ _).mpr
      rw [hback]
      exact ⟨hinner, rfl, houter⟩
    · rw [List.foldl_cons, List.foldl_append, Sign.act, hback]
      exact hrest

/-- A word that closes the brackets of a stack one after the other. -/
def Unwinds : List Bracket → List Sign → Prop
  | [], ss => Nested ss
  | top :: stack, ss => ∃ us vs, Nested us ∧ ss = us ++ .closing top :: vs ∧ Unwinds stack vs

theorem Unwinds.around {bracket : Bracket} {us vs : List Sign} (hu : Nested us) :
    ∀ stack, Unwinds stack vs → Unwinds stack (.opening bracket :: (us ++ .closing bracket :: vs)) := by
  intro stack hv
  cases stack with
  | nil => exact Nested.around bracket hu hv
  | cons top stack =>
    obtain ⟨ws, xs, hw, rfl, hx⟩ := hv
    exact ⟨_, xs, Nested.around bracket hu hw, by simp, hx⟩

theorem unwinds_of_fits {stack : List Bracket} {ss : List Sign} (h : Fits stack ss)
    (hend : ss.foldl Sign.act stack = []) : Unwinds stack ss := by
  induction ss generalizing stack with
  | nil =>
    obtain rfl : stack = [] := hend
    exact .nil
  | cons s ss ih =>
    cases s with
    | opening bracket =>
      have hinner : Unwinds (bracket :: stack) ss := ih h hend
      obtain ⟨us, vs, hu, rfl, hv⟩ := hinner
      exact .around hu stack hv
    | closing bracket =>
      cases stack with
      | nil => exact absurd h id
      | cons top stack =>
        obtain ⟨rfl, h⟩ := h
        exact ⟨[], ss, .nil, rfl, ih h hend⟩

theorem nested_iff {ss : List Sign} : Nested ss ↔ Fits [] ss ∧ ss.foldl Sign.act [] = [] := by
  constructor
  · intro h
    exact h.fits []
  · rintro ⟨h, hend⟩
    exact unwinds_of_fits h hend

theorem nested_signs_iff {t : Text} : Nested (signs .bare t) ↔ Matched t ∧ stackBehind t = [] :=
  nested_iff

theorem depth_eq_zero {t : Text} : depth t = 0 ↔ stackBehind t = [] :=
  List.length_eq_zero_iff

theorem FirstMismatch.not_matched {t : Text} {offset : Nat} {fault : Fault}
    (h : FirstMismatch t offset fault) : ¬Matched t := by
  obtain ⟨u, v, expected, found, below, rfl, -, hu, -, hstack, hne, -⟩ := h
  intro hm
  have hprefix : u ++ [found.closing] <+: u ++ found.closing :: v := ⟨v, by simp⟩
  obtain ⟨-, hfits⟩ := (matched_concat_some (sign?_closing hu found)).mp (fits_of_isPrefix hprefix hm)
  rw [hstack] at hfits
  exact hne hfits.1

theorem Noted.eq_none_iff {t : Text} {noted : Option (Nat × Fault)} (h : Noted t noted) :
    noted = none ↔ Matched t := by
  cases noted with
  | none => exact ⟨fun _ => h, fun _ => rfl⟩
  | some seen => exact ⟨fun hn => absurd hn (by simp), fun hm => absurd hm (FirstMismatch.not_matched h)⟩

theorem Busy.not_balanced {t w : Text} (h : Busy t) (hw : w <+: t) : ¬Balanced w := fun hb =>
  h w hw hb.nonempty (nested_signs_iff.mp hb.nested).2

/-- A text that is busy up to its last unit and closes with it. -/
theorem balanced_iff_matched {u : Text} {c : CodeUnit} (hu : Busy u)
    (hstack : stackBehind (u ++ [c]) = []) : Balanced (u ++ [c]) ↔ Matched (u ++ [c]) := by
  constructor
  · exact fun h => (nested_signs_iff.mp h.nested).1
  · intro h
    refine ⟨by simp, nested_signs_iff.mpr ⟨h, hstack⟩, fun w hw => ?_⟩
    rw [depth_eq_zero]
    constructor
    · intro hempty
      obtain rfl | hw := List.prefix_concat_iff.mp hw
      · exact .inr rfl
      · exact .inl (by_contra fun hne => hu w hw hne hempty)
    · rintro (rfl | rfl)
      · rfl
      · exact hstack

theorem Balanced.eq_of_busy {t u w : Text} {c : CodeUnit} (hb : Balanced w) (hw : w <+: t)
    (ht : u ++ [c] <+: t) (hu : Busy u) (hstack : stackBehind (u ++ [c]) = []) : w = u ++ [c] := by
  obtain h | h := List.prefix_or_prefix_of_prefix hw ht
  · obtain rfl | h := List.prefix_concat_iff.mp h
    · rfl
    · exact absurd hb (hu.not_balanced h)
  · obtain h | h := (hb.returns _ h).mp (depth_eq_zero.mpr hstack)
    · exact absurd h (by simp)
    · exact h.symm

theorem FirstMismatch.reports {t u : Text} {offset : Nat} {fault : Fault}
    (h : FirstMismatch u offset fault) (hu : u <+: t) : Reports t fault.message := by
  obtain ⟨w, v, expected, found, below, rfl, -, hshade, hm, hstack, hne, rfl⟩ := h
  refine .inl ⟨w, found, List.IsPrefix.trans ⟨v, by simp⟩ hu, hshade, hm, ?_, ?_⟩
  · rw [hstack]
    exact fun h => hne (Option.some.inj h).symm
  · rw [hstack]
    rfl

theorem Fault.message_defined (fault : Fault) : ¬("undefined" : Text) <:+: fault.message := by
  cases fault with
  | mismatched expected found => cases expected <;> cases found <;> decide +kernel
  | unclosed bracket => cases bracket <;> decide +kernel

section
variable {startsCommand : Text → Bool} {t : Text}

theorem Stands.ne_nil {s : Scan} (h : Stands startsCommand t t s) : t ≠ [] := by
  rintro rfl
  cases h.stack

/-- A text that opens with a bracket does not break its line there. -/
theorem CommandBreak.pos {offset : Nat} (h : CommandBreak startsCommand t offset) (ht : Busy t) :
    0 < offset := by
  obtain ⟨w, line, rfl, rfl, -, -⟩ := h
  apply List.length_pos_iff.mpr
  rintro rfl
  exact ht [('\n' : CodeUnit)] (List.prefix_append ..) (by simp) rfl

theorem Stands.unfinished_length {s : Scan} (h : Stands startsCommand t t s) :
    0 < (s.unfinished t.length).length ∧ (s.unfinished t.length).length ≤ t.length := by
  rw [Scan.unfinished_length]
  have hb := h.boundary
  cases hs : s.boundary with
  | none => exact ⟨List.length_pos_iff.mpr h.ne_nil, Nat.le_refl _⟩
  | some offset =>
    rw [hs] at hb
    exact ⟨hb.2.1.pos h.busy, Nat.le_of_lt hb.1⟩

theorem Stands.recognises {s : Scan} (h : Stands startsCommand t t s) :
    Recognises t (s.unfinished t.length) where
  sound_iff := by
    constructor
    · intro hnone
      obtain hf | ⟨offset, fault, -, hf⟩ := s.unfinished_reports t.length
      · rw [hf] at hnone
        cases hnone
      · rw [hf] at hnone
        cases hnone
    · rintro ⟨w, hw, hb⟩
      exact absurd hb (h.busy.not_balanced hw)
  ends := fun w hw hb => absurd hb (h.busy.not_balanced hw)
  inside := h.unfinished_length
  stack := fun u hu hne _ => h.busy u hu hne
  text := by
    intro fault hfault
    refine ⟨?_, fault.message_defined⟩
    obtain hf | ⟨offset, noted, hs, hf⟩ := s.unfinished_reports t.length
    · obtain rfl := Option.some.inj (hfault.symm.trans hf)
      apply Or.inr
      rw [h.stack]
      rfl
    · obtain rfl := Option.some.inj (hfault.symm.trans hf)
      have hm := h.mismatch
      rw [hs] at hm
      exact FirstMismatch.reports hm (List.prefix_refl t)

theorem recognises_of_closed {u rest : Text} {c : CodeUnit} {noted : Option (Nat × Fault)}
    (hu : Busy u) (hstack : stackBehind (u ++ [c]) = []) (hm : Noted (u ++ [c]) noted) :
    Recognises (u ++ c :: rest) ⟨u.length + 1, noted.map (·.2)⟩ := by
  have hprefix : u ++ [c] <+: u ++ c :: rest := ⟨rest, by simp⟩
  have hlength : (u ++ [c]).length = u.length + 1 := List.length_append
  have htake : (u ++ c :: rest).take (u.length + 1) = u ++ [c] := by
    rw [← hlength, List.append_cons u c rest, List.take_left]
  constructor
  case sound_iff =>
    rw [Option.map_eq_none_iff, hm.eq_none_iff, ← balanced_iff_matched hu hstack]
    constructor
    · exact fun hb => ⟨u ++ [c], hprefix, hb⟩
    · rintro ⟨w, hw, hb⟩
      obtain rfl := hb.eq_of_busy hw hprefix hu hstack
      exact hb
  case ends =>
    intro w hw hb
    obtain rfl := hb.eq_of_busy hw hprefix hu hstack
    exact hlength.symm
  case inside =>
    refine ⟨Nat.succ_pos _, ?_⟩
    rw [← hlength]
    exact hprefix.length_le
  case stack =>
    rw [htake]
    rintro w hw hne (hlt | h)
    · have hwu : w <+: u := List.prefix_of_prefix_length_le hw (List.prefix_append ..) (Nat.le_of_lt_succ hlt)
      exact hu w hwu hne
    · exact absurd hstack h
  case text =>
    intro fault hfault
    refine ⟨?_, fault.message_defined⟩
    cases noted with
    | none => cases hfault
    | some seen =>
      obtain rfl := Option.some.inj hfault
      exact FirstMismatch.reports hm hprefix

theorem Outcome.recognises {e : Extent} (h : Outcome startsCommand t e) : Recognises t e := by
  cases h with
  | closed text _ busy stack mismatch =>
    rw [text]
    exact recognises_of_closed busy stack mismatch
  | unclosed stands => exact stands.recognises

end

/-- From a bracket on, the scanner finds the balanced payload if there is one, and says so. -/
theorem extent_recognises (startsCommand : Text → Bool) (text : Text) (p : Nat) (bracket : Bracket)
    (hp : text[p]? = some bracket.opening) :
    Recognises (text.drop p) (extent startsCommand bracket (text.drop (p + 1))) := by
  obtain ⟨hlt, hget⟩ := List.getElem?_eq_some_iff.mp hp
  rw [List.drop_eq_getElem_cons hlt, hget]
  exact (extent_outcome startsCommand bracket _).recognises

theorem extent_recognises_list : ("A [x] y" : Text)[2]? = some Bracket.square.opening ∧
    Recognises "[x] y" (extent (fun _ => false) .square "x] y") :=
  ⟨by decide, extent_recognises (fun _ => false) "A [x] y" 2 .square (by decide)⟩

end Delimiter
end QueryLint
