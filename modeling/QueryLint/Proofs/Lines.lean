import Mathlib.Data.List.TakeWhile
import QueryLint.Token

/-!
Lines of a text.

What is cut from a text up to the end of a line does not depend on what follows the line: the
units that a scan stops at include the line break.
-/

namespace QueryLint
set_option autoImplicit false

/-- The text is at the end of a line: nothing is left, or a line break is next. -/
def EndsLine (v : Text) : Prop := ∀ c ∈ v.head?, c = CodeUnit.ofChar '\n'

namespace EndsLine

theorem nil : EndsLine [] := by simp [EndsLine]

theorem lineBreak (v : Text) : EndsLine (('\n' : CodeUnit) :: v) := by simp [EndsLine]

theorem cases {v : Text} (h : EndsLine v) : v = [] ∨ ∃ u : Text, v = ('\n' : CodeUnit) :: u := by
  cases v with
  | nil => exact .inl rfl
  | cons c u => exact .inr ⟨u, by rw [h c rfl]⟩

section Scans
variable {v : Text} (h : EndsLine v) {p : CodeUnit → Bool} (hp : p (CodeUnit.ofChar '\n') = false)
include h hp

theorem takeWhile_append (w : Text) : (w ++ v).takeWhile p = w.takeWhile p := by
  induction w with
  | nil => rcases h.cases with rfl | ⟨u, rfl⟩ <;> simp [hp]
  | cons c w ih => simp [List.takeWhile_cons, ih]

theorem dropWhile_append (w : Text) : (w ++ v).dropWhile p = w.dropWhile p ++ v := by
  induction w with
  | nil => rcases h.cases with rfl | ⟨u, rfl⟩ <;> simp [hp]
  | cons c w ih =>
    simp only [List.cons_append, List.dropWhile_cons, ih]
    split <;> rfl

end Scans

theorem firstLine_append {v : Text} (h : EndsLine v) (w : Text) :
    Text.firstLine (w ++ v) = Text.firstLine w :=
  h.takeWhile_append (by simp) w

/-- A lead without a line break is found in the line or not at all. -/
theorem startsWith_append {v lead : Text} (h : EndsLine v) (hlead : CodeUnit.ofChar '\n' ∉ lead)
    (w : Text) : Text.startsWith (w ++ v) lead = Text.startsWith w lead := by
  unfold Text.startsWith
  induction lead generalizing w with
  | nil => simp
  | cons d lead ih =>
    rw [List.mem_cons, not_or] at hlead
    cases w with
    | nil =>
      rcases h.cases with rfl | ⟨u, rfl⟩
      · rfl
      · simp [List.isPrefixOf, Ne.symm hlead.1]
    | cons c w => simp [List.isPrefixOf, ih hlead.2]

end EndsLine

namespace Text

theorem firstLine_append_rest (t : Text) : ∃ v, t = firstLine t ++ v ∧ EndsLine v := by
  induction t with
  | nil => exact ⟨[], rfl, .nil⟩
  | cons c t ih =>
    by_cases hc : c = CodeUnit.ofChar '\n'
    · subst hc
      exact ⟨_, by simp [firstLine], .lineBreak t⟩
    · obtain ⟨v, hv, hends⟩ := ih
      refine ⟨v, ?_, hends⟩
      have hline : firstLine (c :: t) = c :: firstLine t := by simp [firstLine, hc]
      rw [hline, List.cons_append, ← hv]

theorem firstLine_free (t : Text) : CodeUnit.ofChar '\n' ∉ firstLine t := by
  intro h
  simpa using List.mem_takeWhile_imp h

theorem firstLine_eq_self {t : Text} (h : CodeUnit.ofChar '\n' ∉ t) : firstLine t = t :=
  List.takeWhile_eq_self_iff.2 fun c hc => by
    simp only [decide_eq_true_eq]
    rintro rfl
    exact h hc

/-- What is left when the white space at the end has been dropped. -/
theorem trimEnd_append_rest (t : Text) :
    ∃ spaces, t = trimEnd t ++ spaces ∧ ∀ c ∈ spaces, CodeUnit.isSpace c := by
  induction t with
  | nil => exact ⟨[], rfl, by simp⟩
  | cons c t ih =>
    obtain ⟨spaces, ht, hspaces⟩ := ih
    unfold trimEnd
    split
    · rename_i hnil
      rw [hnil, List.nil_append] at ht
      split
      · rename_i hc
        refine ⟨c :: t, rfl, ?_⟩
        intro d hd
        rcases List.mem_cons.1 hd with rfl | hd
        · exact hc
        · exact hspaces d (ht ▸ hd)
      · exact ⟨spaces, by rw [← ht]; rfl, hspaces⟩
    · exact ⟨spaces, by rw [List.cons_append, ← ht], hspaces⟩

theorem trimEnd_concat {t : Text} {c : CodeUnit} (hc : c.isSpace = false) :
    trimEnd (t ++ [c]) = t ++ [c] := by
  induction t with
  | nil => simp [trimEnd, hc]
  | cons d t ih =>
    rw [List.cons_append, trimEnd, ih]
    cases t <;> simp

theorem trimEnd_eq_self {t : Text} (h : ∀ c ∈ t, CodeUnit.isSpace c = false) : trimEnd t = t := by
  rcases List.eq_nil_or_concat t with rfl | ⟨w, c, rfl⟩
  · rfl
  · rw [List.concat_eq_append] at h ⊢
    exact trimEnd_concat (h c (by simp))

theorem trim_eq_self {t : Text} (h : ∀ c ∈ t, CodeUnit.isSpace c = false) : trim t = t := by
  have hstart : trimStart t = t := List.dropWhile_eq_self_iff.2 fun hne => by simp [h _ (List.getElem_mem hne)]
  rw [trim, hstart, trimEnd_eq_self h]

/-- A trimmed text is empty or ends in a unit that is no white space. -/
theorem trimEnd_end (t : Text) :
    trimEnd t = [] ∨ ∃ w c, trimEnd t = w ++ [c] ∧ CodeUnit.isSpace c = false := by
  induction t with
  | nil => exact .inl rfl
  | cons c t ih =>
    unfold trimEnd
    split
    · cases hc : c.isSpace with
      | true => exact .inl rfl
      | false => exact .inr ⟨[], c, rfl, hc⟩
    · rename_i hne
      rcases ih with hnil | ⟨w, d, hw, hd⟩
      · exact absurd hnil hne
      · exact .inr ⟨c :: w, d, by rw [hw, List.cons_append], hd⟩

end Text
end QueryLint
