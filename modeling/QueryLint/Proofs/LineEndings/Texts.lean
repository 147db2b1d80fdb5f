import QueryLint.Proofs.Boundaries

/-!
Texts with either kind of line ending.

A line may end in LF or in CR LF. A text with LF is unambiguous if it has no CR and no backslash
before an LF, as a backslash would hide the CR and leave the LF. What is cut from such a text by its
words, blanks and comments is the same whichever way its lines end; a line that is cut up to its LF
has the CR behind it.
-/

namespace QueryLint
set_option autoImplicit false

namespace Text

def crlf (t : Text) : Text := replaceUnit '\n' "\r\n" t

@[simp] theorem crlf_nil : crlf [] = [] := rfl

@[simp] theorem crlf_newline (t : Text) :
    crlf (('\n' : CodeUnit) :: t) = ('\r' : CodeUnit) :: '\n' :: crlf t := rfl

theorem crlf_cons {c : CodeUnit} (hc : c ≠ '\n') (t : Text) : crlf (c :: t) = c :: crlf t := by
  simp [crlf, replaceUnit, hc]

@[simp] theorem crlf_append (t u : Text) : crlf (t ++ u) = crlf t ++ crlf u := by
  simp [crlf, replaceUnit]

theorem crlf_eq_self {t : Text} (h : CodeUnit.ofChar '\n' ∉ t) : crlf t = t := by
  induction t with
  | nil => rfl
  | cons c t ih =>
    rw [List.mem_cons, not_or] at h
    rw [crlf_cons (Ne.symm h.1), ih h.2]

/-- Lines end in LF only, and no backslash stands before the end of a line. -/
structure Unix (t : Text) : Prop where
  returns : CodeUnit.ofChar '\r' ∉ t
  escapes : contains t "\\\n" = false

namespace Unix

theorem append_left {t u : Text} (h : Unix (t ++ u)) : Unix t where
  returns hmem := h.returns (List.mem_append_left u hmem)
  escapes := (Chunk.contains_append_eq_false h.escapes).1

theorem append_right {t u : Text} (h : Unix (t ++ u)) : Unix u where
  returns hmem := h.returns (List.mem_append_right t hmem)
  escapes := (Chunk.contains_append_eq_false h.escapes).2

theorem of_isPrefix {t u : Text} (h : Unix u) (htu : t <+: u) : Unix t := by
  obtain ⟨v, rfl⟩ := htu
  exact h.append_left

theorem drop {t : Text} (h : Unix t) (n : Nat) : Unix (t.drop n) := by
  rw [← List.take_append_drop n t] at h
  exact h.append_right

variable {c : CodeUnit} {t : Text}

theorem tail (h : Unix (c :: t)) : Unix t :=
  append_right (t := [c]) h

/-- What a backslash hides is not the end of a line. -/
theorem hidden_ne {d : CodeUnit} (h : Unix (('\\' : CodeUnit) :: d :: t)) : d ≠ '\n' := by
  rintro rfl
  have hescapes := h.escapes
  have hunits : ofString "\\\n" = [CodeUnit.ofChar '\\', CodeUnit.ofChar '\n'] := by decide
  simp [contains, hunits, List.isPrefixOf] at hescapes

end Unix

section Scans
variable {p : CodeUnit → Bool} (hreturn : p (CodeUnit.ofChar '\r') = false)
variable (hnewline : p (CodeUnit.ofChar '\n') = false)
include hreturn hnewline

theorem takeWhile_crlf (t : Text) : (crlf t).takeWhile p = t.takeWhile p := by
  induction t with
  | nil => rfl
  | cons c t ih =>
    by_cases hc : c = '\n'
    · subst hc
      simp [hreturn, hnewline]
    · rw [crlf_cons hc, List.takeWhile_cons, List.takeWhile_cons, ih]

theorem dropWhile_crlf (t : Text) : (crlf t).dropWhile p = crlf (t.dropWhile p) := by
  induction t with
  | nil => rfl
  | cons c t ih =>
    by_cases hc : c = '\n'
    · subst hc
      simp [hreturn, hnewline]
    · rw [crlf_cons hc, List.dropWhile_cons, List.dropWhile_cons, ih]
      split
      · rfl
      · exact (crlf_cons hc t).symm

end Scans

theorem startsWith_crlf {lead : Text} (hreturn : CodeUnit.ofChar '\r' ∉ lead)
    (hnewline : CodeUnit.ofChar '\n' ∉ lead) (t : Text) :
    startsWith (crlf t) lead = startsWith t lead := by
  unfold startsWith
  induction lead generalizing t with
  | nil => simp
  | cons d lead ih =>
    rw [List.mem_cons, not_or] at hreturn hnewline
    cases t with
    | nil => rfl
    | cons c t =>
      by_cases hc : c = '\n'
      · subst hc
        rw [crlf_newline, List.isPrefixOf_cons_cons, List.isPrefixOf_cons_cons,
          beq_false_of_ne (Ne.symm hreturn.1), beq_false_of_ne (Ne.symm hnewline.1), Bool.false_and,
          Bool.false_and]
      · rw [crlf_cons hc, List.isPrefixOf_cons_cons, List.isPrefixOf_cons_cons, ih hreturn.2 hnewline.2]

theorem startsWith_append_return {lead : Text} (hreturn : CodeUnit.ofChar '\r' ∉ lead) (t : Text) :
    startsWith (t ++ [('\r' : CodeUnit)]) lead = startsWith t lead := by
  unfold startsWith
  induction lead generalizing t with
  | nil => simp
  | cons d lead ih =>
    rw [List.mem_cons, not_or] at hreturn
    cases t with
    | nil => simp [List.isPrefixOf, Ne.symm hreturn.1]
    | cons c t => rw [List.cons_append, List.isPrefixOf_cons_cons, List.isPrefixOf_cons_cons, ih hreturn.2]

/-- The CR that stands between a line and what is left behind it. -/
def lineMark : Text → Text
  | [] => []
  | c :: _ => if c = '\n' then ['\r'] else []

theorem firstLine_crlf (t : Text) :
    firstLine (crlf t) = firstLine t ++ lineMark (t.drop (firstLine t).length) := by
  induction t with
  | nil => rfl
  | cons c t ih =>
    by_cases hc : c = '\n'
    · subst hc
      rfl
    · have hline : ∀ u : Text, firstLine (c :: u) = c :: firstLine u := by
        intro u
        simp [firstLine, hc]
      rw [crlf_cons hc, hline, hline, ih]
      rfl

@[simp] theorem crlf_eq_nil {t : Text} : crlf t = [] ↔ t = [] := by
  refine ⟨fun h => ?_, fun h => by rw [h, crlf_nil]⟩
  cases t with
  | nil => rfl
  | cons c t =>
    by_cases hc : c = '\n'
    · subst hc
      cases h
    · rw [crlf_cons hc] at h
      cases h

theorem trimEnd_space {c : CodeUnit} (hc : c.isSpace = true) {t : Text} (ht : trimEnd t = []) :
    trimEnd (c :: t) = [] := by
  rw [trimEnd, ht]
  exact if_pos hc

theorem trimEnd_cons {c : CodeUnit} {t : Text} (h : trimEnd t ≠ [] ∨ c.isSpace = false) :
    trimEnd (c :: t) = c :: trimEnd t := by
  rw [trimEnd]
  split
  · rename_i hnil
    rw [if_neg (by simpa [hnil] using h), hnil]
  · rfl

theorem trimEnd_append_return (t : Text) : trimEnd (t ++ [('\r' : CodeUnit)]) = trimEnd t := by
  induction t with
  | nil => rfl
  | cons c t ih => rw [List.cons_append, trimEnd, trimEnd, ih]

theorem trimEnd_crlf (t : Text) : trimEnd (crlf t) = crlf (trimEnd t) := by
  induction t with
  | nil => rfl
  | cons c t ih =>
    by_cases hc : c = '\n'
    · subst hc
      rw [crlf_newline]
      by_cases hnil : trimEnd t = []
      · rw [trimEnd_space (by decide) hnil, crlf_nil]
        rw [hnil, crlf_nil] at ih
        exact trimEnd_space (by decide) (trimEnd_space (by decide) ih)
      · have hne : trimEnd (crlf t) ≠ [] := by simpa [ih] using hnil
        rw [trimEnd_cons (.inl hnil), crlf_newline, ← ih]
        have hbreak := trimEnd_cons (c := '\n') (.inl hne)
        rw [trimEnd_cons (.inl (by simp [hbreak])), hbreak]
    · rw [crlf_cons hc]
      by_cases hspace : trimEnd t = [] ∧ c.isSpace = true
      · rw [trimEnd_space hspace.2 hspace.1]
        exact trimEnd_space hspace.2 (by rw [ih, hspace.1, crlf_nil])
      · have hkept : trimEnd t ≠ [] ∨ c.isSpace = false := by
          simpa only [not_and_or, Bool.not_eq_true] using hspace
        rw [trimEnd_cons hkept, crlf_cons hc, ← ih]
        exact trimEnd_cons (hkept.imp_left fun hne => by simpa [ih] using hne)

theorem trim_append_return (t : Text) : trim (t ++ [('\r' : CodeUnit)]) = trim t := by
  unfold trim trimStart
  induction t with
  | nil => rfl
  | cons c t ih =>
    rw [List.cons_append, List.dropWhile_cons, List.dropWhile_cons]
    split
    · exact ih
    · exact trimEnd_append_return (c :: t)

/-- The offset, if lines end in CR LF, of what has the given offset in the text. -/
def crlfOffset (t : Text) (n : Nat) : Nat := (crlf (t.take n)).length

theorem crlfOffset_length (t u : Text) : crlfOffset (t ++ u) t.length = (crlf t).length := by
  rw [crlfOffset, List.take_left]

theorem take_crlf (t : Text) (n : Nat) : (crlf t).take (crlfOffset t n) = crlf (t.take n) := by
  have hsplit : crlf t = crlf (t.take n) ++ crlf (t.drop n) := by
    rw [← crlf_append, List.take_append_drop]
  rw [hsplit, crlfOffset, List.take_left]

theorem drop_crlf (t : Text) (n : Nat) : (crlf t).drop (crlfOffset t n) = crlf (t.drop n) := by
  have hsplit : crlf t = crlf (t.take n) ++ crlf (t.drop n) := by
    rw [← crlf_append, List.take_append_drop]
  rw [hsplit, crlfOffset, List.drop_left]

theorem crlfOffset_mono (t : Text) {n m : Nat} (h : n ≤ m) : crlfOffset t n ≤ crlfOffset t m := by
  have hsplit : t.take m = t.take n ++ (t.drop n).take (m - n) := by
    rw [← List.take_add, Nat.add_sub_cancel' h]
  rw [crlfOffset, crlfOffset, hsplit, crlf_append, List.length_append]
  exact Nat.le_add_right _ _

theorem crlfOffset_lt_length {t : Text} {n : Nat} (h : n < t.length) :
    crlfOffset t n < (crlf t).length := by
  have hrest : crlf (t.drop n) ≠ [] := by
    rw [ne_eq, crlf_eq_nil, List.drop_eq_nil_iff]
    omega
  have hlength : (crlf t).length = crlfOffset t n + (crlf (t.drop n)).length := by
    rw [crlfOffset, ← List.length_append, ← crlf_append, List.take_append_drop]
  have hpos := List.length_pos_iff.2 hrest
  omega

theorem crlfOffset_newline {t : Text} {n : Nat} (h : t[n]? = some (CodeUnit.ofChar '\n')) :
    crlfOffset t (n + 1) = crlfOffset t n + 2 := by
  rw [crlfOffset, List.take_add_one, h, crlf_append, List.length_append]
  rfl

/-- A unit that ends no line stands before the LF of a line if it stands before the line's end. -/
theorem crlfOffset_lt_iff {t : Text} {n m : Nat} (hn : t[n]? ≠ some (CodeUnit.ofChar '\n'))
    (hm : t[m]? = some (CodeUnit.ofChar '\n')) : crlfOffset t n < crlfOffset t m + 1 ↔ n < m := by
  constructor
  · intro hlt
    apply Nat.lt_of_not_le
    intro hle
    have hne : m ≠ n := by
      rintro rfl
      exact hn hm
    have hmono := crlfOffset_mono t (Nat.lt_of_le_of_ne hle hne)
    rw [Nat.succ_eq_add_one, crlfOffset_newline hm] at hmono
    omega
  · intro hlt
    have hmono := crlfOffset_mono t (Nat.le_of_lt hlt)
    omega

theorem crlfOffset_add {t : Text} {n k : Nat} (h : CodeUnit.ofChar '\n' ∉ (t.drop n).take k)
    (hk : n + k ≤ t.length) : crlfOffset t (n + k) = crlfOffset t n + k := by
  rw [crlfOffset, List.take_add, crlf_append, crlf_eq_self h, List.length_append, List.length_take,
    List.length_drop, crlfOffset, Nat.min_eq_left (by omega)]

theorem drop_crlf_of_free {t : Text} {n : Nat} (h : CodeUnit.ofChar '\n' ∉ t.take n) :
    (crlf t).drop n = crlf (t.drop n) := by
  rcases Nat.le_total n t.length with hn | hn
  · have hoffset : crlfOffset t n = n := by
      rw [crlfOffset, crlf_eq_self h, List.length_take, Nat.min_eq_left hn]
    rw [← drop_crlf, hoffset]
  · rw [List.take_of_length_le hn] at h
    rw [crlf_eq_self h, List.drop_eq_nil_of_le hn, crlf_nil]

end Text
end QueryLint
