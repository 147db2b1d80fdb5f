import QueryLint.Delimiter

/-!
The scanner, unit by unit.

There is one equation for everything that a unit can be to the scanner. What holds of whole scans is
proved by induction along the scan, and every case of it takes one of these equations.
-/

namespace QueryLint
set_option autoImplicit false

namespace Bracket

theorem eq_opening {c : CodeUnit} {bracket : Bracket} (h : ofOpening? c = some bracket) :
    c = bracket.opening := by
  unfold ofOpening? at h
  split at h
  · cases h
    assumption
  · split at h
    · cases h
      assumption
    · cases h

theorem eq_closing {c : CodeUnit} {bracket : Bracket} (h : ofClosing? c = some bracket) :
    c = bracket.closing := by
  unfold ofClosing? at h
  split at h
  · cases h
    assumption
  · split at h
    · cases h
      assumption
    · cases h

end Bracket

namespace Delimiter.Scan

/-- The boundary behind a line break. Only the first line break before a command counts. -/
def boundaryWith (s : Scan) (passed : Nat) (command : Bool) : Option Nat :=
  match s.boundary with
  | some offset => some offset
  | none => if command then some passed else none

theorem unfinished_fault (s : Scan) (passed n : Nat) : s.unfinished passed ≠ ⟨n, none⟩ := by
  unfold unfinished
  dsimp only
  split <;> simp

section
variable {startsCommand : Text → Bool} {passed : Nat} {s : Scan} {quote c : CodeUnit}

theorem run_newline (rest : Text) :
    run startsCommand passed s (('\n' : CodeUnit) :: rest) =
      run startsCommand (passed + 1)
        { s with quote := none, boundary := s.boundaryWith passed (startsCommand rest) } rest := by
  rw [run.eq_def]
  simp only [if_true]
  rfl

theorem run_escapeEnd (hs : s.quote = some quote) :
    run startsCommand passed s [('\\' : CodeUnit)] = s.unfinished (passed + 1) := by
  have hbreak : CodeUnit.ofChar '\\' ≠ CodeUnit.ofChar '\n' := by decide
  rw [run.eq_def]
  simp only [hbreak, if_false, hs, if_true]

theorem run_escaped (hs : s.quote = some quote) (rest : Text) :
    run startsCommand passed s (('\\' : CodeUnit) :: c :: rest) =
      run startsCommand (passed + 2) s rest := by
  have hbreak : CodeUnit.ofChar '\\' ≠ CodeUnit.ofChar '\n' := by decide
  rw [run.eq_def]
  simp only [hbreak, if_false, hs, if_true]

/-- Inside a quote the scanner passes over everything but the quote, a backslash and a line break. -/
theorem run_quoted (hs : s.quote = some quote) (hbreak : c ≠ '\n') (hescape : c ≠ '\\') (rest : Text) :
    run startsCommand passed s (c :: rest) =
      run startsCommand (passed + 1) { s with quote := if c = quote then none else some quote } rest := by
  rw [run.eq_def]
  simp only [hbreak, if_false, hs, hescape]

section Bare
variable (hs : s.quote = none)
include hs

theorem run_openQuote (hc : c.isQuote = true) (rest : Text) :
    run startsCommand passed s (c :: rest) =
      run startsCommand (passed + 1) { s with quote := some c } rest := by
  have hbreak : c ≠ CodeUnit.ofChar '\n' := by
    rintro rfl
    exact absurd hc (by decide)
  rw [run.eq_def]
  simp only [hbreak, if_false, hs, hc, if_true]

theorem run_idle (hbreak : c ≠ '\n') (hquote : c.isQuote = false) (hopen : Bracket.ofOpening? c = none)
    (hclose : Bracket.ofClosing? c = none) (rest : Text) :
    run startsCommand passed s (c :: rest) = run startsCommand (passed + 1) s rest := by
  rw [run.eq_def]
  simp only [hbreak, if_false, hs, hquote, Bool.false_eq_true, hopen, hclose]

theorem run_opening (bracket : Bracket) (rest : Text) :
    run startsCommand passed s (bracket.opening :: rest) =
      run startsCommand (passed + 1) { s with top := bracket, below := s.top :: s.below } rest := by
  have hbreak : bracket.opening ≠ CodeUnit.ofChar '\n' := by cases bracket <;> decide
  have hquote : bracket.opening.isQuote = false := by cases bracket <;> decide
  have hopen : Bracket.ofOpening? bracket.opening = some bracket := by cases bracket <;> decide
  rw [run.eq_def]
  simp only [hbreak, if_false, hs, hquote, Bool.false_eq_true, hopen]

/-- A closing bracket, of the right kind or not, closes the bracket that was opened last. -/
theorem run_closing (found : Bracket) (rest : Text) :
    run startsCommand passed s (found.closing :: rest) =
      match s.below with
      | [] => ⟨passed + 1, (s.mismatchWith passed found).map (·.2)⟩
      | top :: below =>
        run startsCommand (passed + 1)
          { s with top, below, mismatch := s.mismatchWith passed found } rest := by
  have hbreak : found.closing ≠ CodeUnit.ofChar '\n' := by cases found <;> decide
  have hquote : found.closing.isQuote = false := by cases found <;> decide
  have hopen : Bracket.ofOpening? found.closing = none := by cases found <;> decide
  have hclose : Bracket.ofClosing? found.closing = some found := by cases found <;> decide
  rw [run.eq_def]
  cases s.below with
  | nil => simp only [hbreak, if_false, hs, hquote, Bool.false_eq_true, hopen, hclose]
  | cons top below => simp only [hbreak, if_false, hs, hquote, Bool.false_eq_true, hopen, hclose]

end Bare

end

/-- The scan of `t` ends at `n`, with a closing bracket. Neither what stands behind the bracket nor where
commands start has a say in that. -/
def Closes (passed : Nat) (s : Scan) (t : Text) (n : Nat) : Prop :=
  ∃ (w : Text) (found : Bracket) (rest : Text), t = w ++ found.closing :: rest ∧
    n = passed + w.length + 1 ∧
    ∀ (startsCommand : Text → Bool) (boundary : Option Nat) (rest : Text),
      run startsCommand passed { s with boundary } (w ++ found.closing :: rest) = ⟨n, none⟩

section
variable {passed n : Nat} {s s' : Scan} {t : Text}

/-- The scanner passes over `u` first. -/
theorem Closes.append {u : Text} (h : Closes (passed + u.length) s' t n)
    (hu : ∀ (startsCommand : Text → Bool) (boundary : Option Nat) (rest : Text), ∃ boundary',
      run startsCommand passed { s with boundary } (u ++ rest) =
        run startsCommand (passed + u.length) { s' with boundary := boundary' } rest) :
    Closes passed s (u ++ t) n := by
  obtain ⟨w, found, rest, rfl, hn, hrun⟩ := h
  refine ⟨u ++ w, found, rest, (List.append_assoc ..).symm, ?_, fun startsCommand boundary rest' => ?_⟩
  · rw [hn, List.length_append, Nat.add_assoc passed]
  · obtain ⟨boundary', hpass⟩ := hu startsCommand boundary (w ++ found.closing :: rest')
    rw [List.append_assoc, hpass]
    exact hrun startsCommand boundary' rest'

/-- Scans that end without a fault end with a closing bracket. -/
theorem closes_of_run {startsCommand : Text → Bool} (h : run startsCommand passed s t = ⟨n, none⟩) :
    Closes passed s t n := by
  fun_induction run startsCommand passed s t with
  | case1 passed s => exact absurd h (unfinished_fault s passed n)
  | case2 passed s rest boundary ih =>
    exact (ih h).append (u := [CodeUnit.ofChar '\n']) fun _ _ rest => ⟨_, run_newline rest⟩
  | case3 passed s => exact absurd h (unfinished_fault s (passed + 1) n)
  | case4 passed s quote hquote d rest _ ih =>
    exact (ih h).append (u := [CodeUnit.ofChar '\\', d]) fun _ boundary rest =>
      ⟨boundary, run_escaped (s := { s with boundary }) hquote rest⟩
  | case5 passed s c rest hbreak quote hquote hescape ih =>
    exact (ih h).append (u := [c]) fun _ boundary rest =>
      ⟨boundary, run_quoted (s := { s with boundary }) hquote hbreak hescape rest⟩
  | case6 passed s c rest _ hnone hquote ih =>
    exact (ih h).append (u := [c]) fun _ boundary rest =>
      ⟨boundary, run_openQuote (s := { s with boundary }) hnone hquote rest⟩
  | case7 passed s c rest _ hnone _ bracket hopen ih =>
    obtain rfl := Bracket.eq_opening hopen
    exact (ih h).append (u := [bracket.opening]) fun _ boundary rest =>
      ⟨boundary, run_opening (s := { s with boundary }) hnone bracket rest⟩
  | case8 passed s c rest hbreak hnone hquote hopen hclose ih =>
    have hbare : c.isQuote = false := by simpa using hquote
    exact (ih h).append (u := [c]) fun _ boundary rest =>
      ⟨boundary, run_idle (s := { s with boundary }) hnone hbreak hbare hopen hclose rest⟩
  | case9 passed s c rest _ hnone _ _ found hfound mismatch hbelow =>
    obtain rfl := Bracket.eq_closing hfound
    refine ⟨[], found, rest, rfl, (Extent.mk.inj h).1.symm, fun startsCommand' boundary rest' => ?_⟩
    refine (run_closing (s := { s with boundary }) hnone found rest').trans ?_
    rw [hbelow]
    exact h
  | case10 passed s c rest _ hnone _ _ found hfound mismatch top below hbelow ih =>
    obtain rfl := Bracket.eq_closing hfound
    refine (ih h).append (u := [found.closing]) fun _ boundary rest' => ⟨boundary, ?_⟩
    refine (run_closing (s := { s with boundary }) hnone found rest').trans ?_
    rw [hbelow]
    rfl

section
variable {startsCommand : Text → Bool} (h : run startsCommand passed s t = ⟨n, none⟩)
include h

theorem lt_of_run : passed < n := by
  obtain ⟨w, found, rest, -, rfl, -⟩ := closes_of_run h
  omega

theorem le_of_run : n ≤ passed + t.length := by
  obtain ⟨w, found, rest, rfl, rfl, -⟩ := closes_of_run h
  rw [List.length_append, List.length_cons]
  omega

end

/-- Where a payload is closed depends on its own text only. -/
theorem run_stable {startsCommand startsCommand' : Text → Bool} {u v v' : Text}
    (h : run startsCommand passed s (u ++ v) = ⟨n, none⟩) (hn : n ≤ passed + u.length)
    (boundary : Option Nat) : run startsCommand' passed { s with boundary } (u ++ v') = ⟨n, none⟩ := by
  obtain ⟨w, found, rest, htext, rfl, hrun⟩ := closes_of_run h
  have hprefix : w ++ [found.closing] <+: u := by
    have hwhole : w ++ [found.closing] <+: u ++ v :=
      ⟨rest, by rw [htext, List.append_assoc, List.singleton_append]⟩
    refine List.prefix_of_prefix_length_le hwhole (List.prefix_append u v) ?_
    rw [List.length_append, List.length_singleton]
    omega
  obtain ⟨u', rfl⟩ := hprefix
  rw [List.append_assoc, List.append_assoc]
  exact hrun startsCommand' boundary (u' ++ v')

end
end Delimiter.Scan
end QueryLint
