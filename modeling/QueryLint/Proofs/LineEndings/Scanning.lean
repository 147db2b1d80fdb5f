import QueryLint.Proofs.LineEndings.Texts

/-!
Scanning a text with either kind of line ending.

A CR at the end of a line is never content, and no comment and no word starts or ends differently
before it. Two scanners of a bracketed payload, one in the text with LF and one in the text with
CR LF, stay at the same place; only where they go back to the end of a line the second has the CR.
-/

namespace QueryLint
set_option autoImplicit false

open Text

namespace Chunk

theorem startsComment_crlf (t : Text) : startsComment (crlf t) = startsComment t := by
  unfold startsComment startsLineComment startsBlockComment
  rw [startsWith_crlf (by decide) (by decide), startsWith_crlf (by decide) (by decide),
    startsWith_crlf (by decide) (by decide), startsWith_crlf (by decide) (by decide)]

theorem startsComment_append_return (t : Text) :
    startsComment (t ++ [('\r' : CodeUnit)]) = startsComment t := by
  unfold startsComment startsLineComment startsBlockComment
  rw [startsWith_append_return (by decide), startsWith_append_return (by decide),
    startsWith_append_return (by decide), startsWith_append_return (by decide)]

/-- A CR at the end of a line is part of its last comment, or else it is content. -/
theorem beforeComment_append_return (quote : Option CodeUnit) (behindBlank : Bool) (line : Text) :
    beforeComment quote behindBlank (line ++ [('\r' : CodeUnit)]) = beforeComment quote behindBlank line ∨
      beforeComment quote behindBlank (line ++ [('\r' : CodeUnit)]) =
        beforeComment quote behindBlank line ++ [('\r' : CodeUnit)] := by
  have hcons : ∀ (c : CodeUnit) {u v : Text}, u = v ∨ u = v ++ [('\r' : CodeUnit)] →
      c :: u = c :: v ∨ c :: u = (c :: v) ++ [('\r' : CodeUnit)] := by
    rintro c u v (rfl | rfl)
    · exact .inl rfl
    · exact .inr rfl
  fun_induction beforeComment quote behindBlank line with
  | case1 quote behindBlank =>
    right
    have hcomment : startsComment [('\r' : CodeUnit)] = false := by decide
    have hquote : CodeUnit.isQuote (CodeUnit.ofChar '\r') = false := by decide
    have hescape : CodeUnit.ofChar '\r' ≠ CodeUnit.ofChar '\\' := by decide
    cases quote <;> simp [beforeComment, hcomment, hquote, hescape]
  | case2 => exact .inr rfl
  | case3 behindBlank q d rest ih => exact hcons '\\' (hcons d ih)
  | case4 behindBlank c rest q hc ih =>
    have hstep : beforeComment (some q) behindBlank (c :: (rest ++ [('\r' : CodeUnit)])) =
        c :: beforeComment (if c = q then none else some q) c.isBlank (rest ++ [('\r' : CodeUnit)]) := by
      rw [beforeComment.eq_def]
      exact if_neg hc
    rw [List.cons_append, hstep]
    exact hcons c ih
  | case5 behindBlank c rest hc ih =>
    rw [List.cons_append, beforeComment, if_pos hc]
    exact hcons c ih
  | case6 behindBlank c rest hc hcomment =>
    left
    rw [← startsComment_append_return (c :: rest)] at hcomment
    rw [List.cons_append, beforeComment, if_neg hc]
    exact if_pos hcomment
  | case7 behindBlank c rest hc hcomment ih =>
    rw [← startsComment_append_return (c :: rest)] at hcomment
    have hstep : beforeComment none behindBlank (c :: (rest ++ [('\r' : CodeUnit)])) =
        c :: beforeComment none c.isBlank (rest ++ [('\r' : CodeUnit)]) := by
      rw [beforeComment, if_neg hc]
      exact if_neg hcomment
    rw [List.cons_append, hstep]
    exact hcons c ih

theorem lineContent_append_return (line : Text) :
    lineContent (line ++ [('\r' : CodeUnit)]) = lineContent line := by
  unfold lineContent
  rcases beforeComment_append_return none false line with h | h
  · rw [h]
  · rw [h, trimEnd_append_return]

theorem trailingLength_append_return (line : Text) :
    trailingLength (line ++ [('\r' : CodeUnit)]) = trailingLength line := by
  unfold trailingLength
  rw [trim_append_return, lineContent_append_return]

theorem startsCommand_crlf (isKeyword : Text → Bool) (t : Text) :
    startsCommand isKeyword (crlf t) = startsCommand isKeyword t := by
  unfold startsCommand
  rw [dropWhile_crlf (by decide) (by decide)]
  generalize t.dropWhile CodeUnit.isBlank = u
  dsimp only
  rw [takeWhile_crlf (by decide) (by decide), dropWhile_crlf (by decide) (by decide),
    dropWhile_crlf (by decide) (by decide)]
  generalize (u.dropWhile isNameUnit).dropWhile CodeUnit.isBlank = v
  cases u with
  | nil => rfl
  | cons c u =>
    by_cases hc : c = '\n'
    · subst hc
      rfl
    · rw [crlf_cons hc]
      -- the unit behind the word is only compared with the colon and the comma
      cases v with
      | nil => rfl
      | cons d v =>
        by_cases hd : d = '\n'
        · subst hd
          rfl
        · rw [crlf_cons hd]

theorem throughCommentEnd_pass {c : CodeUnit} {t : Text} (h : c = '*' → ∀ d ∈ t.head?, d ≠ '/') :
    throughCommentEnd (c :: t) = c :: throughCommentEnd t := by
  cases t with
  | nil => rfl
  | cons d t =>
    have hne : ¬(decide (c = '*') && decide (d = '/')) = true := by
      intro heq
      rw [Bool.and_eq_true, decide_eq_true_eq, decide_eq_true_eq] at heq
      exact h heq.1 d rfl heq.2
    rw [throughCommentEnd, if_neg hne]

theorem throughCommentEnd_crlf (t : Text) :
    throughCommentEnd (crlf t) = crlf (throughCommentEnd t) := by
  fun_induction throughCommentEnd t with
  | case1 => rfl
  | case2 c =>
    by_cases hc : c = '\n'
    · subst hc
      rfl
    · rw [crlf_cons hc]
      rfl
  | case3 c d rest h =>
    rw [Bool.and_eq_true, decide_eq_true_eq, decide_eq_true_eq] at h
    obtain ⟨rfl, rfl⟩ := h
    rfl
  | case4 c d rest h ih =>
    by_cases hc : c = '\n'
    · subst hc
      rw [crlf_newline, crlf_newline, throughCommentEnd_pass (fun h => absurd h (by decide)),
        throughCommentEnd_pass (fun h => absurd h (by decide)), ih]
    · rw [crlf_cons hc, crlf_cons hc, ← ih]
      apply throughCommentEnd_pass
      rintro rfl e he rfl
      by_cases hd : d = '\n'
      · subst hd
        exact absurd (Option.some.inj he) (by decide)
      · rw [crlf_cons hd] at he
        cases he
        exact h rfl

end Chunk

namespace Delimiter.Scan
variable (startsCommand : Text → Bool)

theorem run_return {s : Scan} (hs : s.quote ≠ some (CodeUnit.ofChar '\r')) (passed : Nat) (t : Text) :
    run startsCommand passed s (('\r' : CodeUnit) :: t) = run startsCommand (passed + 1) s t := by
  cases hquote : s.quote with
  | none => exact run_idle hquote (by decide) (by decide) (by decide) (by decide) t
  | some q =>
    have hq : CodeUnit.ofChar '\r' ≠ q := by
      rintro rfl
      exact hs hquote
    rw [run_quoted hquote (by decide) (by decide), if_neg hq, ← hquote]

/-- The scanner with CR LF that stands where a scanner of the text stands. A boundary lies before
the LF. -/
def onCrlf (text : Text) (s : Scan) : Scan :=
  { s with
    mismatch := s.mismatch.map fun (offset, fault) => (crlfOffset text offset, fault)
    boundary := s.boundary.map fun offset => crlfOffset text offset + 1 }

@[simp] theorem below_onCrlf (text : Text) (s : Scan) : (s.onCrlf text).below = s.below := rfl

@[simp] theorem quote_onCrlf (text : Text) (s : Scan) : (s.onCrlf text).quote = s.quote := rfl

/-- What a scanner has noted down lies in the text: a boundary ends a line, a mismatch does not. -/
structure Over (text : Text) (s : Scan) : Prop where
  quote : ∀ q ∈ s.quote, q.isQuote = true
  mismatch : ∀ m ∈ s.mismatch, m.1 < text.length ∧ text[m.1]? ≠ some (CodeUnit.ofChar '\n')
  boundary : ∀ offset ∈ s.boundary, text[offset]? = some (CodeUnit.ofChar '\n')

end Delimiter.Scan

namespace Delimiter

/-- The extents agree: they end at the same place, or the payload is cut before the end of a line and
the second extent has the CR. -/
def Extent.AgreesOn (text : Text) (e e' : Extent) : Prop :=
  e'.fault = e.fault ∧ (e'.length = crlfOffset text e.length ∨ e.fault.isSome = true ∧
    text[e.length]? = some (CodeUnit.ofChar '\n') ∧ e'.length = crlfOffset text e.length + 1)

namespace Scan

theorem unfinished_crlf {text : Text} {s : Scan} (h : s.Over text) :
    (s.unfinished text.length).AgreesOn text ((s.onCrlf text).unfinished (crlf text).length) := by
  obtain ⟨top, below, quote, mismatch, boundary⟩ := s
  have hend : crlfOffset text text.length = (crlf text).length := by
    rw [crlfOffset, List.take_length]
  cases boundary with
  | none =>
    refine ⟨?_, .inl ?_⟩
    · cases mismatch with
      | none => rfl
      | some m =>
        obtain ⟨hlt, -⟩ := h.mismatch m rfl
        simp [unfinished, onCrlf, hlt, crlfOffset_lt_length hlt]
    · cases mismatch with
      | none => exact hend.symm
      | some m => exact hend.symm
  | some offset =>
    have hbreak := h.boundary offset rfl
    refine ⟨?_, .inr ⟨?_, ?_, ?_⟩⟩
    · cases mismatch with
      | none => rfl
      | some m =>
        obtain ⟨-, hne⟩ := h.mismatch m rfl
        simp [unfinished, onCrlf, crlfOffset_lt_iff hne hbreak]
    · cases mismatch <;> rfl
    · cases mismatch <;> exact hbreak
    · cases mismatch <;> rfl

theorem length_crlf_concat {c : CodeUnit} (hc : c ≠ '\n') (x : Text) :
    (crlf (x ++ [c])).length = (crlf x).length + 1 := by
  rw [crlf_append, crlf_cons hc, List.length_append]
  rfl

theorem mismatchWith_crlf (text : Text) (s : Scan) (passed : Nat) (found : Bracket) :
    (s.onCrlf text).mismatchWith (crlfOffset text passed) found =
      (s.mismatchWith passed found).map fun (offset, fault) => (crlfOffset text offset, fault) := by
  obtain ⟨top, below, quote, mismatch, boundary⟩ := s
  cases mismatch with
  | some m => rfl
  | none =>
    by_cases hfound : found = top
    · simp [mismatchWith, onCrlf, hfound]
    · simp [mismatchWith, onCrlf, hfound]

theorem Over.mismatchWith {text : Text} {s : Scan} (hs : s.Over text) {passed : Nat}
    (hlt : passed < text.length) (hne : text[passed]? ≠ some (CodeUnit.ofChar '\n')) (found : Bracket) :
    ∀ m ∈ s.mismatchWith passed found, m.1 < text.length ∧ text[m.1]? ≠ some (CodeUnit.ofChar '\n') := by
  obtain ⟨top, below, quote, mismatch, boundary⟩ := s
  intro m hm
  cases mismatch with
  | some seen => exact hs.mismatch m hm
  | none =>
    simp only [Scan.mismatchWith] at hm
    split at hm
    · cases hm
    · cases hm
      exact ⟨hlt, hne⟩

theorem boundaryWith_crlf (text : Text) (s : Scan) (passed : Nat) (command : Bool) :
    (s.onCrlf text).boundaryWith (crlfOffset text passed + 1) command =
      (s.boundaryWith passed command).map fun offset => crlfOffset text offset + 1 := by
  obtain ⟨top, below, quote, mismatch, boundary⟩ := s
  cases boundary with
  | some offset => rfl
  | none => cases command <;> rfl

/-- The CR before a line break means nothing, and the answers about commands are the same. -/
theorem run_newline_crlf {startsCommand : Text → Bool}
    (hcommand : ∀ u, startsCommand (crlf u) = startsCommand u) {text : Text} {s : Scan} (hs : s.Over text)
    (passed : Nat) (rest : Text) :
    run startsCommand (crlfOffset text passed) (s.onCrlf text) (crlf (('\n' : CodeUnit) :: rest)) =
      run startsCommand (crlfOffset text passed + 2)
        (onCrlf text { s with
          quote := none
          boundary := s.boundaryWith passed (startsCommand rest) }) (crlf rest) := by
  have hquote : (s.onCrlf text).quote ≠ some (CodeUnit.ofChar '\r') := by
    intro hq
    exact absurd (hs.quote _ hq) (by decide)
  rw [crlf_newline, run_return _ hquote, run_newline, hcommand, boundaryWith_crlf]
  rfl

theorem Over.newline {text : Text} {s : Scan} (hs : s.Over text) {passed : Nat}
    (hbreak : text[passed]? = some (CodeUnit.ofChar '\n')) (command : Bool) :
    Over text { s with quote := none, boundary := s.boundaryWith passed command } := by
  refine ⟨by simp, hs.mismatch, ?_⟩
  intro offset hbound
  dsimp only [Scan.boundaryWith] at hbound
  split at hbound
  · exact hs.boundary offset (by simp_all)
  · split at hbound
    · cases hbound
      exact hbreak
    · cases hbound

theorem Over.quoted {text : Text} {s : Scan} (hs : s.Over text) {quote : CodeUnit}
    (hquote : s.quote = some quote) (c : CodeUnit) :
    Over text { s with quote := if c = quote then none else some quote } := by
  refine ⟨?_, hs.mismatch, hs.boundary⟩
  intro q hq
  dsimp only at hq
  split at hq
  · cases hq
  · cases hq
    exact hs.quote _ hquote

/-- Scanners that stand at the same place end at the same place. -/
theorem run_crlf {startsCommand : Text → Bool} (hcommand : ∀ u, startsCommand (crlf u) = startsCommand u)
    {text t x : Text} {s : Scan} (htext : text = x ++ t) (ht : Unix t) (hs : s.Over text) :
    (run startsCommand x.length s t).AgreesOn text
      (run startsCommand (crlf x).length (s.onCrlf text) (crlf t)) := by
  have hmore : ∀ {x u rest : Text}, text = x ++ (u ++ rest) → text = x ++ u ++ rest := fun htext =>
    htext.trans (List.append_assoc ..).symm
  have hoffset : ∀ {x t : Text} {passed : Nat}, text = x ++ t → x.length = passed →
      crlfOffset text passed = (crlf x).length := by
    rintro x t passed rfl rfl
    exact crlfOffset_length x t
  generalize hpassed : x.length = passed
  fun_induction run startsCommand passed s t generalizing x with
  | case1 passed s =>
    rw [List.append_nil] at htext
    subst htext hpassed
    exact unfinished_crlf hs
  | case2 passed s rest boundary =>
    rename_i ih
    have hbreak : text[passed]? = some (CodeUnit.ofChar '\n') := by
      rw [htext, ← hpassed]
      simp
    have hnext := @ih (x ++ [('\n' : CodeUnit)]) (hmore htext) ht.tail (hs.newline hbreak _)
      (by simp [hpassed])
    rw [← hoffset htext hpassed, run_newline_crlf hcommand hs]
    rw [crlf_append, List.length_append, ← hoffset htext hpassed] at hnext
    exact hnext
  | case3 passed s quote hquote hc =>
    subst htext hpassed
    rw [crlf_cons hc, crlf_nil, run_escapeEnd (s := s.onCrlf _) hquote, ← length_crlf_concat hc,
      ← List.length_singleton (a := CodeUnit.ofChar '\\'), ← List.length_append]
    exact unfinished_crlf hs
  | case4 passed s quote hquote d rest hc ih =>
    have hd := ht.hidden_ne
    have hlength : (crlf (x ++ [('\\' : CodeUnit)] ++ [d])).length = (crlf x).length + 2 := by
      rw [length_crlf_concat hd, length_crlf_concat hc]
    rw [crlf_cons hc, crlf_cons hd, run_escaped (s := s.onCrlf text) hquote, ← hlength]
    exact ih (hmore (hmore htext)) ht.tail.tail hs (by simp [hpassed])
  | case5 passed s c rest hc quote hquote hescape ih =>
    rw [crlf_cons hc, run_quoted (s := s.onCrlf text) hquote hc hescape, ← length_crlf_concat hc]
    exact ih (hmore htext) ht.tail (hs.quoted hquote c) (by simp [hpassed])
  | case6 passed s c rest hc hnone hquote ih =>
    have hover : Over text { s with quote := some c } := ⟨by simpa using hquote, hs.mismatch, hs.boundary⟩
    rw [crlf_cons hc, run_openQuote (s := s.onCrlf text) hnone hquote, ← length_crlf_concat hc]
    exact ih (hmore htext) ht.tail hover (by simp [hpassed])
  | case7 passed s c rest hc hnone hquote bracket hopen ih =>
    obtain rfl := Bracket.eq_opening hopen
    rw [crlf_cons hc, run_opening (s := s.onCrlf text) hnone, ← length_crlf_concat hc]
    exact ih (hmore htext) ht.tail ⟨hs.quote, hs.mismatch, hs.boundary⟩ (by simp [hpassed])
  | case8 passed s c rest hc hnone hquote hopen hclose ih =>
    have hbare : c.isQuote = false := by simpa using hquote
    rw [crlf_cons hc, run_idle (s := s.onCrlf text) hnone hc hbare hopen hclose, ← length_crlf_concat hc]
    exact ih (hmore htext) ht.tail hs (by simp [hpassed])
  | case9 passed s c rest hc hnone hquote hopen found hclose mismatch =>
    rename_i hbelow
    obtain rfl := Bracket.eq_closing hclose
    have hnext : crlfOffset text (passed + 1) = crlfOffset text passed + 1 := by
      rw [hoffset (x := x ++ [found.closing]) (hmore htext) (by simp [hpassed]), length_crlf_concat hc,
        hoffset htext hpassed]
    rw [crlf_cons hc, run_closing (s := s.onCrlf text) hnone, below_onCrlf, hbelow, ← hoffset htext hpassed,
      mismatchWith_crlf]
    refine ⟨?_, .inl hnext.symm⟩
    rw [Option.map_map]
    rfl
  | case10 passed s c rest hc hnone hquote hopen found hclose mismatch top below hbelow =>
    rename_i ih
    obtain rfl := Bracket.eq_closing hclose
    have hunit : text[passed]? = some found.closing := by
      rw [htext, ← hpassed]
      simp
    have hlt : passed < text.length := (List.getElem?_eq_some_iff.1 hunit).1
    have hover : Over text { s with top, below, mismatch := s.mismatchWith passed found } :=
      ⟨hs.quote, hs.mismatchWith hlt (by simpa [hunit] using hc) found, hs.boundary⟩
    have hnext := @ih (x ++ [found.closing]) (hmore htext) ht.tail hover (by simp [hpassed])
    rw [crlf_cons hc, run_closing (s := s.onCrlf text) hnone, below_onCrlf, hbelow, ← hoffset htext hpassed,
      mismatchWith_crlf]
    rw [length_crlf_concat hc, ← hoffset htext hpassed] at hnext
    exact hnext

end Scan
end Delimiter

end QueryLint
