import QueryLint.Proofs.Boundaries
import QueryLint.Proofs.Payload.Grammar

/-!
Lines that hold one clause.

Whatever lines surround it, a line with a name alone, a name and a word, or a name and a balanced
payload, which may go on over lines of its own, is read as one clause.
-/

namespace QueryLint
set_option autoImplicit false

namespace Delimiter.Scan

/-- The scanner passes over the text outside of quotes and comes back to where it was. -/
def Passes (w : Text) : Prop :=
  ∀ (startsCommand : Text → Bool) (passed : Nat) (s : Scan) (rest : Text), s.quote = none →
    run startsCommand passed s (w ++ rest) = run startsCommand (passed + w.length) s rest

def IsIdle (c : CodeUnit) : Prop :=
  c ≠ '\n' ∧ c.isQuote = false ∧ Bracket.ofOpening? c = none ∧ Bracket.ofClosing? c = none

instance : DecidablePred IsIdle := fun c =>
  inferInstanceAs (Decidable (c ≠ CodeUnit.ofChar '\n' ∧ c.isQuote = false ∧
    Bracket.ofOpening? c = none ∧ Bracket.ofClosing? c = none))

theorem passes_nil : Passes [] := fun _ _ _ _ _ => rfl

theorem Passes.append {w u : Text} (hw : Passes w) (hu : Passes u) : Passes (w ++ u) := by
  intro startsCommand passed s rest hs
  rw [List.append_assoc, hw startsCommand passed s _ hs, hu startsCommand _ s rest hs,
    List.length_append, Nat.add_assoc]

theorem passes_idle {w : Text} (h : ∀ c ∈ w, IsIdle c) : Passes w := by
  induction w with
  | nil => exact passes_nil
  | cons c w ih =>
    intro startsCommand passed s rest hs
    obtain ⟨hbreak, hquote, hopen, hclose⟩ := h c List.mem_cons_self
    rw [List.cons_append, run_idle hs hbreak hquote hopen hclose,
      ih (fun d hd => h d (List.mem_cons_of_mem _ hd)) startsCommand (passed + 1) s rest hs,
      List.length_cons, Nat.add_assoc, Nat.add_comm 1]

/-- Inside quotes the scanner passes over what a literal is written with. -/
theorem run_literal {quote : CodeUnit} {w t : Text} (h : Payload.QuotedRun quote w t)
    {startsCommand : Text → Bool} {passed : Nat} {s : Scan} (hs : s.quote = some quote)
    (rest : Text) :
    run startsCommand passed s (w ++ rest) = run startsCommand (passed + w.length) s rest := by
  -- a literal goes on by a unit that stands for itself or by a backslash and the unit it hides
  have hescaped : ∀ (c : CodeUnit) (w : Text), (∀ passed : Nat,
      run startsCommand passed s (w ++ rest) = run startsCommand (passed + w.length) s rest) →
      ∀ passed : Nat, run startsCommand passed s (('\\' : CodeUnit) :: c :: w ++ rest) =
        run startsCommand (passed + (('\\' : CodeUnit) :: c :: w).length) s rest := by
    intro c w ih passed
    rw [List.cons_append, List.cons_append, run_escaped hs, ih, List.length_cons, List.length_cons]
    congr 1
    omega
  induction h generalizing passed with
  | nil => rfl
  | @plain c w t hbreak hescape hquote _ ih =>
    have hstill : (if c = quote then none else some quote) = s.quote := by rw [if_neg hquote, hs]
    rw [List.cons_append, run_quoted hs hbreak hescape, hstill, ih, List.length_cons]
    congr 1
    omega
  | lineFeed _ ih => exact hescaped _ _ (fun _ => ih) passed
  | carriageReturn _ ih => exact hescaped _ _ (fun _ => ih) passed
  | tab _ ih => exact hescaped _ _ (fun _ => ih) passed
  | other _ _ _ _ ih => exact hescaped _ _ (fun _ => ih) passed

theorem passes_literal {quote : Quote} {w t : Text} (h : Payload.QuotedRun quote.unit w t) :
    Passes (quote.unit :: (w ++ [quote.unit])) := by
  intro startsCommand passed s rest hs
  have hquote : quote.unit.isQuote = true := by cases quote <;> decide
  have hbreak : quote.unit ≠ CodeUnit.ofChar '\n' := by cases quote <;> decide
  have hescape : quote.unit ≠ CodeUnit.ofChar '\\' := by cases quote <;> decide
  have hsame : { s with quote := none } = s := by rw [← hs]
  rw [List.cons_append, List.append_assoc, List.singleton_append, run_openQuote hs hquote,
    run_literal h rfl, run_quoted rfl hbreak hescape]
  simp only [if_true, hsame, List.length_cons, List.length_append, List.length_nil]
  congr 1
  omega

/-- The scanner crosses the text outside of quotes: a line break in it may set the boundary, but
otherwise the scanner comes back to where it was. -/
def Crosses (w : Text) : Prop :=
  ∀ (startsCommand : Text → Bool) (passed : Nat) (s : Scan) (rest : Text), s.quote = none →
    ∃ boundary, run startsCommand passed s (w ++ rest) =
      run startsCommand (passed + w.length) { s with boundary } rest

theorem Passes.crosses {w : Text} (h : Passes w) : Crosses w :=
  fun startsCommand passed s rest hs => ⟨s.boundary, h startsCommand passed s rest hs⟩

theorem Crosses.append {w u : Text} (hw : Crosses w) (hu : Crosses u) : Crosses (w ++ u) := by
  intro startsCommand passed s rest hs
  obtain ⟨b, hb⟩ := hw startsCommand passed s (u ++ rest) hs
  obtain ⟨b', hb'⟩ := hu startsCommand (passed + w.length) { s with boundary := b } rest hs
  refine ⟨b', ?_⟩
  rw [List.append_assoc, hb, hb', List.length_append, Nat.add_assoc]

theorem crosses_lineBreak : Crosses [CodeUnit.ofChar '\n'] := by
  intro startsCommand passed s rest hs
  rw [List.singleton_append, run_newline, ← hs]
  exact ⟨_, rfl⟩

/-- The bracket that was opened last is closed. -/
theorem run_closing_top {startsCommand : Text → Bool} {passed : Nat} {s : Scan} (hs : s.quote = none)
    (rest : Text) :
    run startsCommand passed s (s.top.closing :: rest) =
      match s.below with
      | [] => ⟨passed + 1, s.mismatch.map (·.2)⟩
      | top :: below => run startsCommand (passed + 1) { s with top, below } rest := by
  have hmatch : s.mismatchWith passed s.top = s.mismatch := by
    unfold mismatchWith
    cases s.mismatch <;> simp
  have hrun := @run_closing startsCommand passed s hs s.top rest
  rw [hmatch] at hrun
  exact hrun

end Delimiter.Scan

def Bracket.around (bracket : Bracket) (body : Text) : Text :=
  bracket.opening :: (body ++ [bracket.closing])

open Delimiter

theorem Delimiter.Scan.Crosses.around {body : Text} (h : Scan.Crosses body) (bracket : Bracket) :
    Scan.Crosses (bracket.around body) := by
  intro startsCommand passed s rest hs
  obtain ⟨boundary, hbody⟩ := h startsCommand (passed + 1)
    { s with top := bracket, below := s.top :: s.below } (bracket.closing :: rest) hs
  refine ⟨boundary, ?_⟩
  rw [Bracket.around, List.cons_append, List.append_assoc, List.singleton_append,
    Scan.run_opening hs, hbody]
  refine (Scan.run_closing_top (s := { s with top := bracket, below := s.top :: s.below, boundary })
    hs rest).trans ?_
  simp only [List.length_cons, List.length_append, List.length_nil]
  congr 1
  omega

/-- A payload ends with the bracket that closes its first one. -/
theorem Delimiter.extent_around {body : Text} (h : Scan.Crosses body) (bracket : Bracket)
    (startsCommand : Text → Bool) :
    Delimiter.extent startsCommand bracket (body ++ [bracket.closing]) =
      ⟨body.length + 2, none⟩ := by
  obtain ⟨boundary, hbody⟩ := h startsCommand 1 (.start bracket) [bracket.closing] rfl
  have hclose := @Scan.run_closing_top startsCommand (1 + body.length)
    { Scan.start bracket with boundary } rfl []
  rw [Delimiter.extent, hbody]
  refine hclose.trans ?_
  simp only [Scan.start, Option.map_none, Extent.mk.injEq, and_true]
  omega

namespace Chunk

def IsClauseLine (isKeyword : Text → Bool) (line : Text) (cl : Clause) : Prop :=
  ∀ v, EndsLine v → Cut isKeyword (line ++ v) [clause cl] v

theorem first_of_isNameStart {isKeyword : Text → Bool} {c : CodeUnit} (u : Text)
    (hc : isNameStart c = true) : first isKeyword c u = clause (clauseAt isKeyword (c :: u)) := by
  have hlayout : c.isLayout = false := by
    cases hlayout : c.isLayout with
    | false => rfl
    | true =>
      simp only [CodeUnit.isLayout, Bool.or_eq_true, decide_eq_true_eq] at hlayout
      rcases hlayout with ((rfl | rfl) | rfl) | rfl <;> exact absurd hc (by decide)
  have hline : startsLineComment (c :: u) = false := by
    rw [Bool.eq_false_iff]
    intro h
    rcases startsLineComment_iff.1 h with rfl | ⟨rfl, -⟩ | ⟨rfl, -⟩ <;> exact absurd hc (by decide)
  have hblock : startsBlockComment (c :: u) = false := by
    rw [Bool.eq_false_iff]
    intro h
    obtain ⟨w, rfl, -⟩ := startsBlockComment_iff.1 h
    exact absurd hc (by decide)
  simp [first, hlayout, hline, hblock, hc]

theorem isClauseLine_of_clauseAt {isKeyword : Text → Bool} {c : CodeUnit} {u : Text} {cl : Clause}
    (hc : isNameStart c = true) (hcl : clauseAt isKeyword (c :: u) = cl) (htext : cl.text = c :: u)
    (hfault : ∀ payload ∈ cl.payload, payload.fault = none) :
    IsClauseLine isKeyword (c :: u) cl := by
  have hfirst : first isKeyword c u = clause cl := by rw [first_of_isNameStart u hc, hcl]
  have hcut : Cut isKeyword (c :: u ++ []) [clause cl] [] := by
    rw [List.append_nil, ← hfirst]
    refine cut_first ?_
    rw [hfirst, List.append_nil]
    exact htext.symm
  intro v hv
  refine hcut.stable ?_ .nil hv
  intro chunk hchunk
  rw [List.mem_singleton.1 hchunk]
  exact hfault

def IsName (name : Text) : Prop :=
  (∃ c u, name = c :: u ∧ isNameStart c = true) ∧ ∀ c ∈ name, isNameUnit c = true

def spaced (name payload : Text) : Text := name ++ (' ' : CodeUnit) :: payload

def braced (body : Text) : Text := Bracket.brace.opening :: (body ++ [Bracket.brace.closing])

theorem isSpace_of_isNameUnit {c : CodeUnit} (h : isNameUnit c = true) : c.isSpace = false := by
  have h0 : CodeUnit.ofChar '0' = 48 := by decide
  have h9 : CodeUnit.ofChar '9' = 57 := by decide
  have hlow : CodeUnit.ofChar '_' = 95 := by decide
  have hdash : CodeUnit.ofChar '-' = 45 := by decide
  cases hspace : c.isSpace with
  | false => rfl
  | true =>
    rw [isNameUnit, CodeUnit.isLetter_of_isSpace hspace] at h
    simp only [CodeUnit.isSpace, CodeUnit.isDigit, h0, h9, hlow, hdash, Bool.or_eq_true,
      Bool.and_eq_true, decide_eq_true_eq, UInt16.le_iff_toNat_le, ← UInt16.toNat_inj,
      Bool.false_eq_true, false_or] at h hspace
    simp at h hspace
    omega

theorem ne_of_isNameUnit {c d : CodeUnit} (h : isNameUnit c = true) (hd : isNameUnit d = false) :
    c ≠ d := by
  rintro rfl
  rw [hd] at h
  cases h

theorem beforeComment_word {word : Text} (h : ∀ c ∈ word, isNameUnit c = true) :
    beforeComment none false word = word := by
  induction word with
  | nil => rfl
  | cons c word ih =>
    have hc := h c List.mem_cons_self
    have hquote : c.isQuote = false := by
      simp [CodeUnit.isQuote, ne_of_isNameUnit hc (by decide : isNameUnit (CodeUnit.ofChar '"') = false),
        ne_of_isNameUnit hc (by decide : isNameUnit (CodeUnit.ofChar '\'') = false)]
    have hblank : c.isBlank = false := by
      simp [CodeUnit.isBlank, ne_of_isNameUnit hc (by decide : isNameUnit (CodeUnit.ofChar ' ') = false),
        ne_of_isNameUnit hc (by decide : isNameUnit (CodeUnit.ofChar '\t') = false)]
    have hrest := ih fun d hd => h d (List.mem_cons_of_mem _ hd)
    rw [beforeComment]
    simp [hquote, hblank, hrest]

section Forms
variable (isKeyword : Text → Bool) {name : Text} (hname : IsName name)
include hname

theorem isClauseLine_bare : IsClauseLine isKeyword name ⟨name, [], none, []⟩ := by
  obtain ⟨⟨c, u, rfl, hc⟩, hunits⟩ := hname
  refine isClauseLine_of_clauseAt hc ?_ (by simp [Clause.text]) (by simp)
  have htake : (c :: u).takeWhile isNameUnit = c :: u := List.takeWhile_eq_self_iff.2 hunits
  have hdrop : (c :: u).dropWhile isNameUnit = [] := List.dropWhile_eq_nil_iff.2 hunits
  simp [clauseAt, htake, hdrop]

theorem cut_spaced {d : CodeUnit} (hd : d.isBlank = false) (rest : Text) :
    (spaced name (d :: rest)).takeWhile isNameUnit = name ∧
      ((spaced name (d :: rest)).dropWhile isNameUnit).takeWhile CodeUnit.isBlank = " " ∧
      ((spaced name (d :: rest)).dropWhile isNameUnit).dropWhile CodeUnit.isBlank = d :: rest := by
  have hspace : isNameUnit (CodeUnit.ofChar ' ') = false := by decide
  have hblank : CodeUnit.isBlank (CodeUnit.ofChar ' ') = true := by decide
  have hunits : Text.ofString " " = [CodeUnit.ofChar ' '] := by decide
  rw [spaced, List.takeWhile_append_of_pos hname.2, List.dropWhile_append_of_pos hname.2]
  simp [hspace, hblank, hd, hunits]

theorem clauseAt_bracketed (bracket : Bracket) (rest : Text) :
    clauseAt isKeyword (spaced name (bracket.opening :: rest)) =
      bracketedClause isKeyword name " " bracket (bracket.opening :: rest) := by
  have hopen : Bracket.ofOpening? bracket.opening = some bracket := by cases bracket <;> decide
  obtain ⟨htake, hgap, hrest⟩ := cut_spaced hname (d := bracket.opening)
    (by cases bracket <;> decide) rest
  unfold clauseAt
  simp only [htake, hgap, hrest, hopen]

theorem cut_bracketed (rest : Text) :
    ∃ v, Cut isKeyword (spaced name (Bracket.brace.opening :: rest))
      [clause (bracketedClause isKeyword name " " .brace (Bracket.brace.opening :: rest))] v := by
  rw [← clauseAt_bracketed isKeyword hname]
  obtain ⟨⟨c, u, rfl, hc⟩, -⟩ := hname
  rw [spaced, List.cons_append, ← first_of_isNameStart _ hc]
  exact ⟨_, .chunk (.done _)⟩

/-- A name with a balanced payload behind it. -/
theorem isClauseLine_around {body : Text} (hbody : Scan.Crosses body) (bracket : Bracket) :
    IsClauseLine isKeyword (spaced name (bracket.around body))
      ⟨name, " ", some ⟨bracket.around body, true, none⟩, []⟩ := by
  have hunits : Text.ofString " " = [CodeUnit.ofChar ' '] := by decide
  have htrim : Text.trimEnd (bracket.around body) = bracket.around body := by
    have hconcat : bracket.around body = (bracket.opening :: body) ++ [bracket.closing] := rfl
    rw [hconcat]
    exact Text.trimEnd_concat (by cases bracket <;> decide)
  have hclause : clauseAt isKeyword (spaced name (bracket.around body)) =
      ⟨name, " ", some ⟨bracket.around body, true, none⟩, []⟩ := by
    have hall : (bracket.around body).take (body.length + 2) = bracket.around body :=
      List.take_of_length_le (by simp [Bracket.around])
    have hnone : (bracket.around body).drop (body.length + 2) = [] :=
      List.drop_eq_nil_of_le (by simp [Bracket.around])
    have hbracketed : bracketedClause isKeyword name " " bracket (bracket.around body) =
        ⟨name, " ", some ⟨bracket.around body, true, none⟩, []⟩ := by
      have htrailing : trailingLength (Text.firstLine []) = 0 := by decide
      have hextent := extent_around hbody bracket (startsCommand isKeyword)
      have hdrop : (bracket.around body).drop 1 = body ++ [bracket.closing] := rfl
      simp only [bracketedClause, hdrop, hextent, hnone, htrailing, Nat.add_zero, hall, htrim,
        List.drop_length]
    exact (clauseAt_bracketed isKeyword hname bracket (body ++ [bracket.closing])).trans hbracketed
  obtain ⟨⟨c, u, rfl, hc⟩, -⟩ := hname
  exact isClauseLine_of_clauseAt hc hclause (by simp [Clause.text, hunits]) (by simp)

theorem isClauseLine_braced {body : Text} (hbody : Scan.Passes body) :
    IsClauseLine isKeyword (spaced name (braced body))
      ⟨name, " ", some ⟨braced body, true, none⟩, []⟩ :=
  isClauseLine_around isKeyword hname hbody.crosses .brace

theorem isClauseLine_word {word : Text} (hword : IsName word) :
    IsClauseLine isKeyword (spaced name word) ⟨name, " ", some ⟨word, false, none⟩, []⟩ := by
  have hunits : Text.ofString " " = [CodeUnit.ofChar ' '] := by decide
  obtain ⟨⟨d, w, rfl, hd⟩, hall⟩ := hword
  have hdUnit := hall d List.mem_cons_self
  have hother : ∀ e : CodeUnit, isNameUnit e = false → d ≠ e := fun e he => ne_of_isNameUnit hdUnit he
  obtain ⟨htake, hgap, hrest⟩ := cut_spaced hname (d := d) (by
    simp [CodeUnit.isBlank, hother _ (by decide : isNameUnit (CodeUnit.ofChar ' ') = false),
      hother _ (by decide : isNameUnit (CodeUnit.ofChar '\t') = false)]) w
  have hopen : Bracket.ofOpening? d = none := by
    simp [Bracket.ofOpening?, hother _ (by decide : isNameUnit Bracket.brace.opening = false),
      hother _ (by decide : isNameUnit Bracket.square.opening = false)]
  have hcomment : startsComment (d :: w) = false := by
    rw [Bool.eq_false_iff]
    intro h
    rw [startsComment, Bool.or_eq_true] at h
    rcases h with h | h
    · rcases startsLineComment_iff.1 h with rfl | ⟨rfl, -⟩ | ⟨rfl, -⟩ <;> exact absurd hd (by decide)
    · obtain ⟨u, rfl, -⟩ := startsBlockComment_iff.1 h
      exact absurd hd (by decide)
  have hline : Text.firstLine (d :: w) = d :: w := Text.firstLine_eq_self fun hmem =>
    absurd (hall _ hmem) (by decide)
  have hcontent : lineContent (d :: w) = d :: w := by
    rw [lineContent, beforeComment_word hall,
      Text.trimEnd_eq_self fun c hc => isSpace_of_isNameUnit (hall c hc)]
  have hclause : clauseAt isKeyword (spaced name (d :: w)) =
      ⟨name, " ", some ⟨d :: w, false, none⟩, []⟩ := by
    unfold clauseAt
    simp only [htake, hgap, hrest, hopen, hcomment, hline,
      hother _ (by decide : isNameUnit (CodeUnit.ofChar '\n') = false),
      hother _ (by decide : isNameUnit (CodeUnit.ofChar '\r') = false)]
    simp [lineClause, hcontent]
  obtain ⟨⟨c, u, rfl, hc⟩, -⟩ := hname
  exact isClauseLine_of_clauseAt hc hclause (by simp [Clause.text, hunits]) (by simp)

end Forms
end Chunk
end QueryLint
