import Mathlib.Data.List.DropRight
import Mathlib.Data.List.Induction
import QueryLint.Proofs.Commands

/-!
Where chunks and lines end.

A chunk is a single unit of layout, or it ends with its line, or its last unit is no layout. Behind
a clause nothing but white space and a comment is left of the line, unless the comment spans lines
or the line is broken by a carriage return alone.
-/

namespace QueryLint
set_option autoImplicit false

theorem CodeUnit.isSpace_of_isLayout {c : CodeUnit} (h : c.isLayout = true) : c.isSpace = true := by
  simp only [isLayout, Bool.or_eq_true, decide_eq_true_eq] at h
  rcases h with ((rfl | rfl) | rfl) | rfl <;> decide

theorem CodeUnit.isLetter_of_isSpace {c : CodeUnit} (h : c.isSpace = true) : c.isLetter = false := by
  have hA : CodeUnit.ofChar 'A' = 65 := by decide
  have hZ : CodeUnit.ofChar 'Z' = 90 := by decide
  have ha : CodeUnit.ofChar 'a' = 97 := by decide
  have hz : CodeUnit.ofChar 'z' = 122 := by decide
  simp only [isSpace, Bool.or_eq_true, Bool.and_eq_true, decide_eq_true_eq, UInt16.le_iff_toNat_le,
    ← UInt16.toNat_inj] at h
  rw [Bool.eq_false_iff]
  simp only [isLetter, isUpper, isLower, hA, hZ, ha, hz, ne_eq, Bool.or_eq_true, Bool.and_eq_true,
    decide_eq_true_eq, UInt16.le_iff_toNat_le]
  simp at h ⊢
  omega

theorem Bracket.isSpace_opening (bracket : Bracket) : bracket.opening.isSpace = false := by
  cases bracket <;> decide

theorem Bracket.isSpace_closing (bracket : Bracket) : bracket.closing.isSpace = false := by
  cases bracket <;> decide

/-- What a clause passes behind the end of its token. -/
def Clause.trail (cl : Clause) : Text :=
  match cl.payload with
  | none => cl.gap ++ cl.tail
  | some _ => cl.tail

theorem Token.start_ofClause (p : Position) (cl : Clause) : (Token.ofClause p cl).start = p := by
  obtain ⟨name, gap, payload, tail⟩ := cl
  cases payload <;> rfl

theorem Token.stop_ofClause (p : Position) (cl : Clause) :
    (Token.ofClause p cl).stop + cl.trail.length = p.offset + cl.text.length := by
  obtain ⟨name, gap, payload, tail⟩ := cl
  cases payload with
  | none =>
    simp [ofClause, Clause.trail, Clause.text]
    omega
  | some payload =>
    simp [ofClause, Clause.trail, Clause.text]
    omega

namespace Chunk

theorem endsLine_of_firstLine {t v : Text} (h : t = Text.firstLine t ++ v) : EndsLine v := by
  obtain ⟨u, ht, hu⟩ := Text.firstLine_append_rest t
  rw [List.append_cancel_left (h.symm.trans ht)]
  exact hu

/-- What belongs to a payload behind its bracket does not end with white space. -/
theorem trailing_end (u : Text) : trailingLength (Text.firstLine u) = 0 ∨
    ∃ (w : Text) (d : CodeUnit), u.take (trailingLength (Text.firstLine u)) = w ++ [d] ∧
      d.isSpace = false := by
  by_cases hzero : trailingLength (Text.firstLine u) = 0
  · exact .inl hzero
  · have htrailing : trailingLength (Text.firstLine u) = (lineContent (Text.firstLine u)).length := by
      unfold trailingLength at hzero ⊢
      dsimp only at hzero ⊢
      split
      · rename_i h
        simp [h] at hzero
      · rfl
    have hcontent : u.take (lineContent (Text.firstLine u)).length = lineContent (Text.firstLine u) :=
      (List.prefix_iff_eq_take.1
        ((lineContent_isPrefix (Text.firstLine u)).trans (List.takeWhile_prefix _))).symm
    rw [htrailing] at hzero ⊢
    rw [hcontent]
    rcases Text.trimEnd_end (beforeComment none false (Text.firstLine u)) with hnil | ⟨w, d, hw, hd⟩
    · exact absurd (by rw [lineContent, hnil]; rfl) hzero
    · exact .inr ⟨w, d, hw, hd⟩

section Bracketed
variable {isKeyword : Text → Bool} {name gap : Text} {bracket : Bracket} {c : CodeUnit} {t : Text}
variable (hfault : ∀ payload ∈ (bracketedClause isKeyword name gap bracket (c :: t)).payload,
  payload.fault = none)
include hfault

/-- A balanced payload and what belongs to it behind its bracket. -/
theorem bracketed_balanced : ∃ (w : Text) (found : Bracket) (u : Text), t = w ++ found.closing :: u ∧
    bracketedLength isKeyword bracket (c :: t) = w.length + 2 + trailingLength (Text.firstLine u) := by
  obtain ⟨w, found, u, ht, hn, -⟩ := Delimiter.Scan.closes_of_run (extent_of_balanced hfault)
  refine ⟨w, found, u, ht, ?_⟩
  have hlength : (Delimiter.extent (startsCommand isKeyword) bracket t).length = w.length + 2 := by omega
  have hdrop : (c :: t).drop (w.length + 2) = u := by
    rw [ht, show c :: (w ++ found.closing :: u) = (c :: w ++ [found.closing]) ++ u by simp]
    exact List.drop_left' (by simp)
  rw [bracketedLength_of_balanced hfault, hlength, hdrop]

theorem bracketed_end : ∃ (w : Text) (d : CodeUnit),
    (c :: t).take (bracketedLength isKeyword bracket (c :: t)) = w ++ [d] ∧ d.isSpace = false := by
  obtain ⟨w, found, u, rfl, hlength⟩ := bracketed_balanced hfault
  have htake : ∀ n, (c :: (w ++ found.closing :: u)).take (w.length + 2 + n) =
      c :: w ++ [found.closing] ++ u.take n := by
    intro n
    rw [show c :: (w ++ found.closing :: u) = (c :: w ++ [found.closing]) ++ u by simp,
      show w.length + 2 + n = (c :: w ++ [found.closing]).length + n by simp, List.take_length_add_append]
  rw [hlength, htake]
  rcases trailing_end u with hzero | ⟨w', d, hw, hd⟩
  · exact ⟨c :: w, found.closing, by simp [hzero], found.isSpace_closing⟩
  · exact ⟨c :: w ++ [found.closing] ++ w', d, by rw [hw, ← List.append_assoc], hd⟩

theorem trimEnd_bracketed : Text.trimEnd ((c :: t).take (bracketedLength isKeyword bracket (c :: t))) =
    (c :: t).take (bracketedLength isKeyword bracket (c :: t)) := by
  obtain ⟨w, d, hraw, hd⟩ := bracketed_end hfault
  rw [hraw, Text.trimEnd_concat hd]

/-- Nothing is cut from the end of a balanced payload. -/
theorem bracketed_trail : (bracketedClause isKeyword name gap bracket (c :: t)).trail = [] := by
  change ((c :: t).take (bracketedLength isKeyword bracket (c :: t))).drop
    (Text.trimEnd ((c :: t).take (bracketedLength isKeyword bracket (c :: t)))).length = []
  rw [trimEnd_bracketed hfault, List.drop_length]

theorem text_of_balanced {payload : PayloadText}
    (h : payload ∈ (bracketedClause isKeyword name gap bracket (c :: t)).payload) :
    payload.text = (c :: t).take (bracketedLength isKeyword bracket (c :: t)) := by
  cases h
  exact trimEnd_bracketed hfault

end Bracketed

theorem throughCommentEnd_end (t : Text) :
    throughCommentEnd t = t ∨ ∃ w : Text, throughCommentEnd t = w ++ [('/' : CodeUnit)] := by
  fun_induction throughCommentEnd t with
  | case1 => exact .inl rfl
  | case2 => exact .inl rfl
  | case3 c d rest hend =>
    simp only [Bool.and_eq_true, decide_eq_true_eq] at hend
    exact .inr ⟨[c], by rw [hend.2]; rfl⟩
  | case4 c d rest hend ih =>
    rcases ih with heq | ⟨w, heq⟩
    · exact .inl (by rw [heq])
    · exact .inr ⟨c :: w, by rw [heq, List.cons_append]⟩

def Ends (chunk : Chunk) (v : Text) : Prop :=
  (∃ d, chunk = skipped [d] ∧ d.isLayout = true) ∨ EndsLine v ∨
    ∃ (w : Text) (d : CodeUnit), chunk.text = w ++ [d] ∧ d.isLayout = false

theorem ClauseForm.ends {isKeyword : Text → Bool} {name blanks rest v : Text} {cl : Clause}
    (h : ClauseForm isKeyword name blanks rest cl)
    (hname : ∃ (w : Text) (d : CodeUnit), name = w ++ [d] ∧ d.isLayout = false)
    (hfault : ∀ payload ∈ cl.payload, payload.fault = none)
    (htext : name ++ blanks ++ rest = cl.text ++ v) : (clause cl).Ends v := by
  cases h with
  | ended => exact .inr (.inr (by simpa [text, Clause.text] using hname))
  | bare => exact .inr (.inr (by simpa [text, Clause.text] using hname))
  | bracketed =>
    obtain ⟨w, d, hraw, hd⟩ := bracketed_end hfault
    refine .inr (.inr ⟨name ++ blanks ++ w, d, ?_, ?_⟩)
    · rw [text, text_bracketedClause, hraw, ← List.append_assoc]
    · cases hlayout : d.isLayout with
      | false => rfl
      | true => rw [CodeUnit.isSpace_of_isLayout hlayout] at hd; cases hd
  | line =>
    rw [text_lineClause, List.append_assoc (name ++ blanks)] at htext
    exact .inr (.inl (endsLine_of_firstLine (List.append_cancel_left htext)))

theorem name_end {t : Text} (h : t.takeWhile isNameUnit ≠ []) :
    ∃ (w : Text) (d : CodeUnit), t.takeWhile isNameUnit = w ++ [d] ∧ d.isLayout = false := by
  rcases List.eq_nil_or_concat (t.takeWhile isNameUnit) with hnil | ⟨w, d, hw⟩
  · exact absurd hnil h
  · refine ⟨w, d, by simpa using hw, ?_⟩
    have hd : isNameUnit d = true := List.mem_takeWhile_imp (by rw [hw]; simp)
    cases hlayout : d.isLayout with
    | false => rfl
    | true =>
      simp only [CodeUnit.isLayout, Bool.or_eq_true, decide_eq_true_eq] at hlayout
      rcases hlayout with ((rfl | rfl) | rfl) | rfl <;> exact absurd hd (by decide)

theorem name_ne_nil {c : CodeUnit} {u : Text} (h : isNameStart c = true) :
    (c :: u).takeWhile isNameUnit ≠ [] := by
  have hletter : c.isLetter = true := h
  simp [isNameUnit, hletter]

inductive FirstForm (isKeyword : Text → Bool) (c : CodeUnit) : Text → Chunk → Prop where
  | layout {u : Text} : c.isLayout = true → FirstForm isKeyword c u (skipped [c])
  | lineComment {u : Text} : startsLineComment (c :: u) = true →
      FirstForm isKeyword c u (skipped (Text.firstLine (c :: u)))
  | blockComment {u : Text} : c = '/' →
      FirstForm isKeyword c (('*' : CodeUnit) :: u) (skipped (c :: '*' :: throughCommentEnd u))
  | stray {u : Text} : isNameStart c = false →
      FirstForm isKeyword c u (stray (Text.firstLine (c :: u)))
  | clause {u : Text} : isNameStart c = true →
      FirstForm isKeyword c u (clause (clauseAt isKeyword (c :: u)))

theorem first_form (isKeyword : Text → Bool) (c : CodeUnit) (u : Text) :
    FirstForm isKeyword c u (first isKeyword c u) := by
  unfold first
  split
  · exact .layout ‹_›
  · split
    · exact .lineComment ‹_›
    · split
      · rename_i hblock
        obtain ⟨u, hc, rfl⟩ := startsBlockComment_iff.1 hblock
        exact .blockComment hc
      · split
        · rename_i hstart
          exact .stray (by simpa using hstart)
        · rename_i hstart
          exact .clause (by simpa using hstart)

theorem first_ends {isKeyword : Text → Bool} {c : CodeUnit} {u v : Text}
    (hsettled : (first isKeyword c u).Settled) (htext : c :: u = (first isKeyword c u).text ++ v) :
    (first isKeyword c u).Ends v := by
  have hform := first_form isKeyword c u
  generalize first isKeyword c u = chunk at hsettled htext hform
  cases hform with
  | layout hc => exact .inl ⟨c, rfl, hc⟩
  | lineComment => exact .inr (.inl (endsLine_of_firstLine htext))
  | @blockComment u =>
    rcases throughCommentEnd_end u with heq | ⟨w, heq⟩
    · rw [text, heq] at htext
      have hv : v = [] := by simpa using htext
      exact .inr (.inl (hv ▸ .nil))
    · exact .inr (.inr ⟨c :: '*' :: w, '/', by simp [text, heq], by decide⟩)
  | stray => exact .inr (.inl (endsLine_of_firstLine htext))
  | clause hstart =>
    refine (clauseAt_form isKeyword (c :: u)).ends (name_end (name_ne_nil hstart)) hsettled ?_
    rw [List.append_assoc, List.takeWhile_append_dropWhile, List.takeWhile_append_dropWhile]
    exact htext

/-- Nothing but white space, and a comment perhaps, stands before the end of the line. -/
def BlankLine (t : Text) : Prop :=
  Text.trimStart (Text.firstLine t) = [] ∨
    startsLineComment (Text.trimStart (Text.firstLine t)) = true

theorem startsLineComment_iff {c : CodeUnit} {t : Text} : startsLineComment (c :: t) = true ↔
    c = '#' ∨ (c = '/' ∧ t.head? = some ('/' : CodeUnit)) ∨
      (c = '-' ∧ t.head? = some ('-' : CodeUnit)) := by
  have hhash : Text.ofString "#" = [CodeUnit.ofChar '#'] := by decide
  have hslash : Text.ofString "//" = [CodeUnit.ofChar '/', CodeUnit.ofChar '/'] := by decide
  have hdash : Text.ofString "--" = [CodeUnit.ofChar '-', CodeUnit.ofChar '-'] := by decide
  cases t with
  | nil => simp [startsLineComment, Text.startsWith, hhash, hslash, hdash, List.isPrefixOf, @eq_comm _ c]
  | cons d t =>
    simp [startsLineComment, Text.startsWith, hhash, hslash, hdash, List.isPrefixOf, @eq_comm _ c,
      @eq_comm _ d, or_assoc]

theorem not_block_of_line {t : Text} (h : startsLineComment t = true) :
    startsBlockComment t = false := by
  cases t with
  | nil => exact absurd h (by decide)
  | cons c t =>
    rw [Bool.eq_false_iff]
    intro hblock
    obtain ⟨u, rfl, rfl⟩ := startsBlockComment_iff.1 hblock
    have hcases := startsLineComment_iff.1 h
    simp only [List.head?_cons, Option.some.injEq] at hcases
    revert hcases
    decide

theorem startsLineComment_firstLine (t : Text) :
    startsLineComment (Text.firstLine t) = startsLineComment t := by
  obtain ⟨v, ht, hv⟩ := Text.firstLine_append_rest t
  rw [← startsLineComment_append hv (Text.firstLine t), ← ht]

theorem cut_first {isKeyword : Text → Bool} {c : CodeUnit} {u v : Text}
    (h : c :: u = (first isKeyword c u).text ++ v) :
    Cut isKeyword (c :: u) [first isKeyword c u] v := by
  refine .chunk ?_
  rw [List.append_cancel_left ((first_append_drop isKeyword c u).trans h)]
  exact .done v

/-- The rest of the line is cut into chunks that are no clauses. -/
def SkipsLine (isKeyword : Text → Bool) (t : Text) : Prop :=
  ∃ (cs : List Chunk) (v : Text), Cut isKeyword t cs v ∧ EndsLine v ∧ texts cs = Text.firstLine t ∧
    ∀ chunk ∈ cs, chunk.Settled ∧ ¬chunk.IsClause

theorem firstLine_cons {c : CodeUnit} (hbreak : c ≠ '\n') (t : Text) :
    Text.firstLine (c :: t) = c :: Text.firstLine t := by
  simp [Text.firstLine, hbreak]

section Skips
variable {isKeyword : Text → Bool} {c : CodeUnit} {t : Text}

theorem skipsLine_whole {chunk : Chunk} (hfirst : first isKeyword c t = chunk)
    (htext : chunk.text = Text.firstLine (c :: t)) (hchunk : chunk.Settled ∧ ¬chunk.IsClause) :
    SkipsLine isKeyword (c :: t) := by
  obtain ⟨rest, hrest, hends⟩ := Text.firstLine_append_rest (c :: t)
  subst hfirst
  refine ⟨[first isKeyword c t], rest, cut_first (by rw [htext]; exact hrest), hends, ?_, by simpa⟩
  rw [texts_cons, texts_nil, List.append_nil, htext]

theorem skipsLine_layout (hlayout : c.isLayout = true) (hbreak : c ≠ '\n') (h : SkipsLine isKeyword t) :
    SkipsLine isKeyword (c :: t) := by
  have hfirst : first isKeyword c t = skipped [c] := by simp [first, hlayout]
  obtain ⟨cs, v, hcut, hv, htexts, hcs⟩ := h
  refine ⟨skipped [c] :: cs, v, ?_, hv, by rw [texts_cons, htexts, firstLine_cons hbreak]; rfl, ?_⟩
  · rw [← hfirst]
    refine .chunk ?_
    rw [hfirst]
    exact hcut
  · refine List.forall_mem_cons.2 ⟨⟨fun hblock => ?_, id⟩, hcs⟩
    obtain ⟨u, -, hu⟩ := startsBlockComment_iff.1 hblock
    cases hu

theorem skipsLine_comment (hlayout : ¬c.isLayout = true) (hcomment : startsLineComment (c :: t) = true) :
    SkipsLine isKeyword (c :: t) := by
  have hfirst : first isKeyword c t = skipped (Text.firstLine (c :: t)) := by
    simp [first, hlayout, hcomment]
  refine skipsLine_whole hfirst rfl ⟨fun hblock => ?_, id⟩
  · rw [not_block_of_line (by rwa [startsLineComment_firstLine])] at hblock
    cases hblock

/-- White space in the wide sense starts a stray line. -/
theorem skipsLine_space (hspace : c.isSpace = true) (hlayout : ¬c.isLayout = true)
    (hcomment : ¬startsLineComment (c :: t) = true) : SkipsLine isKeyword (c :: t) := by
  have hfirst : first isKeyword c t = stray (Text.firstLine (c :: t)) := by
    have hform := first_form isKeyword c t
    generalize first isKeyword c t = chunk at hform ⊢
    cases hform with
    | layout h => exact absurd h hlayout
    | lineComment h => exact absurd h hcomment
    | blockComment hslash =>
      rw [hslash] at hspace
      exact absurd hspace (by decide)
    | stray => rfl
    | clause h =>
      rw [isNameStart, CodeUnit.isLetter_of_isSpace hspace] at h
      cases h
  exact skipsLine_whole hfirst rfl ⟨trivial, id⟩

end Skips

theorem BlankLine.tail {c : CodeUnit} {t : Text} (h : BlankLine (c :: t)) (hlayout : c.isLayout = true)
    (hbreak : c ≠ '\n') : BlankLine t := by
  have hspace := CodeUnit.isSpace_of_isLayout hlayout
  simpa [BlankLine, firstLine_cons hbreak, Text.trimStart, hspace] using h

theorem BlankLine.isSpace {c : CodeUnit} {t : Text} (h : BlankLine (c :: t)) (hbreak : c ≠ '\n')
    (hcomment : ¬startsLineComment (c :: t) = true) : c.isSpace = true := by
  cases hspace : c.isSpace with
  | true => rfl
  | false =>
    have htrim : Text.trimStart (Text.firstLine (c :: t)) = Text.firstLine (c :: t) := by
      rw [firstLine_cons hbreak]
      simp [Text.trimStart, hspace]
    rw [BlankLine, htrim, startsLineComment_firstLine, firstLine_cons hbreak] at h
    rcases h with h | h
    · cases h
    · exact absurd h hcomment

/-- The end of such a line is skipped or stray. -/
theorem cut_blankLine (isKeyword : Text → Bool) {t : Text} (h : BlankLine t) : SkipsLine isKeyword t := by
  induction t with
  | nil => exact ⟨[], [], .done [], .nil, rfl, by simp⟩
  | cons c t ih =>
    by_cases hbreak : c = CodeUnit.ofChar '\n'
    · subst hbreak
      exact ⟨[], _, .done _, .lineBreak t, by simp [Text.firstLine], by simp⟩
    by_cases hlayout : c.isLayout = true
    · exact skipsLine_layout hlayout hbreak (ih (h.tail hlayout hbreak))
    by_cases hcomment : startsLineComment (c :: t) = true
    · exact skipsLine_comment hlayout hcomment
    · exact skipsLine_space (h.isSpace hbreak hcomment) hlayout hcomment

theorem cut_last {isKeyword : Text → Bool} {t v : Text} {cs : List Chunk} {chunk : Chunk}
    (h : Cut isKeyword t (cs ++ [chunk]) v) (hsettled : chunk.Settled) :
    Cut isKeyword t cs (chunk.text ++ v) ∧ chunk.Ends v := by
  obtain ⟨u, hcs, hchunk⟩ := h.append_inv
  have htext := hchunk.text_eq
  simp only [texts_cons, texts_nil, List.append_nil] at htext
  rw [← htext]
  refine ⟨hcs, ?_⟩
  cases hchunk with
  | chunk => exact first_ends hsettled htext

/-- Blanks that more text follows are cut into single units. -/
theorem cut_blanks {isKeyword : Text → Bool} {t v lead blanks : Text} {cs : List Chunk}
    (h : Cut isKeyword t cs v) (hsettled : ∀ chunk ∈ cs, chunk.Settled) (hv : ¬EndsLine v)
    (htexts : texts cs = lead ++ blanks) (hblanks : ∀ c ∈ blanks, CodeUnit.isBlank c = true) :
    ∃ xs ys, cs = xs ++ ys ∧ texts xs = lead ∧ texts ys = blanks ∧
      ∀ chunk ∈ ys, ¬chunk.IsClause := by
  induction blanks using List.reverseRecOn generalizing cs v with
  | nil => exact ⟨cs, [], by simp, by simpa using htexts, rfl, by simp⟩
  | append_singleton blanks b ih =>
    have hb := hblanks b (by simp)
    have hlayout : b.isLayout = true := by
      simp only [CodeUnit.isBlank, Bool.or_eq_true, decide_eq_true_eq] at hb
      rcases hb with rfl | rfl <;> decide
    have hbreak : b ≠ CodeUnit.ofChar '\n' := by
      rintro rfl
      exact absurd hb (by decide)
    rcases List.eq_nil_or_concat cs with rfl | ⟨cs, chunk, rfl⟩
    · simp at htexts
    rw [List.concat_eq_append] at h hsettled htexts ⊢
    obtain ⟨hcs, hends⟩ := cut_last h (hsettled chunk (by simp))
    have hsingle : chunk = skipped [b] := by
      rcases hends with ⟨d, rfl, -⟩ | hends | ⟨w, d, hw, hd⟩
      · have hlast := congrArg List.getLast? htexts
        simp only [texts_append, texts_cons, texts_nil, text, ← List.append_assoc,
          List.getLast?_append, List.getLast?_singleton, List.append_nil] at hlast
        simp at hlast
        rw [hlast]
      · exact absurd hends hv
      · have hlast := congrArg List.getLast? htexts
        simp [hw, ← List.append_assoc] at hlast
        rw [hlast, hlayout] at hd
        cases hd
    subst hsingle
    have hfront : texts cs = lead ++ blanks := by
      rw [texts_append, texts_cons, texts_nil, List.append_nil, ← List.append_assoc] at htexts
      exact List.append_cancel_right htexts
    obtain ⟨xs, ys, rfl, hxs, hys, hclauses⟩ := ih hcs (fun chunk hchunk => hsettled chunk (by simp [hchunk]))
      (fun hends => hbreak (hends b rfl)) hfront (fun c hc => hblanks c (by simp [hc]))
    refine ⟨xs, ys ++ [skipped [b]], by simp, hxs, by simp [hys, text], ?_⟩
    intro chunk hchunk
    rcases List.mem_append.1 hchunk with hchunk | hchunk
    · exact hclauses chunk hchunk
    · rw [List.mem_singleton.1 hchunk]
      exact id

theorem contains_append_eq_false {a b part : Text} (h : Text.contains (a ++ b) part = false) :
    Text.contains a part = false ∧ Text.contains b part = false := by
  induction a with
  | nil =>
    refine ⟨?_, h⟩
    rw [List.nil_append, Text.contains.eq_def, Bool.or_eq_false_iff] at h
    cases part with
    | nil => exact absurd h.1 (by simp [List.isPrefixOf])
    | cons d part => rfl
  | cons c a ih =>
    rw [List.cons_append, Text.contains, Bool.or_eq_false_iff] at h
    obtain ⟨ha, hb⟩ := ih h.2
    refine ⟨?_, hb⟩
    rw [Text.contains, Bool.or_eq_false_iff]
    refine ⟨?_, ha⟩
    rw [Bool.eq_false_iff, ne_eq, List.isPrefixOf_iff_prefix] at h ⊢
    exact fun hlead => h.1 (hlead.trans (List.prefix_append _ _))

theorem startsComment_eq {t : Text} (h : Text.contains t "/*" = false) :
    startsComment t = startsLineComment t := by
  have hblock : startsBlockComment t = false := by
    rw [Text.contains.eq_def, Bool.or_eq_false_iff] at h
    exact h.1
  rw [startsComment, hblock, Bool.or_false]

/-- No block comment starts in the text, and a carriage return stands only right before a line break.
Commands of such a text have lines of their own. -/
structure Plain (t : Text) : Prop where
  comments : Text.contains t "/*" = false
  returns : ∀ a b : Text, t = a ++ ('\r' : CodeUnit) :: b → ∃ b' : Text, b = ('\n' : CodeUnit) :: b'

theorem plain_of_free {t : Text} (hcomments : Text.contains t "/*" = false)
    (hreturns : CodeUnit.ofChar '\r' ∉ t) : Plain t := by
  refine ⟨hcomments, ?_⟩
  rintro a b rfl
  simp at hreturns

theorem Plain.of_append {a b : Text} (h : Plain (a ++ b)) : Plain b where
  comments := (contains_append_eq_false h.comments).2
  returns x y hxy := h.returns (a ++ x) y (by rw [hxy, List.append_assoc])

theorem trimStart_append {spaces : Text} (h : ∀ c ∈ spaces, CodeUnit.isSpace c = true) (t : Text) :
    Text.trimStart (spaces ++ t) = Text.trimStart t :=
  List.dropWhile_append_of_pos h

theorem trimStart_eq_nil {spaces : Text} (h : ∀ c ∈ spaces, CodeUnit.isSpace c = true) :
    Text.trimStart spaces = [] := by
  have happend := trimStart_append h []
  rwa [List.append_nil] at happend

theorem trimStart_comment {t : Text} (h : startsLineComment t = true) : Text.trimStart t = t := by
  cases t with
  | nil => rfl
  | cons c t =>
    have hspace : c.isSpace = false := by
      rcases startsLineComment_iff.1 h with rfl | ⟨rfl, -⟩ | ⟨rfl, -⟩ <;> decide
    simp [Text.trimStart, hspace]

theorem beforeComment_rest (quote : Option CodeUnit) (behindBlank : Bool) (line : Text) :
    ∃ rest, line = beforeComment quote behindBlank line ++ rest ∧
      (rest = [] ∨ startsComment rest = true) := by
  fun_induction beforeComment quote behindBlank line with
  | case1 => exact ⟨[], rfl, .inl rfl⟩
  | case2 => exact ⟨[], rfl, .inl rfl⟩
  | case6 _ c rest _ hcomment =>
    simp only [Bool.and_eq_true] at hcomment
    exact ⟨c :: rest, rfl, .inr hcomment.2⟩
  | _ =>
    rename_i ih
    obtain ⟨rest, hrest, hend⟩ := ih
    exact ⟨rest, by simp only [List.cons_append, ← hrest], hend⟩

/-- What is left of a line behind its content: white space and perhaps a comment. -/
theorem exists_behind_content (line : Text) :
    ∃ spaces rest : Text, line.drop (lineContent line).length = spaces ++ rest ∧
      (∀ c ∈ spaces, CodeUnit.isSpace c = true) ∧ (rest = [] ∨ startsComment rest = true) := by
  obtain ⟨rest, hline, hrest⟩ := beforeComment_rest none false line
  obtain ⟨spaces, hbefore, hspaces⟩ := Text.trimEnd_append_rest (beforeComment none false line)
  refine ⟨spaces, rest, ?_, hspaces, hrest⟩
  have hwhole : line = lineContent line ++ (spaces ++ rest) := by
    rw [← List.append_assoc, lineContent, ← hbefore, ← hline]
  have hlead := append_drop_of_isPrefix (lineContent_isPrefix line)
  exact List.append_cancel_left (hlead.trans hwhole)

theorem blank_behind_content {line : Text} (h : Text.contains line "/*" = false) :
    Text.trimStart (line.drop (lineContent line).length) = [] ∨
      startsLineComment (Text.trimStart (line.drop (lineContent line).length)) = true := by
  obtain ⟨spaces, rest, hdrop, hspaces, hrest⟩ := exists_behind_content line
  rw [← append_drop_of_isPrefix (lineContent_isPrefix line), hdrop] at h
  have hcomments := (contains_append_eq_false (contains_append_eq_false h).2).2
  rw [hdrop, trimStart_append hspaces]
  rcases hrest with rfl | hrest
  · exact .inl rfl
  · rw [startsComment_eq hcomments] at hrest
    exact .inr (by rwa [trimStart_comment hrest])

theorem blankLine_append {w v : Text} (hv : EndsLine v) (hw : CodeUnit.ofChar '\n' ∉ w)
    (h : Text.trimStart w = [] ∨ startsLineComment (Text.trimStart w) = true) :
    BlankLine (w ++ v) := by
  rw [BlankLine, hv.firstLine_append, Text.firstLine_eq_self hw]
  exact h

theorem blankLine_of_endsLine {v : Text} (hv : EndsLine v) : BlankLine v := by
  have hline := hv.firstLine_append []
  rw [List.nil_append] at hline
  rw [BlankLine, hline]
  exact .inl rfl

theorem isSpace_of_isBlank {c : CodeUnit} (h : c.isBlank = true) : c.isSpace = true := by
  simp only [CodeUnit.isBlank, Bool.or_eq_true, decide_eq_true_eq] at h
  rcases h with rfl | rfl <;> decide

theorem startsLineComment_of_isPrefix {t u : Text} (h : t <+: u) (ht : startsLineComment t = true) :
    startsLineComment u = true := by
  simp only [startsLineComment, Text.startsWith, Bool.or_eq_true, List.isPrefixOf_iff_prefix] at ht ⊢
  exact ht.imp (.imp (·.trans h) (·.trans h)) (·.trans h)

/-- A line is blank when nothing belongs to the payload before it. -/
theorem blank_of_trimmed {line : Text} (hline : Text.contains line "/*" = false)
    (h : ((Text.trim line).isEmpty || startsComment (Text.trim line)) = true) :
    Text.trimStart line = [] ∨ startsLineComment (Text.trimStart line) = true := by
  obtain ⟨spaces, htrim, hspaces⟩ := Text.trimEnd_append_rest (Text.trimStart line)
  rw [Bool.or_eq_true, List.isEmpty_iff] at h
  rcases h with hnil | hcomment
  · rw [Text.trim] at hnil
    rw [hnil, List.nil_append] at htrim
    rw [← htrim] at hspaces
    have hagain : Text.trimStart (Text.trimStart line) = Text.trimStart line := by
      exact List.dropWhile_idempotent CodeUnit.isSpace line
    exact .inl (by rw [← hagain, trimStart_eq_nil hspaces])
  · have hstart : Text.contains (Text.trimStart line) "/*" = false := by
      rw [← List.takeWhile_append_dropWhile (p := CodeUnit.isSpace) (l := line)] at hline
      exact (contains_append_eq_false hline).2
    have hpart : Text.contains (Text.trim line) "/*" = false := by
      rw [htrim] at hstart
      exact (contains_append_eq_false hstart).1
    rw [startsComment_eq hpart] at hcomment
    exact .inr (startsLineComment_of_isPrefix (trimEnd_isPrefix _) hcomment)

/-- Behind the trailing part of a balanced payload the line is blank. -/
theorem blankLine_behind_trailing {u : Text} (h : Text.contains u "/*" = false) :
    BlankLine (u.drop (trailingLength (Text.firstLine u))) := by
  obtain ⟨v, hu, hv⟩ := Text.firstLine_append_rest u
  have hfree := Text.firstLine_free u
  generalize Text.firstLine u = line at hu hfree
  subst hu
  have hline := (contains_append_eq_false h).1
  rw [List.drop_append_of_le_length (trailingLength_le line)]
  refine blankLine_append hv (fun hmem => hfree (List.mem_of_mem_drop hmem)) ?_
  unfold trailingLength
  dsimp only
  split
  · exact blank_of_trimmed hline ‹_›
  · exact blank_behind_content hline

theorem trail_lineClause (name blanks line : Text) :
    (lineClause name blanks line).trail = line.drop (lineContent line).length ∨
      (lineClause name blanks line).trail = blanks ++ line.drop (lineContent line).length := by
  unfold lineClause Clause.trail
  dsimp only
  by_cases hempty : (lineContent line).isEmpty = true
  · exact .inr (by simp [hempty])
  · exact .inl (by simp [hempty])

theorem blankLine_bare {blanks u : Text} {c : CodeUnit} (hblanks : ∀ c ∈ blanks, CodeUnit.isBlank c = true)
    (hplain : Plain (c :: u)) (hend : c = '\n' ∨ c = '\r' ∨ startsComment (c :: u) = true) :
    BlankLine (blanks ++ c :: u) := by
  have hspaces : ∀ c ∈ blanks, CodeUnit.isSpace c = true := fun c hc => isSpace_of_isBlank (hblanks c hc)
  have hfree : CodeUnit.ofChar '\n' ∉ blanks := fun hmem => absurd (hblanks _ hmem) (by decide)
  rcases hend with rfl | rfl | hcomment
  · exact blankLine_append (.lineBreak u) hfree (.inl (trimStart_eq_nil hspaces))
  · obtain ⟨u, rfl⟩ := hplain.returns [] u rfl
    have hreturn : ∀ c ∈ blanks ++ [CodeUnit.ofChar '\r'], CodeUnit.isSpace c = true := by
      intro c hc
      rcases List.mem_append.1 hc with hc | hc
      · exact hspaces c hc
      · rw [List.mem_singleton.1 hc]
        decide
    have hblank := blankLine_append (.lineBreak u)
      (by simpa using ⟨hfree, by decide⟩)
      (.inl (trimStart_eq_nil hreturn))
    rwa [List.append_assoc] at hblank
  · obtain ⟨x, hx, hends⟩ := Text.firstLine_append_rest (c :: u)
    rw [startsComment_eq hplain.comments] at hcomment
    rw [hx, ← List.append_assoc]
    refine blankLine_append hends ?_ (.inr ?_)
    · rw [List.mem_append, not_or]
      exact ⟨hfree, Text.firstLine_free _⟩
    · rw [← startsLineComment_firstLine] at hcomment
      rwa [trimStart_append hspaces, trimStart_comment hcomment]

/-- Behind the content of a line nothing belongs to the clause, whether blanks were passed before it or
not. -/
theorem blankLine_line {name blanks rest v : Text} (hblanks : ∀ c ∈ blanks, CodeUnit.isBlank c = true)
    (hcomments : Text.contains rest "/*" = false) (hends : EndsLine v) :
    BlankLine ((lineClause name blanks (Text.firstLine rest)).trail ++ v) := by
  have hspaces : ∀ c ∈ blanks, CodeUnit.isSpace c = true := fun c hc => isSpace_of_isBlank (hblanks c hc)
  have hfree : CodeUnit.ofChar '\n' ∉ blanks := fun hmem => absurd (hblanks _ hmem) (by decide)
  obtain ⟨x, hx, -⟩ := Text.firstLine_append_rest rest
  rw [hx] at hcomments
  have hblank := blank_behind_content (contains_append_eq_false hcomments).1
  have hdrop : CodeUnit.ofChar '\n' ∉ (Text.firstLine rest).drop (lineContent (Text.firstLine rest)).length :=
    fun hmem => Text.firstLine_free _ (List.mem_of_mem_drop hmem)
  rcases trail_lineClause name blanks (Text.firstLine rest) with htrail | htrail
  · rw [htrail]
    exact blankLine_append hends hdrop hblank
  · rw [htrail]
    refine blankLine_append hends ?_ ?_
    · rw [List.mem_append, not_or]
      exact ⟨hfree, hdrop⟩
    · rwa [trimStart_append hspaces]

theorem ClauseForm.blankLine {isKeyword : Text → Bool} {name blanks rest v : Text} {cl : Clause}
    (h : ClauseForm isKeyword name blanks rest cl)
    (hblanks : ∀ c ∈ blanks, CodeUnit.isBlank c = true)
    (hfault : ∀ payload ∈ cl.payload, payload.fault = none) (hplain : Plain rest)
    (htext : name ++ blanks ++ rest = cl.text ++ v) : BlankLine (cl.trail ++ v) := by
  cases h with
  | ended =>
    have hv : v = blanks := by simpa [Clause.text] using htext.symm
    have hfree : CodeUnit.ofChar '\n' ∉ blanks := fun hmem => absurd (hblanks _ hmem) (by decide)
    have hspaces := trimStart_eq_nil fun c hc => isSpace_of_isBlank (hblanks c hc)
    have hblank := blankLine_append .nil hfree (.inl hspaces)
    rwa [List.append_nil, ← hv] at hblank
  | @bare c u _ hend =>
    have hv : v = blanks ++ c :: u := by simpa [Clause.text] using htext.symm
    rw [hv]
    exact blankLine_bare hblanks hplain hend
  | @bracketed c u bracket =>
    rw [text_bracketedClause, List.append_assoc (name ++ blanks)] at htext
    have hv : v = (c :: u).drop (bracketedLength isKeyword bracket (c :: u)) := by
      have hrest := List.append_cancel_left htext
      have hsplit := List.take_append_drop (bracketedLength isKeyword bracket (c :: u)) (c :: u)
      exact (List.append_cancel_left (hsplit.trans hrest)).symm
    rw [bracketed_trail hfault, List.nil_append, hv]
    obtain ⟨w, found, u, rfl, hlength⟩ := bracketed_balanced hfault
    have hwhole : c :: (w ++ found.closing :: u) = (c :: w ++ [found.closing]) ++ u := by simp
    rw [hlength, hwhole, ← List.drop_drop, List.drop_left' (by simp)]
    rw [hwhole] at hplain
    exact blankLine_behind_trailing (contains_append_eq_false hplain.comments).2
  | @line c u =>
    rw [text_lineClause, List.append_assoc (name ++ blanks)] at htext
    exact blankLine_line hblanks hplain.comments (endsLine_of_firstLine (List.append_cancel_left htext))

theorem ClauseForm.trail {isKeyword : Text → Bool} {name blanks rest v : Text} {cl : Clause}
    (h : ClauseForm isKeyword name blanks rest cl)
    (hfault : ∀ payload ∈ cl.payload, payload.fault = none)
    (htext : name ++ blanks ++ rest = cl.text ++ v) : cl.trail = [] ∨ EndsLine v := by
  cases h with
  | ended => exact .inl rfl
  | bare => exact .inl rfl
  | bracketed => exact .inl (bracketed_trail hfault)
  | line =>
    rw [text_lineClause, List.append_assoc (name ++ blanks)] at htext
    exact .inr (endsLine_of_firstLine (List.append_cancel_left htext))

/-- The text behind a clause of a plain text, from the end of its token on. -/
theorem clauseAt_blankLine {isKeyword : Text → Bool} {t v : Text} (hplain : Plain t)
    (hfault : ∀ payload ∈ (clauseAt isKeyword t).payload, payload.fault = none)
    (htext : t = (clauseAt isKeyword t).text ++ v) :
    BlankLine ((clauseAt isKeyword t).trail ++ v) := by
  have hform := clauseAt_form isKeyword t
  have hwhole : t.takeWhile isNameUnit ++ (t.dropWhile isNameUnit).takeWhile CodeUnit.isBlank ++
      (t.dropWhile isNameUnit).dropWhile CodeUnit.isBlank = t := by
    rw [List.append_assoc, List.takeWhile_append_dropWhile, List.takeWhile_append_dropWhile]
  refine hform.blankLine (fun c hc => List.mem_takeWhile_imp hc) hfault ?_ (hwhole.trans htext)
  rw [← hwhole] at hplain
  exact hplain.of_append

theorem first_ends_plain {isKeyword : Text → Bool} {c : CodeUnit} {u v : Text} (hplain : Plain (c :: u))
    (hsettled : (first isKeyword c u).Settled) (htext : c :: u = (first isKeyword c u).text ++ v) :
    (∃ d, first isKeyword c u = skipped [d] ∧ d.isLayout = true) ∨ BlankLine v := by
  have hform := first_form isKeyword c u
  generalize first isKeyword c u = chunk at hsettled htext hform
  cases hform with
  | layout hc => exact .inl ⟨c, rfl, hc⟩
  | lineComment => exact .inr (blankLine_of_endsLine (endsLine_of_firstLine htext))
  | @blockComment u hc =>
    have hcomments := hplain.comments
    rw [Text.contains, Bool.or_eq_false_iff] at hcomments
    have hblock : startsBlockComment (c :: '*' :: u) = true := startsBlockComment_iff.2 ⟨u, hc, rfl⟩
    rw [startsBlockComment, Text.startsWith, hcomments.1] at hblock
    cases hblock
  | stray => exact .inr (blankLine_of_endsLine (endsLine_of_firstLine htext))
  | clause hstart =>
    have hform := clauseAt_form isKeyword (c :: u)
    have hwhole : (c :: u).takeWhile isNameUnit ++
        ((c :: u).dropWhile isNameUnit).takeWhile CodeUnit.isBlank ++
        ((c :: u).dropWhile isNameUnit).dropWhile CodeUnit.isBlank = c :: u := by
      rw [List.append_assoc, List.takeWhile_append_dropWhile, List.takeWhile_append_dropWhile]
    rcases hform.trail hsettled (hwhole.trans htext) with htail | hv
    · have hblank := clauseAt_blankLine hplain hsettled htext
      rw [htail] at hblank
      exact .inr hblank
    · exact .inr (blankLine_of_endsLine hv)

/-- A clause is next, behind blanks perhaps. -/
def Upcoming (v : Text) : Prop :=
  ∃ (blanks : Text) (c : CodeUnit) (u : Text), v = blanks ++ c :: u ∧
    (∀ b ∈ blanks, CodeUnit.isBlank b = true) ∧ isNameStart c = true

theorem Upcoming.not_blankLine {v : Text} (h : Upcoming v) : ¬BlankLine v := by
  obtain ⟨blanks, c, u, rfl, hblanks, hc⟩ := h
  have hspaces : ∀ b ∈ blanks, CodeUnit.isSpace b = true := fun b hb =>
    isSpace_of_isBlank (hblanks b hb)
  have hbreak : c ≠ CodeUnit.ofChar '\n' := by
    rintro rfl
    exact absurd hc (by decide)
  have hfree : CodeUnit.ofChar '\n' ∉ blanks ++ c :: Text.firstLine u := by
    rw [List.mem_append, List.mem_cons, not_or, not_or]
    exact ⟨fun hmem => absurd (hblanks _ hmem) (by decide), Ne.symm hbreak, Text.firstLine_free u⟩
  have hline : Text.firstLine (blanks ++ c :: u) = blanks ++ c :: Text.firstLine u := by
    obtain ⟨x, hx, hends⟩ := Text.firstLine_append_rest u
    have hwhole : blanks ++ c :: u = (blanks ++ c :: Text.firstLine u) ++ x := by
      rw [List.append_assoc, List.cons_append, ← hx]
    rw [hwhole, hends.firstLine_append, Text.firstLine_eq_self hfree]
  have hspace : c.isSpace = false := by
    cases hspace : c.isSpace with
    | false => rfl
    | true =>
      rw [isNameStart, CodeUnit.isLetter_of_isSpace hspace] at hc
      cases hc
  have htrim : Text.trimStart (blanks ++ c :: Text.firstLine u) = c :: Text.firstLine u := by
    rw [trimStart_append hspaces]
    simp [Text.trimStart, hspace]
  rw [BlankLine, hline, htrim]
  rintro (hnil | hcomment)
  · cases hnil
  · rcases startsLineComment_iff.1 hcomment with rfl | ⟨rfl, -⟩ | ⟨rfl, -⟩ <;>
      exact absurd hc (by decide)

/-- The text is empty or ends with a line break. -/
def AtLineStart (t : Text) : Prop := t = [] ∨ ∃ u : Text, t = u ++ [('\n' : CodeUnit)]

/-- In a plain text nothing but blanks stands before a clause in its line. -/
theorem lead_of_plain {isKeyword : Text → Bool} {t v : Text} {cs : List Chunk}
    (h : Cut isKeyword t cs v) (hsettled : ∀ chunk ∈ cs, chunk.Settled) (hplain : Plain t)
    (hv : Upcoming v) :
    ∃ lead blanks, texts cs = lead ++ blanks ∧ AtLineStart lead ∧
      ∀ c ∈ blanks, CodeUnit.isBlank c = true := by
  induction cs using List.reverseRecOn generalizing v with
  | nil => exact ⟨[], [], rfl, .inl rfl, by simp⟩
  | append_singleton cs chunk ih =>
    obtain ⟨u, hcs, hchunk⟩ := h.append_inv
    have htext := hchunk.text_eq
    simp only [texts_cons, texts_nil, List.append_nil] at htext
    have hplainRest : Plain u := (hcs.text_eq ▸ hplain).of_append
    obtain ⟨d, rfl, hd⟩ : ∃ d, chunk = skipped [d] ∧ d.isLayout = true := by
      cases hchunk with
      | chunk =>
        rcases first_ends_plain hplainRest (hsettled _ (by simp)) htext with hlayout | hblank
        · exact hlayout
        · exact absurd hblank hv.not_blankLine
    have hsplit : texts (cs ++ [skipped [d]]) = texts cs ++ [d] := by simp [text]
    rw [hsplit]
    simp only [CodeUnit.isLayout, Bool.or_eq_true, decide_eq_true_eq] at hd
    have hrec : CodeUnit.isBlank d = true → ∃ lead blanks, texts cs ++ [d] = lead ++ blanks ∧
        AtLineStart lead ∧ ∀ c ∈ blanks, CodeUnit.isBlank c = true := by
      intro hblank
      have hupcoming : Upcoming (d :: v) := by
        obtain ⟨blanks, c, w, rfl, hblanks, hc⟩ := hv
        refine ⟨d :: blanks, c, w, rfl, ?_, hc⟩
        intro b hb
        rcases List.mem_cons.1 hb with rfl | hb
        · exact hblank
        · exact hblanks b hb
      obtain ⟨lead, blanks, htexts, hlead, hblanks⟩ :=
        ih (by rw [htext] at hcs; exact hcs) (fun chunk hchunk => hsettled chunk (by simp [hchunk]))
          hupcoming
      refine ⟨lead, blanks ++ [d], by rw [htexts, List.append_assoc], hlead, ?_⟩
      intro c hc
      rcases List.mem_append.1 hc with hc | hc
      · exact hblanks c hc
      · rw [List.mem_singleton.1 hc]
        exact hblank
    rcases hd with ((rfl | rfl) | rfl) | rfl
    · exact hrec (by decide)
    · exact hrec (by decide)
    · exact ⟨texts cs ++ [CodeUnit.ofChar '\n'], [], by simp, .inr ⟨_, rfl⟩, by simp⟩
    · obtain ⟨w, hw⟩ := hplainRest.returns [] v htext
      exact absurd (blankLine_of_endsLine (hw ▸ EndsLine.lineBreak w)) hv.not_blankLine

end Chunk
end QueryLint
