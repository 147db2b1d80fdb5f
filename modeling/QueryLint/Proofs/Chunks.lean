import QueryLint.Proofs.Delimiter.Units
import QueryLint.Proofs.Lines

/-!
Chunks of a text.

The chunks of a text concatenate to it. A chunk that is settled, which means that its brackets are
balanced or its comment is closed, stays as it is when the text behind the end of its line changes:
so the chunks of a text up to the end of a line are the same whatever follows.
-/

namespace QueryLint
set_option autoImplicit false

namespace Chunk

theorem trimEnd_isPrefix (t : Text) : Text.trimEnd t <+: t := by
  obtain ⟨spaces, ht, -⟩ := Text.trimEnd_append_rest t
  exact ⟨spaces, ht.symm⟩

theorem append_drop_of_isPrefix {t u : Text} (h : t <+: u) : t ++ u.drop t.length = u := by
  obtain ⟨v, rfl⟩ := h
  simp

theorem beforeComment_isPrefix (quote : Option CodeUnit) (behindBlank : Bool) (line : Text) :
    beforeComment quote behindBlank line <+: line := by
  fun_induction beforeComment quote behindBlank line with
  | case1 => exact List.prefix_rfl
  | case2 => exact List.prefix_rfl
  | case3 => rename_i ih; simpa using ih
  | case4 => rename_i ih; simpa using ih
  | case5 => rename_i ih; simpa using ih
  | case6 => exact List.nil_prefix
  | case7 => rename_i ih; simpa using ih

theorem lineContent_isPrefix (line : Text) : lineContent line <+: line :=
  (trimEnd_isPrefix _).trans (beforeComment_isPrefix none false line)

/-- How many units a bracketed payload takes. -/
def bracketedLength (isKeyword : Text → Bool) (bracket : Bracket) (t : Text) : Nat :=
  let extent := Delimiter.extent (startsCommand isKeyword) bracket (t.drop 1)
  match extent.fault with
  | some _ => extent.length
  | none => extent.length + trailingLength (Text.firstLine (t.drop extent.length))

theorem trailingLength_le (line : Text) : trailingLength line ≤ line.length := by
  unfold trailingLength
  dsimp only
  split
  · exact Nat.zero_le _
  · exact (lineContent_isPrefix line).length_le

/-- A bracketed payload takes what the scanner passes. -/
theorem extent_le_bracketedLength (isKeyword : Text → Bool) (bracket : Bracket) (c : CodeUnit) (t : Text) :
    (Delimiter.extent (startsCommand isKeyword) bracket t).length ≤
      bracketedLength isKeyword bracket (c :: t) := by
  unfold bracketedLength
  simp only [List.drop_one, List.tail_cons]
  split
  · exact Nat.le_refl _
  · exact Nat.le_add_right _ _

section Balanced
variable {isKeyword : Text → Bool} {name gap : Text} {bracket : Bracket} {c : CodeUnit} {t : Text}
variable (hfault : ∀ payload ∈ (bracketedClause isKeyword name gap bracket (c :: t)).payload,
  payload.fault = none)
include hfault

theorem extent_of_balanced : Delimiter.extent (startsCommand isKeyword) bracket t =
    ⟨(Delimiter.extent (startsCommand isKeyword) bracket t).length, none⟩ := by
  have hnone : (Delimiter.extent (startsCommand isKeyword) bracket t).fault = none := hfault _ rfl
  rw [← hnone]

theorem bracketedLength_of_balanced : bracketedLength isKeyword bracket (c :: t) =
    (Delimiter.extent (startsCommand isKeyword) bracket t).length + trailingLength (Text.firstLine
      ((c :: t).drop (Delimiter.extent (startsCommand isKeyword) bracket t).length)) := by
  have hnone : (Delimiter.extent (startsCommand isKeyword) bracket t).fault = none := hfault _ rfl
  unfold bracketedLength
  simp only [List.drop_one, List.tail_cons, hnone]

theorem bracketedLength_le : bracketedLength isKeyword bracket (c :: t) ≤ (c :: t).length := by
  have hle := Delimiter.Scan.le_of_run (extent_of_balanced hfault)
  have htrailing := trailingLength_le (Text.firstLine
    ((c :: t).drop (Delimiter.extent (startsCommand isKeyword) bracket t).length))
  have hline := (List.takeWhile_prefix (fun d : CodeUnit => decide (d ≠ '\n'))
    (l := (c :: t).drop (Delimiter.extent (startsCommand isKeyword) bracket t).length)).length_le
  rw [bracketedLength_of_balanced hfault]
  rw [List.length_drop] at hline
  unfold Text.firstLine at htrailing ⊢
  rw [List.length_cons] at hline ⊢
  omega

end Balanced

section ClauseText
variable (isKeyword : Text → Bool) (name gap : Text)

theorem text_bracketedClause (bracket : Bracket) (t : Text) :
    (bracketedClause isKeyword name gap bracket t).text =
      name ++ gap ++ t.take (bracketedLength isKeyword bracket t) := by
  rw [← append_drop_of_isPrefix (trimEnd_isPrefix (t.take (bracketedLength isKeyword bracket t))),
    ← List.append_assoc]
  rfl

theorem text_lineClause (line : Text) : (lineClause name gap line).text = name ++ gap ++ line := by
  have hline := append_drop_of_isPrefix (lineContent_isPrefix line)
  unfold lineClause Clause.text
  dsimp only
  split
  · rename_i hempty
    rw [List.isEmpty_iff.1 hempty]
    simp
  · simp [hline]

end ClauseText

inductive ClauseForm (isKeyword : Text → Bool) (name blanks : Text) : Text → Clause → Prop where
  | ended : ClauseForm isKeyword name blanks [] ⟨name, [], none, []⟩
  | bare {c : CodeUnit} {u : Text} : Bracket.ofOpening? c = none →
      (c = '\n' ∨ c = '\r' ∨ startsComment (c :: u) = true) →
      ClauseForm isKeyword name blanks (c :: u) ⟨name, [], none, []⟩
  | bracketed {c : CodeUnit} {u : Text} {bracket : Bracket} : Bracket.ofOpening? c = some bracket →
      ClauseForm isKeyword name blanks (c :: u)
        (bracketedClause isKeyword name blanks bracket (c :: u))
  | line {c : CodeUnit} {u : Text} : Bracket.ofOpening? c = none → c ≠ '\n' → c ≠ '\r' →
      startsComment (c :: u) = false →
      ClauseForm isKeyword name blanks (c :: u) (lineClause name blanks (Text.firstLine (c :: u)))

theorem clauseAt_form (isKeyword : Text → Bool) (t : Text) :
    ClauseForm isKeyword (t.takeWhile isNameUnit) ((t.dropWhile isNameUnit).takeWhile CodeUnit.isBlank)
      ((t.dropWhile isNameUnit).dropWhile CodeUnit.isBlank) (clauseAt isKeyword t) := by
  unfold clauseAt
  dsimp only
  generalize (t.dropWhile isNameUnit).dropWhile CodeUnit.isBlank = rest
  cases rest with
  | nil => exact .ended
  | cons c u =>
    cases hopen : Bracket.ofOpening? c with
    | some bracket =>
      simp only [hopen]
      exact .bracketed hopen
    | none =>
      simp only [hopen]
      split
      · rename_i hbare
        exact .bare hopen (by simpa [or_assoc] using hbare)
      · rename_i hline
        simp only [Bool.or_eq_true, decide_eq_true_eq, not_or, Bool.not_eq_true] at hline
        exact .line hopen hline.1.1 hline.1.2 hline.2

theorem ClauseForm.isPrefix {isKeyword : Text → Bool} {name blanks rest : Text} {cl : Clause}
    (h : ClauseForm isKeyword name blanks rest cl) : cl.text <+: name ++ blanks ++ rest := by
  cases h with
  | ended => exact ⟨blanks, by simp [Clause.text]⟩
  | @bare c u => exact ⟨blanks ++ c :: u, by simp [Clause.text]⟩
  | bracketed =>
    rw [text_bracketedClause, List.prefix_append_right_inj]
    exact List.take_prefix _ _
  | line =>
    rw [text_lineClause, List.prefix_append_right_inj]
    exact List.takeWhile_prefix _

theorem ClauseForm.name_isPrefix {isKeyword : Text → Bool} {name blanks rest : Text} {cl : Clause}
    (h : ClauseForm isKeyword name blanks rest cl) : name <+: cl.text := by
  cases h with
  | ended => simp [Clause.text]
  | bare => simp [Clause.text]
  | bracketed => rw [text_bracketedClause, List.append_assoc]; exact List.prefix_append _ _
  | line => rw [text_lineClause, List.append_assoc]; exact List.prefix_append _ _

theorem clauseAt_isPrefix (isKeyword : Text → Bool) (t : Text) :
    (clauseAt isKeyword t).text <+: t := by
  have h := (clauseAt_form isKeyword t).isPrefix
  rwa [List.append_assoc, List.takeWhile_append_dropWhile, List.takeWhile_append_dropWhile] at h

theorem throughCommentEnd_isPrefix (t : Text) : throughCommentEnd t <+: t := by
  fun_induction throughCommentEnd t with
  | case1 => exact List.prefix_rfl
  | case2 => exact List.prefix_rfl
  | case3 c d rest => exact ⟨rest, rfl⟩
  | case4 => rename_i ih; simpa using ih

theorem firstLine_isPrefix (t : Text) : Text.firstLine t <+: t := List.takeWhile_prefix _

theorem first_isPrefix (isKeyword : Text → Bool) (c : CodeUnit) (rest : Text) :
    (first isKeyword c rest).text <+: c :: rest := by
  unfold first
  split
  · exact ⟨rest, rfl⟩
  · split
    · exact firstLine_isPrefix _
    · split
      · cases rest with
        | nil => exact List.prefix_rfl
        | cons d rest => simpa [text] using throughCommentEnd_isPrefix rest
      · split
        · exact firstLine_isPrefix _
        · exact clauseAt_isPrefix isKeyword (c :: rest)

theorem first_ne_nil (isKeyword : Text → Bool) (c : CodeUnit) (rest : Text) :
    (first isKeyword c rest).text ≠ [] := by
  unfold first
  split
  · simp [text]
  · rename_i hlayout
    have hc : c ≠ CodeUnit.ofChar '\n' := by
      rintro rfl
      exact hlayout (by decide)
    have hline : Text.firstLine (c :: rest) ≠ [] := by simp [Text.firstLine, hc]
    split
    · exact hline
    · split
      · simp [text]
      · split
        · exact hline
        · rename_i hstart
          have hunit : isNameUnit c = true := by
            have hletter : c.isLetter = true := by simpa [isNameStart] using hstart
            simp [isNameUnit, hletter]
          have hname : (c :: rest).takeWhile isNameUnit ≠ [] := by simp [hunit]
          intro hnil
          have hlead := (clauseAt_form isKeyword (c :: rest)).name_isPrefix
          rw [text] at hnil
          rw [hnil] at hlead
          exact hname (List.prefix_nil.1 hlead)

theorem startsBlockComment_iff {c : CodeUnit} {t : Text} :
    startsBlockComment (c :: t) = true ↔ ∃ u : Text, c = '/' ∧ t = ('*' : CodeUnit) :: u := by
  have hunits : Text.ofString "/*" = [CodeUnit.ofChar '/', CodeUnit.ofChar '*'] := by decide
  cases t with
  | nil => simp [startsBlockComment, Text.startsWith, hunits, List.isPrefixOf]
  | cons d t =>
    simp only [startsBlockComment, Text.startsWith, hunits, List.isPrefixOf, Bool.and_true,
      Bool.and_eq_true, beq_iff_eq]
    constructor
    · rintro ⟨rfl, rfl⟩
      exact ⟨t, rfl, rfl⟩
    · rintro ⟨u, rfl, heq⟩
      cases heq
      exact ⟨rfl, rfl⟩

/-- The brackets of a clause are balanced, and a block comment is closed. -/
def Settled : Chunk → Prop
  | skipped text => startsBlockComment text = true → Text.contains (text.drop 2) "*/" = true
  | stray _ => True
  | clause c => ∀ payload ∈ c.payload, payload.fault = none

theorem contains_commentEnd (c d : CodeUnit) (t : Text) :
    Text.contains (c :: d :: t) "*/" =
      ((c = '*' && d = '/') || Text.contains (d :: t) "*/") := by
  have hlead : (Text.ofString "*/").isPrefixOf (c :: d :: t) = (decide (c = '*') && decide (d = '/')) := by
    have hunits : Text.ofString "*/" = [CodeUnit.ofChar '*', CodeUnit.ofChar '/'] := by decide
    simp [hunits, List.isPrefixOf, Bool.beq_eq_decide_eq, eq_comm]
  rw [Text.contains, hlead]

theorem throughCommentEnd_cons (c : CodeUnit) (t : Text) :
    ∃ u, throughCommentEnd (c :: t) = c :: u := by
  cases t with
  | nil => exact ⟨[], rfl⟩
  | cons d t =>
    rw [throughCommentEnd]
    split
    · exact ⟨[d], rfl⟩
    · exact ⟨_, rfl⟩

theorem throughCommentEnd_closed {t : Text} (h : throughCommentEnd t ≠ t) :
    Text.contains (throughCommentEnd t) "*/" = true := by
  fun_induction throughCommentEnd t with
  | case1 => exact absurd rfl h
  | case2 => exact absurd rfl h
  | case3 c d rest hend => rw [contains_commentEnd, hend, Bool.true_or]
  | case4 c d rest hend ih =>
    obtain ⟨u, hu⟩ := throughCommentEnd_cons d rest
    have hrest : throughCommentEnd (d :: rest) ≠ d :: rest := fun heq => h (by rw [heq])
    have hclosed := ih hrest
    rw [hu] at hclosed ⊢
    rw [contains_commentEnd, hclosed, Bool.or_true]

theorem throughCommentEnd_stable {v v' : Text} (w : Text)
    (hclosed : Text.contains (throughCommentEnd (w ++ v)) "*/" = true)
    (hfit : (throughCommentEnd (w ++ v)).length ≤ w.length) :
    throughCommentEnd (w ++ v') = throughCommentEnd (w ++ v) := by
  induction w with
  | nil =>
    rw [List.nil_append, List.length_nil, Nat.le_zero, List.length_eq_zero_iff] at hfit
    rw [List.nil_append, hfit] at hclosed
    exact absurd hclosed (by decide)
  | cons c w ih =>
    cases w with
    | nil =>
      -- one unit cannot end a comment
      exfalso
      have hone : ∀ c : CodeUnit, Text.contains [c] "*/" = false := by
        have hunits : Text.ofString "*/" = [CodeUnit.ofChar '*', CodeUnit.ofChar '/'] := by decide
        simp [Text.contains, hunits, List.isPrefixOf]
      obtain ⟨u, hu⟩ := throughCommentEnd_cons c v
      rw [List.cons_append, List.nil_append, hu] at hclosed hfit
      simp only [List.length_cons, List.length_nil] at hfit
      rw [List.length_eq_zero_iff.1 (by omega : u.length = 0), hone] at hclosed
      cases hclosed
    | cons d w =>
      simp only [List.cons_append, throughCommentEnd] at hclosed hfit ⊢
      split
      · rfl
      · rename_i hend
        simp only [hend, Bool.false_eq_true, if_false] at hclosed hfit
        obtain ⟨u, hu⟩ := throughCommentEnd_cons d (w ++ v)
        rw [hu, contains_commentEnd, Bool.eq_false_iff.2 hend, Bool.false_or, ← hu] at hclosed
        rw [List.length_cons, List.length_cons, Nat.add_le_add_iff_right] at hfit
        exact congrArg (c :: ·) (ih hclosed hfit)

section Stable
variable {isKeyword : Text → Bool} {v v' : Text} (hv : EndsLine v) (hv' : EndsLine v')
include hv

theorem startsLineComment_append (w : Text) :
    startsLineComment (w ++ v) = startsLineComment w := by
  unfold startsLineComment
  rw [hv.startsWith_append (by decide), hv.startsWith_append (by decide),
    hv.startsWith_append (by decide)]

theorem startsBlockComment_append (w : Text) :
    startsBlockComment (w ++ v) = startsBlockComment w :=
  hv.startsWith_append (by decide) w

theorem startsComment_append (w : Text) : startsComment (w ++ v) = startsComment w := by
  unfold startsComment
  rw [startsLineComment_append hv, startsBlockComment_append hv]

include hv'

theorem bracketedClause_stable {name gap : Text} {bracket : Bracket} {c : CodeUnit} {w : Text}
    (hfault : ∀ payload ∈ (bracketedClause isKeyword name gap bracket (c :: w ++ v)).payload,
      payload.fault = none)
    (hfit : bracketedLength isKeyword bracket (c :: w ++ v) ≤ (c :: w).length) :
    bracketedClause isKeyword name gap bracket (c :: w ++ v') =
      bracketedClause isKeyword name gap bracket (c :: w ++ v) := by
  have hnone : (Delimiter.extent (startsCommand isKeyword) bracket (w ++ v)).fault = none :=
    hfault _ rfl
  generalize hextent : Delimiter.extent (startsCommand isKeyword) bracket (w ++ v) = extent at hnone
  obtain ⟨n, fault⟩ := extent
  dsimp only at hnone
  subst hnone
  have hlength : bracketedLength isKeyword bracket (c :: w ++ v) =
      n + trailingLength (Text.firstLine ((c :: w ++ v).drop n)) := by
    unfold bracketedLength
    rw [List.cons_append, List.drop_one, List.tail_cons, hextent]
  have hn : n ≤ (c :: w).length := by omega
  have hextent' : Delimiter.extent (startsCommand isKeyword) bracket (w ++ v') = ⟨n, none⟩ :=
    Delimiter.Scan.run_stable hextent (by rw [List.length_cons] at hn; omega) none
  have hline : ∀ u, EndsLine u → Text.firstLine ((c :: w ++ u).drop n) =
      Text.firstLine ((c :: w).drop n) := by
    intro u hu
    rw [List.drop_append_of_le_length hn, hu.firstLine_append]
  have htake : ∀ u, (c :: w ++ u).take (n + trailingLength (Text.firstLine ((c :: w).drop n))) =
      (c :: w).take (n + trailingLength (Text.firstLine ((c :: w).drop n))) := by
    intro u
    rw [hlength, hline v hv] at hfit
    exact List.take_append_of_le_length hfit
  unfold bracketedClause
  simp only [List.cons_append, List.drop_one, List.tail_cons, hextent, hextent']
  simp only [← List.cons_append, hline v hv, hline v' hv', htake]

theorem clauseAt_stable {w : Text}
    (hfault : ∀ payload ∈ (clauseAt isKeyword (w ++ v)).payload, payload.fault = none)
    (hfit : (clauseAt isKeyword (w ++ v)).text.length ≤ w.length) :
    clauseAt isKeyword (w ++ v') = clauseAt isKeyword (w ++ v) := by
  have hname : isNameUnit (CodeUnit.ofChar '\n') = false := by decide
  have hblank : CodeUnit.isBlank (CodeUnit.ofChar '\n') = false := by decide
  have hw : (w.takeWhile isNameUnit).length +
      ((w.dropWhile isNameUnit).takeWhile CodeUnit.isBlank).length +
      ((w.dropWhile isNameUnit).dropWhile CodeUnit.isBlank).length = w.length := by
    rw [← List.length_append, ← List.length_append, List.append_assoc,
      List.takeWhile_append_dropWhile, List.takeWhile_append_dropWhile]
  unfold clauseAt at hfault hfit ⊢
  simp only [hv.takeWhile_append hname, hv.dropWhile_append hname, hv.takeWhile_append hblank,
    hv.dropWhile_append hblank, hv'.takeWhile_append hname, hv'.dropWhile_append hname,
    hv'.takeWhile_append hblank, hv'.dropWhile_append hblank] at hfault hfit ⊢
  generalize (w.dropWhile isNameUnit).dropWhile CodeUnit.isBlank = rest at hfault hfit hw ⊢
  cases rest with
  | nil =>
    have hopen : Bracket.ofOpening? (CodeUnit.ofChar '\n') = none := by decide
    rcases hv.cases with rfl | ⟨u, rfl⟩ <;> rcases hv'.cases with rfl | ⟨u', rfl⟩ <;> simp [hopen]
  | cons c u =>
    simp only [List.cons_append] at hfault hfit ⊢
    cases hopen : Bracket.ofOpening? c with
    | some bracket =>
      simp only [hopen] at hfault hfit ⊢
      rw [text_bracketedClause, List.length_append, List.length_append, List.length_take] at hfit
      have hle := bracketedLength_le hfault
      refine bracketedClause_stable hv hv' hfault ?_
      rw [List.cons_append]
      omega
    | none =>
      simp only [← List.cons_append, startsComment_append hv, startsComment_append hv',
        hv.firstLine_append, hv'.firstLine_append]

theorem first_stable {c : CodeUnit} {w : Text} (hsettled : (first isKeyword c (w ++ v)).Settled)
    (hfit : (first isKeyword c (w ++ v)).text.length ≤ w.length + 1) :
    first isKeyword c (w ++ v') = first isKeyword c (w ++ v) := by
  unfold first at hsettled hfit ⊢
  simp only [← List.cons_append, startsLineComment_append hv, startsLineComment_append hv',
    startsBlockComment_append hv, startsBlockComment_append hv', hv.firstLine_append,
    hv'.firstLine_append] at hsettled hfit ⊢
  split
  · rfl
  · split
    · rfl
    · split
      · rename_i hlayout hline hblock
        simp only [hlayout, hline, hblock, Bool.false_eq_true, if_false, if_true] at hsettled hfit
        obtain ⟨w, rfl, rfl⟩ := startsBlockComment_iff.1 hblock
        simp only [List.cons_append, List.take_succ_cons, List.take_zero, List.drop_succ_cons,
          List.drop_zero, text, List.length_cons, List.nil_append] at hsettled hfit ⊢
        have hclosed := hsettled (startsBlockComment_iff.2 ⟨_, rfl, rfl⟩)
        rw [throughCommentEnd_stable w hclosed (by omega)]
      · split
        · rfl
        · rename_i hlayout hline hblock hname
          simp only [hlayout, hline, hblock, hname, Bool.false_eq_true, if_false] at hsettled hfit
          rw [clauseAt_stable hv hv' hsettled hfit]

end Stable

/-- The text starts with the given chunks, and the rest is left behind them. -/
inductive Cut (isKeyword : Text → Bool) : Text → List Chunk → Text → Prop where
  | done (t : Text) : Cut isKeyword t [] t
  | chunk {c : CodeUnit} {u : Text} {cs : List Chunk} {v : Text} :
      Cut isKeyword (u.drop ((first isKeyword c u).text.length - 1)) cs v →
      Cut isKeyword (c :: u) (first isKeyword c u :: cs) v

def texts (cs : List Chunk) : Text := cs.flatMap text

@[simp] theorem texts_nil : texts [] = [] := rfl

@[simp] theorem texts_cons (chunk : Chunk) (cs : List Chunk) :
    texts (chunk :: cs) = chunk.text ++ texts cs := rfl

@[simp] theorem texts_append (xs ys : List Chunk) : texts (xs ++ ys) = texts xs ++ texts ys :=
  List.flatMap_append

theorem ofText_cons (isKeyword : Text → Bool) (c : CodeUnit) (u : Text) :
    ofText isKeyword (c :: u) = first isKeyword c u ::
      ofText isKeyword (u.drop ((first isKeyword c u).text.length - 1)) := by
  rw [ofText]

@[simp] theorem ofText_nil (isKeyword : Text → Bool) : ofText isKeyword [] = [] := by
  rw [ofText]

theorem first_append_drop (isKeyword : Text → Bool) (c : CodeUnit) (u : Text) :
    (first isKeyword c u).text ++ u.drop ((first isKeyword c u).text.length - 1) = c :: u := by
  have hpos := List.length_pos_iff.2 (first_ne_nil isKeyword c u)
  have hdrop : u.drop ((first isKeyword c u).text.length - 1) =
      (c :: u).drop (first isKeyword c u).text.length := by
    rw [← List.drop_succ_cons (a := c), Nat.sub_add_cancel hpos]
  rw [hdrop]
  exact append_drop_of_isPrefix (first_isPrefix isKeyword c u)

namespace Cut
variable {isKeyword : Text → Bool}

theorem ofText_eq {t v : Text} {cs : List Chunk} (h : Cut isKeyword t cs v) :
    ofText isKeyword t = cs ++ ofText isKeyword v := by
  induction h with
  | done t => rfl
  | chunk _ ih => rw [ofText_cons, ih, List.cons_append]

theorem text_eq {t v : Text} {cs : List Chunk} (h : Cut isKeyword t cs v) : t = texts cs ++ v := by
  induction h with
  | done t => rfl
  | chunk _ ih => rw [texts_cons, List.append_assoc, ← ih, first_append_drop]

theorem trans {t u v : Text} {xs ys : List Chunk} (h : Cut isKeyword t xs u)
    (h' : Cut isKeyword u ys v) : Cut isKeyword t (xs ++ ys) v := by
  induction h with
  | done t => exact h'
  | chunk _ ih => exact .chunk (ih h')

theorem of_ofText {t : Text} {xs ys : List Chunk} (h : ofText isKeyword t = xs ++ ys) :
    ∃ v, Cut isKeyword t xs v ∧ ofText isKeyword v = ys := by
  induction xs generalizing t with
  | nil => exact ⟨t, .done t, h⟩
  | cons chunk xs ih =>
    cases t with
    | nil => simp at h
    | cons c u =>
      rw [ofText_cons, List.cons_append, List.cons.injEq] at h
      obtain ⟨rfl, h⟩ := h
      obtain ⟨v, hcut, hv⟩ := ih h
      exact ⟨v, .chunk hcut, hv⟩

theorem all (t : Text) : Cut isKeyword t (ofText isKeyword t) [] := by
  obtain ⟨v, hcut, hv⟩ := of_ofText (t := t) (List.append_nil _).symm
  cases v with
  | nil => exact hcut
  | cons c u => simp [ofText_cons] at hv

theorem append_inv {t v : Text} {xs ys : List Chunk} (h : Cut isKeyword t (xs ++ ys) v) :
    ∃ u, Cut isKeyword t xs u ∧ Cut isKeyword u ys v := by
  induction xs generalizing t with
  | nil => exact ⟨t, .done t, h⟩
  | cons chunk xs ih =>
    cases h with
    | chunk h =>
      obtain ⟨u, hxs, hys⟩ := ih h
      exact ⟨u, .chunk hxs, hys⟩

theorem stable {w v v' : Text} {cs : List Chunk} (h : Cut isKeyword (w ++ v) cs v)
    (hsettled : ∀ chunk ∈ cs, chunk.Settled) (hv : EndsLine v) (hv' : EndsLine v') :
    Cut isKeyword (w ++ v') cs v' := by
  have hw : w = texts cs := List.append_cancel_right h.text_eq
  subst hw
  induction cs with
  | nil => exact .done v'
  | cons chunk cs ih =>
    obtain ⟨c, u, hchunk⟩ : ∃ c u, chunk.text = c :: u := by
      generalize htext : texts (chunk :: cs) ++ v = t at h
      cases h with
      | @chunk c u => exact List.exists_cons_of_ne_nil (first_ne_nil isKeyword c u)
    rw [texts_cons, hchunk, List.cons_append, List.cons_append, List.append_assoc] at h
    generalize hrest : u ++ (texts cs ++ v) = t at h
    cases h with
    | chunk hcut =>
      subst hrest
      have hfits : (first isKeyword c (u ++ texts cs ++ v)).text.length ≤ (u ++ texts cs).length + 1 := by
        rw [List.append_assoc, hchunk, List.length_cons, List.length_append]
        omega
      have hsame := first_stable hv hv' (by
        rw [List.append_assoc]
        exact hsettled _ List.mem_cons_self) hfits
      have hdrop : ∀ x : Text, (u ++ (texts cs ++ x)).drop
          ((first isKeyword c (u ++ (texts cs ++ v))).text.length - 1) = texts cs ++ x := by
        intro x
        rw [hchunk, List.length_cons, Nat.add_sub_cancel, List.drop_left]
      rw [hdrop] at hcut
      have hrest := ih (fun chunk h => hsettled chunk (List.mem_cons_of_mem _ h)) hcut
      rw [texts_cons, hchunk, List.cons_append, List.cons_append, List.append_assoc]
      rw [List.append_assoc, List.append_assoc] at hsame
      rw [← hsame]
      refine .chunk ?_
      rw [hsame, hdrop]
      exact hrest

end Cut

theorem texts_ofText (isKeyword : Text → Bool) (t : Text) : texts (ofText isKeyword t) = t := by
  have htext := (@Cut.all isKeyword t).text_eq
  rw [List.append_nil] at htext
  exact htext.symm

end Chunk
end QueryLint
