import Mathlib.Data.List.Count
import Mathlib.Data.List.Infix
import QueryLint.Proofs.Boundaries

/-!
What becomes of each unit of a text.

Tokens and strays take spans of the text, and the comments are read from left to right in what the
spans leave over. Every unit that is no white space then lies in a comment or in exactly one span,
and no span starts in a comment. The one condition is on what a clause passes of its line behind the
payload: a block comment that starts there has to end there, and nothing but white space and more
comments may follow it.
-/

namespace QueryLint
set_option autoImplicit false

/-- A stretch of a text, from one offset up to another. -/
structure Span where
  start : Nat
  stop : Nat
deriving DecidableEq, Repr

def Span.covers (s : Span) (i : Nat) : Bool := s.start ≤ i && i < s.stop

theorem Span.covers_iff {s : Span} {i : Nat} : s.covers i = true ↔ s.start ≤ i ∧ i < s.stop := by
  simp [Span.covers]

theorem Span.covers_eq_false {s : Span} {i : Nat} (h : i < s.start ∨ s.stop ≤ i) :
    s.covers i = false := by
  rw [Bool.eq_false_iff, ne_eq, Span.covers_iff]
  omega

namespace Tokens

def spans (ts : Tokens) : List Span :=
  ts.tokens.map (fun k => ⟨k.start.offset, k.stop⟩) ++
    ts.strays.map fun s => ⟨s.start.offset, s.start.offset + s.text.length⟩

end Tokens

/-- The length of the comment at the start of a text, zero if there is none. It goes up to the end of
the line, or behind the first end of a block comment. -/
def commentLength (t : Text) : Nat :=
  if Chunk.startsLineComment t then (Text.firstLine t).length
  else if Chunk.startsBlockComment t then
    min t.length (2 + (t.drop 2).tails.findIdx (Text.startsWith · "*/") + 2)
  else 0

/-- The comments of the text that starts at an offset, read from left to right outside of the spans
that are taken. -/
def readComments (taken : List Span) (offset : Nat) (t : Text) : List Span :=
  match t with
  | [] => []
  | c :: rest =>
    let length := commentLength (c :: rest)
    if taken.any (·.covers offset) || length = 0 then readComments taken (offset + 1) rest
    else ⟨offset, offset + length⟩ :: readComments taken (offset + length) (rest.drop (length - 1))
termination_by t.length
decreasing_by
  · simp
  · simp only [List.length_drop, List.length_cons]; omega

/-- A text at an offset, with its spans and its comments: each unit outside of the comments that is no
white space lies in one span only, and no span starts in a comment. -/
structure Accounted (offset : Nat) (spans comments : List Span) (t : Text) : Prop where
  once : ∀ i c, t[i]? = some c → CodeUnit.isSpace c = false →
    (∀ k ∈ comments, k.covers (offset + i) = false) → spans.countP (·.covers (offset + i)) = 1
  outside : ∀ s ∈ spans, ∀ k ∈ comments, k.covers s.start = false

/-- White space and comments, none of which goes on into the text behind them. -/
inductive QuietBefore (behind : Text) : Text → Prop where
  | nil : QuietBefore behind []
  | space {c : CodeUnit} {w : Text} : c.isSpace = true → QuietBefore behind w →
      QuietBefore behind (c :: w)
  | comment {x w : Text} : x ≠ [] → commentLength (x ++ (w ++ behind)) = x.length →
      QuietBefore behind w → QuietBefore behind (x ++ w)

theorem commentLength_line {t : Text} (h : Chunk.startsLineComment t = true) :
    commentLength t = (Text.firstLine t).length := by
  simp [commentLength, h]

theorem findIdx_commentEnd (u : Text) :
    min u.length (u.tails.findIdx (Text.startsWith · "*/") + 2) =
      (Chunk.throughCommentEnd u).length := by
  have hstart : ∀ (c d : CodeUnit) (rest : Text), Text.startsWith (c :: d :: rest) "*/" =
      (decide (c = '*') && decide (d = '/')) := by
    have hunits : Text.ofString "*/" = [CodeUnit.ofChar '*', CodeUnit.ofChar '/'] := by decide
    intro c d rest
    simp [Text.startsWith, hunits, List.isPrefixOf, Bool.beq_eq_decide_eq, eq_comm]
  fun_induction Chunk.throughCommentEnd u with
  | case1 => simp
  | case2 c => simp
  | case3 c d rest hend =>
    rw [List.tails_cons, List.findIdx_cons, hstart, hend]
    simp
  | case4 c d rest hend ih =>
    rw [List.tails_cons, List.findIdx_cons, hstart, Bool.eq_false_iff.2 hend, cond_false]
    simp only [List.length_cons] at ih ⊢
    omega

theorem commentLength_block (u : Text) :
    commentLength (('/' : CodeUnit) :: ('*' : CodeUnit) :: u) =
      2 + (Chunk.throughCommentEnd u).length := by
  have hblock : Chunk.startsBlockComment (('/' : CodeUnit) :: ('*' : CodeUnit) :: u) = true :=
    Chunk.startsBlockComment_iff.2 ⟨u, rfl, rfl⟩
  have hline : Chunk.startsLineComment (('/' : CodeUnit) :: ('*' : CodeUnit) :: u) = false := by
    rw [Bool.eq_false_iff]
    intro h
    rw [Chunk.not_block_of_line h] at hblock
    cases hblock
  rw [← findIdx_commentEnd]
  simp only [commentLength, hline, hblock, Bool.false_eq_true, if_false, if_true,
    List.drop_succ_cons, List.drop_zero, List.length_cons]
  omega

theorem commentLength_of_isSpace {c : CodeUnit} (hc : c.isSpace = true) (t : Text) :
    commentLength (c :: t) = 0 := by
  have hline : Chunk.startsLineComment (c :: t) = false := by
    rw [Bool.eq_false_iff]
    intro h
    rcases Chunk.startsLineComment_iff.1 h with rfl | ⟨rfl, -⟩ | ⟨rfl, -⟩ <;>
      exact absurd hc (by decide)
  have hblock : Chunk.startsBlockComment (c :: t) = false := by
    rw [Bool.eq_false_iff]
    intro h
    obtain ⟨u, rfl, -⟩ := Chunk.startsBlockComment_iff.1 h
    exact absurd hc (by decide)
  simp [commentLength, hline, hblock]

section Reading
variable {taken : List Span}

theorem readComments_cons {offset : Nat} {c : CodeUnit} (t : Text)
    (h : taken.any (·.covers offset) = true ∨ commentLength (c :: t) = 0) :
    readComments taken offset (c :: t) = readComments taken (offset + 1) t := by
  rw [readComments]
  simp only [Bool.or_eq_true, decide_eq_true_eq, h, if_true]

theorem readComments_comment {offset : Nat} {x : Text} (t : Text) (hx : x ≠ [])
    (hfree : taken.any (·.covers offset) = false) (hlength : commentLength (x ++ t) = x.length) :
    readComments taken offset (x ++ t) =
      ⟨offset, offset + x.length⟩ :: readComments taken (offset + x.length) t := by
  obtain ⟨c, x, rfl⟩ := List.exists_cons_of_ne_nil hx
  rw [List.cons_append] at hlength ⊢
  rw [readComments, hlength]
  simp [hfree]

theorem readComments_taken {offset : Nat} {w : Text} (t : Text)
    (h : ∀ i < w.length, taken.any (·.covers (offset + i)) = true) :
    readComments taken offset (w ++ t) = readComments taken (offset + w.length) t := by
  induction w generalizing offset with
  | nil => rfl
  | cons c w ih =>
    have hrest := @ih (offset + 1) (by
      intro i hi
      have hnext := h (i + 1) (by simp only [List.length_cons]; omega)
      rwa [Nat.add_assoc, Nat.add_comm 1])
    have hfirst : taken.any (·.covers offset) = true := h 0 (by simp)
    rw [List.cons_append, readComments_cons _ (.inl hfirst), hrest, List.length_cons, Nat.add_assoc,
      Nat.add_comm 1]

/-- The comments of a stretch of the text `w ++ t`: they lie in the stretch and cover it, white space
apart, and behind it reading goes on with `t`. -/
structure Comments (taken : List Span) (offset : Nat) (w t : Text) (comments : List Span) : Prop where
  read : readComments taken offset (w ++ t) = comments ++ readComments taken (offset + w.length) t
  inside : ∀ k ∈ comments, offset ≤ k.start ∧ k.stop ≤ offset + w.length
  cover : ∀ i c, w[i]? = some c → CodeUnit.isSpace c = false →
    ∃ k ∈ comments, k.covers (offset + i) = true
  blank : (∀ c ∈ w, CodeUnit.isSpace c = true) → comments = []

namespace Comments
variable {offset : Nat} {w t : Text} {comments : List Span}

theorem nil (offset : Nat) (t : Text) : Comments taken offset [] t [] :=
  ⟨rfl, by simp, by simp, fun _ => rfl⟩

theorem space {c : CodeUnit} (hc : c.isSpace = true) (h : Comments taken (offset + 1) w t comments) :
    Comments taken offset (c :: w) t comments where
  read := by
    rw [List.cons_append, readComments_cons _ (.inr (commentLength_of_isSpace hc _)), h.read,
      List.length_cons, Nat.add_assoc, Nat.add_comm 1]
  inside := by
    intro k hk
    have := h.inside k hk
    simp only [List.length_cons]
    omega
  cover := by
    intro i d hi hd
    cases i with
    | zero =>
      obtain rfl : c = d := by simpa using hi
      rw [hc] at hd
      cases hd
    | succ i =>
      obtain ⟨k, hk, hcovers⟩ := h.cover i d (by simpa using hi) hd
      refine ⟨k, hk, ?_⟩
      rwa [Nat.add_comm i, ← Nat.add_assoc]
  blank := fun hall => h.blank fun d hd => hall d (List.mem_cons_of_mem _ hd)

theorem comment {x : Text} (hx : x ≠ []) (hfree : taken.any (·.covers offset) = false)
    (hlength : commentLength (x ++ (w ++ t)) = x.length)
    (h : Comments taken (offset + x.length) w t comments) :
    Comments taken offset (x ++ w) t (⟨offset, offset + x.length⟩ :: comments) where
  read := by
    rw [List.append_assoc, readComments_comment _ hx hfree hlength, h.read, List.length_append,
      Nat.add_assoc, List.cons_append]
  inside := by
    intro k hk
    rw [List.length_append]
    rcases List.mem_cons.1 hk with rfl | hk
    · exact ⟨Nat.le_refl _, by simp only; omega⟩
    · have := h.inside k hk
      omega
  cover := by
    intro i d hi hd
    by_cases hlt : i < x.length
    · exact ⟨_, List.mem_cons_self, Span.covers_iff.2 ⟨by simp only; omega, by simp only; omega⟩⟩
    · rw [List.getElem?_append_right (by omega)] at hi
      obtain ⟨k, hk, hcovers⟩ := h.cover _ d hi hd
      refine ⟨k, List.mem_cons_of_mem _ hk, ?_⟩
      rwa [Nat.add_assoc, Nat.add_sub_cancel' (by omega)] at hcovers
  blank := by
    -- no comment starts with white space
    intro hall
    obtain ⟨c, x, rfl⟩ := List.exists_cons_of_ne_nil hx
    rw [List.cons_append, commentLength_of_isSpace (hall c (by simp))] at hlength
    cases hlength

end Comments

/-- What is read in a quiet stretch covers it, white space apart, and ends with it. -/
theorem exists_comments {offset : Nat} {w t : Text} (hquiet : QuietBefore t w)
    (hfree : ∀ i < w.length, taken.any (·.covers (offset + i)) = false) :
    ∃ comments, Comments taken offset w t comments := by
  induction hquiet generalizing offset with
  | nil => exact ⟨[], .nil offset t⟩
  | @space c w hc _ ih =>
    obtain ⟨comments, hcomments⟩ := @ih (offset + 1) (by
      intro i hi
      have hnext := hfree (i + 1) (by simp only [List.length_cons]; omega)
      rwa [Nat.add_assoc, Nat.add_comm 1])
    exact ⟨comments, hcomments.space hc⟩
  | @comment x w hx hlength _ ih =>
    have hpos := List.length_pos_iff.2 hx
    obtain ⟨comments, hcomments⟩ := @ih (offset + x.length) (by
      intro i hi
      have hnext := hfree (x.length + i) (by simp only [List.length_append]; omega)
      rwa [Nat.add_assoc])
    exact ⟨_, hcomments.comment hx (hfree 0 (by simp only [List.length_append]; omega)) hlength⟩

theorem start_of_mem_readComments {offset : Nat} {t : Text} {k : Span}
    (h : k ∈ readComments taken offset t) : offset ≤ k.start := by
  fun_induction readComments taken offset t with
  | case1 => cases h
  | case2 => rename_i ih; exact Nat.le_of_succ_le (ih h)
  | case3 offset c rest length hlength ih =>
    rcases List.mem_cons.1 h with rfl | h
    · exact Nat.le_refl _
    · have := ih h
      omega

end Reading

namespace Chunk

def owned : Chunk → Option Text
  | skipped _ => none
  | stray line => some (Text.trimEnd line)
  | clause cl =>
    some (match cl.payload with
      | none => cl.name
      | some payload => cl.name ++ cl.gap ++ payload.text)

def passed : Chunk → Text
  | skipped text => text
  | stray line => line.drop (Text.trimEnd line).length
  | clause cl => cl.trail

theorem owned_append_passed (chunk : Chunk) : chunk.owned.getD [] ++ chunk.passed = chunk.text := by
  cases chunk with
  | skipped text => rfl
  | stray line => exact append_drop_of_isPrefix (trimEnd_isPrefix line)
  | clause cl =>
    obtain ⟨name, gap, payload, tail⟩ := cl
    cases payload <;> simp [owned, passed, text, Clause.text, Clause.trail]

def span (offset : Nat) (chunk : Chunk) : Option Span :=
  chunk.owned.map fun w => ⟨offset, offset + w.length⟩

def spans (offset : Nat) : List Chunk → List Span
  | [] => []
  | chunk :: cs => (chunk.span offset).toList ++ spans (offset + chunk.text.length) cs

theorem start_of_mem_spans {offset : Nat} {cs : List Chunk} {s : Span} (h : s ∈ spans offset cs) :
    offset ≤ s.start := by
  induction cs generalizing offset with
  | nil => cases h
  | cons chunk cs ih =>
    rcases List.mem_append.1 h with h | h
    · obtain ⟨w, -, rfl⟩ := Option.map_eq_some_iff.1 (Option.mem_toList.1 h)
      exact Nat.le_refl _
    · have := ih h
      omega

theorem perm_spans (p : Position) (count : Nat) (cs : List Chunk) :
    (Tokens.ofChunks p count cs).spans.Perm (spans p.offset cs) := by
  induction cs generalizing p count with
  | nil => exact .nil
  | cons chunk cs ih =>
    cases chunk with
    | skipped text =>
      have hrest := ih (p.after text) count
      rw [Position.offset_after] at hrest
      exact hrest
    | stray line =>
      have hrest := ih (p.after line) count
      rw [Position.offset_after] at hrest
      exact List.perm_middle.trans (hrest.cons _)
    | clause cl =>
      have hrest := ih (p.after cl.text) (count + 1)
      rw [Position.offset_after] at hrest
      have hspan : (clause cl).span p.offset =
          some ⟨(Token.ofClause p cl).start.offset, (Token.ofClause p cl).stop⟩ := by
        obtain ⟨name, gap, payload, tail⟩ := cl
        cases payload <;> simp [span, owned, Token.ofClause, Nat.add_assoc]
      rw [spans, hspan]
      exact hrest.cons _

theorem quiet_spaces {behind spaces : Text} (h : ∀ c ∈ spaces, CodeUnit.isSpace c = true) {w : Text}
    (hw : QuietBefore behind w) : QuietBefore behind (spaces ++ w) := by
  induction spaces with
  | nil => exact hw
  | cons c spaces ih =>
    exact .space (h c List.mem_cons_self) (ih fun d hd => h d (List.mem_cons_of_mem _ hd))

theorem isSpace_of_mem_trimmed {t : Text} {c : CodeUnit}
    (hc : c ∈ t.drop (Text.trimEnd t).length) : c.isSpace = true := by
  obtain ⟨spaces, ht, hspaces⟩ := Text.trimEnd_append_rest t
  have hdrop : t.drop (Text.trimEnd t).length = spaces :=
    List.append_cancel_left ((append_drop_of_isPrefix (trimEnd_isPrefix t)).trans ht)
  exact hspaces c (hdrop ▸ hc)

theorem quiet_trimmed (behind t : Text) :
    QuietBefore behind (t.drop (Text.trimEnd t).length) := by
  have hquiet := quiet_spaces (fun c => @isSpace_of_mem_trimmed t c) (@QuietBefore.nil behind)
  rwa [List.append_nil] at hquiet

theorem quiet_lineComment {x v : Text} (h : startsLineComment x = true)
    (hfree : CodeUnit.ofChar '\n' ∉ x) (hv : EndsLine v) : QuietBefore v x := by
  have hne : x ≠ [] := by
    rintro rfl
    exact absurd h (by decide)
  have hlength : commentLength (x ++ ([] ++ v)) = x.length := by
    rw [List.nil_append, commentLength_line (by rwa [startsLineComment_append hv]),
      hv.firstLine_append, Text.firstLine_eq_self hfree]
  have hquiet := QuietBefore.comment hne hlength .nil
  rwa [List.append_nil] at hquiet

/-- Without a block comment the rest of a line behind its content is quiet. -/
theorem quiet_behind_content {line v : Text} (hfree : CodeUnit.ofChar '\n' ∉ line) (hv : EndsLine v)
    (hcomments : Text.contains (line.drop (lineContent line).length) "/*" = false) :
    QuietBefore v (line.drop (lineContent line).length) := by
  obtain ⟨spaces, rest, hdrop, hspaces, hrest⟩ := exists_behind_content line
  have hrestFree : CodeUnit.ofChar '\n' ∉ rest := by
    intro hmem
    apply hfree
    apply List.mem_of_mem_drop (i := (lineContent line).length)
    rw [hdrop]
    exact List.mem_append_right _ hmem
  rw [hdrop] at hcomments ⊢
  apply quiet_spaces hspaces
  rcases hrest with rfl | hrest
  · exact .nil
  · rw [startsComment_eq (contains_append_eq_false hcomments).2] at hrest
    exact quiet_lineComment hrest hrestFree hv

theorem ClauseForm.quiet {isKeyword : Text → Bool} {name blanks rest v : Text} {cl : Clause}
    (h : ClauseForm isKeyword name blanks rest cl)
    (hblanks : ∀ c ∈ blanks, CodeUnit.isBlank c = true)
    (htext : name ++ blanks ++ rest = cl.text ++ v)
    (htail : Text.contains cl.tail "/*" = true → QuietBefore v cl.tail) :
    QuietBefore v cl.trail := by
  cases h with
  | ended => exact .nil
  | bare => exact .nil
  | bracketed => exact quiet_trimmed v _
  | @line c u =>
    rw [text_lineClause, List.append_assoc (name ++ blanks)] at htext
    have hv : EndsLine v := endsLine_of_firstLine (List.append_cancel_left htext)
    have hline : QuietBefore v ((Text.firstLine (c :: u)).drop
        (lineContent (Text.firstLine (c :: u))).length) := by
      cases hcomments : Text.contains (lineClause name blanks (Text.firstLine (c :: u))).tail "/*" with
      | true => exact htail hcomments
      | false => exact quiet_behind_content (Text.firstLine_free _) hv hcomments
    rcases trail_lineClause name blanks (Text.firstLine (c :: u)) with htrail | htrail
    · rwa [htrail]
    · rw [htrail]
      exact quiet_spaces (fun d hd => isSpace_of_isBlank (hblanks d hd)) hline

/-- What a chunk passes is quiet, and white space only behind a stray that is trimmed to nothing. -/
structure Tidy (chunk : Chunk) (behind : Text) : Prop where
  quiet : QuietBefore behind chunk.passed
  blank : chunk.owned = some [] → ∀ c ∈ chunk.passed, CodeUnit.isSpace c = true

theorem ClauseForm.owned_ne_nil {isKeyword : Text → Bool} {name blanks rest : Text} {cl : Clause}
    (h : ClauseForm isKeyword name blanks rest cl) (hname : name ≠ []) :
    (clause cl).owned ≠ some [] := by
  have hcl : cl.name = name := by cases h <;> rfl
  obtain ⟨clName, gap, payload, tail⟩ := cl
  cases payload <;> simp_all [owned]

theorem first_tidy {isKeyword : Text → Bool} {c : CodeUnit} {u v : Text}
    (htext : c :: u = (first isKeyword c u).text ++ v)
    (htail : ∀ cl, first isKeyword c u = clause cl → Text.contains cl.tail "/*" = true →
      QuietBefore v cl.tail) : (first isKeyword c u).Tidy v := by
  have hform := first_form isKeyword c u
  generalize first isKeyword c u = chunk at htext htail hform
  cases hform with
  | layout hc => exact ⟨.space (CodeUnit.isSpace_of_isLayout hc) .nil, by simp [owned]⟩
  | lineComment hcomment =>
    rw [← startsLineComment_firstLine] at hcomment
    exact ⟨quiet_lineComment hcomment (Text.firstLine_free _) (endsLine_of_firstLine htext),
      by simp [owned]⟩
  | @blockComment u hc =>
    subst hc
    rw [text] at htext
    have hlength : commentLength (('/' : CodeUnit) :: ('*' : CodeUnit) :: throughCommentEnd u ++
        ([] ++ v)) = (('/' : CodeUnit) :: ('*' : CodeUnit) :: throughCommentEnd u).length := by
      rw [List.nil_append, ← htext, commentLength_block]
      simp only [List.length_cons]
      omega
    have hquiet := QuietBefore.comment (List.cons_ne_nil _ _) hlength .nil
    rw [List.append_nil] at hquiet
    exact ⟨hquiet, by simp [owned]⟩
  | stray hc => exact ⟨quiet_trimmed v _, fun _ c hc => isSpace_of_mem_trimmed hc⟩
  | clause hc =>
    have hclause := clauseAt_form isKeyword (c :: u)
    refine ⟨?_, fun howned => absurd howned (hclause.owned_ne_nil (name_ne_nil hc))⟩
    refine hclause.quiet (fun d hd => List.mem_takeWhile_imp hd) ?_ (htail _ rfl)
    rw [List.append_assoc, List.takeWhile_append_dropWhile, List.takeWhile_append_dropWhile]
    exact htext

theorem countP_span (offset : Nat) (chunk : Chunk) (i : Nat) :
    (chunk.span offset).toList.countP (·.covers i) =
      if offset ≤ i ∧ i < offset + (chunk.owned.getD []).length then 1 else 0 := by
  cases howned : chunk.owned with
  | none =>
    have hno : ¬(offset ≤ i ∧ i < offset) := by omega
    simp [span, howned, hno]
  | some w => simp [span, howned, List.countP_cons, Span.covers_iff]

theorem countP_spans_before {offset : Nat} (cs : List Chunk) {i : Nat} (h : i < offset) :
    (spans offset cs).countP (·.covers i) = 0 := by
  rw [List.countP_eq_zero]
  intro s hs
  have hstart := start_of_mem_spans hs
  rw [Bool.not_eq_true]
  exact Span.covers_eq_false (by omega)

section Step
variable {offset : Nat} {chunk : Chunk} {cs : List Chunk} {comments later : List Span}

theorem length_text (chunk : Chunk) :
    chunk.text.length = (chunk.owned.getD []).length + chunk.passed.length := by
  rw [← owned_append_passed, List.length_append]

variable (hrest : Accounted (offset + chunk.text.length) (spans (offset + chunk.text.length) cs) later
  (texts cs))
include hrest

/-- Each unit of the chunk is taken or passed in a comment, and those behind it are counted already. -/
theorem accounted_once {i : Nat} {c : CodeUnit}
    (hcover : ∀ i c, chunk.passed[i]? = some c → CodeUnit.isSpace c = false →
      ∃ k ∈ comments, k.covers (offset + (chunk.owned.getD []).length + i) = true)
    (hi : (texts (chunk :: cs))[i]? = some c) (hc : c.isSpace = false)
    (hclear : ∀ k ∈ comments ++ later, k.covers (offset + i) = false) :
    (spans offset (chunk :: cs)).countP (·.covers (offset + i)) = 1 := by
  have hlength := length_text chunk
  rw [spans, List.countP_append, countP_span]
  by_cases howned : i < (chunk.owned.getD []).length
  · rw [if_pos (by omega), countP_spans_before cs (by omega)]
  · rw [if_neg (by omega), Nat.zero_add]
    rw [texts_cons, ← owned_append_passed, List.append_assoc,
      List.getElem?_append_right (by omega)] at hi
    by_cases hpassed : i < chunk.text.length
    · rw [List.getElem?_append_left (by omega)] at hi
      obtain ⟨k, hk, hcovers⟩ := hcover _ c hi hc
      rw [Nat.add_assoc, Nat.add_sub_cancel' (by omega), hclear k (List.mem_append_left _ hk)] at hcovers
      cases hcovers
    · rw [List.getElem?_append_right (by omega), Nat.sub_sub, ← hlength] at hi
      have hplace : offset + chunk.text.length + (i - chunk.text.length) = offset + i := by omega
      have honce := hrest.once _ c hi hc
      rw [hplace] at honce
      exact honce fun k hk => hclear k (List.mem_append_right _ hk)

/-- The span of the chunk starts before its comments, and the others start behind them. -/
theorem accounted_outside
    (hinside : ∀ k ∈ comments, offset + (chunk.owned.getD []).length ≤ k.start ∧
      k.stop ≤ offset + chunk.text.length)
    (hblank : chunk.owned = some [] → comments = []) (hchunk : chunk.text ≠ [])
    (hlater : ∀ k ∈ later, offset + chunk.text.length ≤ k.start) :
    ∀ s ∈ spans offset (chunk :: cs), ∀ k ∈ comments ++ later, k.covers s.start = false := by
  have hpos := List.length_pos_iff.2 hchunk
  intro s hs k hk
  rcases List.mem_append.1 hs with hs | hs
  · obtain ⟨w, howned, rfl⟩ := Option.map_eq_some_iff.1 (Option.mem_toList.1 hs)
    rcases List.mem_append.1 hk with hk | hk
    · have hk' := hinside k hk
      rw [howned, Option.getD_some] at hk'
      cases w with
      | nil =>
        rw [hblank howned] at hk
        cases hk
      | cons d w =>
        rw [List.length_cons] at hk'
        exact Span.covers_eq_false (.inl (by dsimp only; omega))
    · have hk' := hlater k hk
      exact Span.covers_eq_false (.inl (by dsimp only; omega))
  · rcases List.mem_append.1 hk with hk | hk
    · have hk' := hinside k hk
      have hs' := start_of_mem_spans hs
      exact Span.covers_eq_false (.inr (by omega))
    · exact hrest.outside s hs k hk

end Step

theorem any_covers (taken : List Span) (i : Nat) :
    taken.any (·.covers i) = decide (0 < taken.countP (·.covers i)) := by
  rw [Bool.eq_iff_iff, List.any_eq_true, decide_eq_true_eq, List.countP_pos_iff]

/-- Chunks that pass quiet stretches are accounted for by their spans and by the comments read
outside of them. -/
theorem accounted_spans {taken : List Span} {cs : List Chunk} {offset : Nat}
    (htidy : ∀ chunk back, chunk :: back <:+ cs → chunk.text ≠ [] ∧ chunk.Tidy (texts back))
    (htaken : ∀ i, offset ≤ i →
      taken.countP (·.covers i) = (spans offset cs).countP (·.covers i)) :
    Accounted offset (spans offset cs) (readComments taken offset (texts cs)) (texts cs) := by
  induction cs generalizing offset with
  | nil => exact ⟨by simp, by simp [spans]⟩
  | cons chunk cs ih =>
    obtain ⟨hchunk, htidyChunk⟩ := htidy chunk cs List.suffix_rfl
    have hlength := length_text chunk
    have hcount : ∀ i, offset ≤ i → taken.countP (·.covers i) =
        (if i < offset + (chunk.owned.getD []).length then 1 else 0) +
          (spans (offset + chunk.text.length) cs).countP (·.covers i) := by
      intro i hi
      rw [htaken i hi, spans, List.countP_append, countP_span]
      simp only [hi, true_and]
    have hrest := @ih (offset + chunk.text.length)
      (fun chunk' back hback => htidy chunk' back (hback.trans (List.suffix_cons chunk cs)))
      (fun i hi => by rw [hcount i (by omega), if_neg (by omega), Nat.zero_add])
    have hown : ∀ i < (chunk.owned.getD []).length, taken.any (·.covers (offset + i)) = true := by
      intro i hi
      rw [any_covers, hcount _ (by omega), if_pos (by omega), decide_eq_true_eq]
      omega
    have hfree : ∀ i < chunk.passed.length,
        taken.any (·.covers (offset + (chunk.owned.getD []).length + i)) = false := by
      intro i hi
      rw [any_covers, hcount _ (by omega), if_neg (by omega), countP_spans_before cs (by omega)]
      rfl
    obtain ⟨comments, hread, hinside, hcover, hblank⟩ := exists_comments htidyChunk.quiet hfree
    have hreads : readComments taken offset (texts (chunk :: cs)) =
        comments ++ readComments taken (offset + chunk.text.length) (texts cs) := by
      rw [texts_cons, ← owned_append_passed, List.append_assoc, readComments_taken _ hown, hread,
        owned_append_passed, hlength, Nat.add_assoc]
    rw [Nat.add_assoc, ← hlength] at hinside
    rw [hreads]
    exact ⟨fun i c => accounted_once hrest hcover,
      accounted_outside hrest hinside (fun howned => hblank (htidyChunk.blank howned)) hchunk
        fun k hk => start_of_mem_readComments hk⟩

/-- Every chunk of a text is tidy, if block comments in what a clause passes are. -/
theorem tidy_ofText {isKeyword : Text → Bool} {t : Text}
    (htail : ∀ cl back, clause cl :: back <:+ ofText isKeyword t →
      Text.contains cl.tail "/*" = true → QuietBefore (texts back) cl.tail)
    {chunk : Chunk} {back : List Chunk} (h : chunk :: back <:+ ofText isKeyword t) :
    chunk.text ≠ [] ∧ chunk.Tidy (texts back) := by
  have ⟨front, hfront⟩ := h
  obtain ⟨v, -, hv⟩ := Cut.of_ofText hfront.symm
  cases v with
  | nil => simp at hv
  | cons c u =>
    rw [ofText_cons] at hv
    obtain ⟨hchunk, hback⟩ := List.cons.inj hv
    have hbehind : texts back = u.drop ((first isKeyword c u).text.length - 1) := by
      rw [← hback, texts_ofText]
    rw [← hchunk, hbehind]
    refine ⟨first_ne_nil isKeyword c u, first_tidy (first_append_drop isKeyword c u).symm ?_⟩
    intro cl hcl hcomments
    rw [← hchunk, hcl] at h
    rw [← hbehind]
    exact htail cl back h hcomments

end Chunk

theorem Accounted.perm {offset : Nat} {spans spans' comments : List Span} {t : Text}
    (h : Accounted offset spans comments t) (hperm : spans.Perm spans') :
    Accounted offset spans' comments t where
  once i c hi hc hclear := by
    rw [← hperm.countP_eq]
    exact h.once i c hi hc hclear
  outside s hs := h.outside s (hperm.mem_iff.2 hs)

/-- Tokens and strays account for a text: with the comments read outside of them, nothing else than
white space is left, and none of them starts in a comment. -/
def Tokens.AccountFor (ts : Tokens) (t : Text) : Prop :=
  Accounted 0 ts.spans (readComments ts.spans 0 t) t

/-- The tokens and strays of a text account for it, unless a clause passes a block comment that goes on
behind its line or has more than white space and comments behind it in the line. -/
theorem Tokens.accountFor_ofText (isKeyword : Text → Bool) (t : Text)
    (htail : ∀ cl back, Chunk.clause cl :: back <:+ Chunk.ofText isKeyword t →
      Text.contains cl.tail "/*" = true → QuietBefore (Chunk.texts back) cl.tail) :
    (Tokens.ofText isKeyword t).AccountFor t := by
  have hperm : (Tokens.ofText isKeyword t).spans.Perm (Chunk.spans 0 (Chunk.ofText isKeyword t)) :=
    Chunk.perm_spans Position.start 0 (Chunk.ofText isKeyword t)
  have haccounted := @Chunk.accounted_spans (Tokens.ofText isKeyword t).spans _ 0
    (fun chunk back => Chunk.tidy_ofText htail) (fun i _ => hperm.countP_eq _)
  rw [Chunk.texts_ofText] at haccounted
  exact haccounted.perm hperm.symm

theorem Tokens.accountFor_remark :
    (Tokens.ofText (fun _ => false) "LIMIT 10 /* top */ # ten\nORDER cpu").AccountFor
      "LIMIT 10 /* top */ # ten\nORDER cpu" := by
  have hchunks : Chunk.ofText (fun _ => false) "LIMIT 10 /* top */ # ten\nORDER cpu" =
      [.clause ⟨"LIMIT", " ", some ⟨"10", false, none⟩, " /* top */ # ten"⟩, .skipped "\n",
        .clause ⟨"ORDER", " ", some ⟨"cpu", false, none⟩, []⟩] := by decide +kernel
  apply Tokens.accountFor_ofText
  rw [hchunks]
  intro cl back hsuffix hcomments
  simp only [List.suffix_cons_iff, List.suffix_nil, List.cons.injEq, Chunk.clause.injEq, reduceCtorEq,
    false_and, false_or, or_false] at hsuffix
  rcases hsuffix with ⟨rfl, rfl⟩ | ⟨rfl, -⟩
  · have htail : Text.ofString " /* top */ # ten" = CodeUnit.ofChar ' ' :: (Text.ofString "/* top */" ++
        CodeUnit.ofChar ' ' :: (Text.ofString "# ten" ++ [])) := by decide
    dsimp only
    rw [htail]
    refine .space (by decide) (.comment (by decide) (by decide) ?_)
    exact .space (by decide) (.comment (by decide) (by decide) .nil)
  · exact absurd hcomments (by decide)

/-- The rest of a line is lost behind a block comment, and what the comment holds of the next line is
taken for a command. -/
theorem Tokens.not_accountFor_remark :
    ¬(Tokens.ofText (fun _ => false) "LIMIT 10 /* a */ ORDER cpu").AccountFor
      "LIMIT 10 /* a */ ORDER cpu" ∧
    ¬(Tokens.ofText (fun _ => false) "LIMIT 10 /* a\nb */").AccountFor "LIMIT 10 /* a\nb */" := by
  constructor
  · intro h
    have hcount := h.once 17 'O' (by decide) (by decide) (by decide +kernel)
    exact absurd hcount (by decide +kernel)
  · intro h
    have hclear := h.outside ⟨14, 18⟩ (by decide +kernel) ⟨9, 18⟩ (by decide +kernel)
    exact absurd hclear (by decide)

end QueryLint
