import QueryLint.Dialect.Builtin
import QueryLint.Proofs.Coverage
import QueryLint.Proofs.Positions
import QueryLint.Proofs.Splice

/-!
What the two places of a fixture may cut through.

The block goes in where the line of the source starts and the reference where the line of the anchor
ends, whatever else stands in these lines. Tokens and comments lie apart from one another, so a place
falls inside one of them only if it goes over the end of a line: a payload in brackets or a block
comment that ends before the source in its line, or that starts behind the anchor in its line.
-/

namespace QueryLint
set_option autoImplicit false

def Span.Clear (s : Span) (place : Nat) : Prop := place ≤ s.start ∨ s.stop ≤ place

instance (s : Span) (place : Nat) : Decidable (s.Clear place) :=
  inferInstanceAs (Decidable (place ≤ s.start ∨ s.stop ≤ place))

namespace Token

def span (k : Token) : Span := ⟨k.start.offset, k.stop⟩

def isBracketed (k : Token) : Bool := (k.payload.map (·.bracketed)).getD false

end Token

namespace Chunk

/-- The comment that a chunk passes: the chunk itself, or what stands behind the content of a
line. -/
def comment? : Chunk → Option Text
  | skipped text => if startsComment text then some text else none
  | stray _ => none
  | clause cl =>
    match Text.trimStart cl.trail with
    | [] => none
    | c :: rest => some (c :: rest)

/-- The comments that chunks from an offset on pass. Each ends with its chunk. -/
def comments (offset : Nat) : List Chunk → List Span
  | [] => []
  | chunk :: cs =>
    let stop := offset + chunk.text.length
    (chunk.comment?.map fun w => ⟨stop - w.length, stop⟩).toList ++ comments stop cs

end Chunk

section Pieces
variable (isKeyword : Text → Bool) (t : Text)

/-- What is read as one: the tokens of a text, and the comments that are skipped. -/
def pieces : List Span :=
  (Tokens.ofText isKeyword t).tokens.map Token.span ++ Chunk.comments 0 (Chunk.ofText isKeyword t)

/-- The pieces that may go over the end of a line: tokens with a payload in brackets, and block
comments. -/
def widePieces : List Span :=
  ((Tokens.ofText isKeyword t).tokens.filter Token.isBracketed).map Token.span ++
    (Chunk.comments 0 (Chunk.ofText isKeyword t)).filter fun s =>
      Chunk.startsBlockComment (t.drop s.start)

end Pieces

theorem Text.mem_slice {t : Text} {i j : Nat} {c : CodeUnit} :
    c ∈ t.slice i j ↔ ∃ k, i ≤ k ∧ k < j ∧ t[k]? = some c := by
  rw [Text.slice, List.mem_iff_getElem?]
  constructor
  · rintro ⟨k, hk⟩
    rw [List.getElem?_drop, List.getElem?_take] at hk
    split at hk
    · exact ⟨i + k, by omega, by omega, hk⟩
    · cases hk
  · rintro ⟨k, hi, hj, hk⟩
    refine ⟨k - i, ?_⟩
    rw [List.getElem?_drop, List.getElem?_take, Nat.add_sub_cancel' hi, if_pos hj, hk]

namespace Chunk

inductive Holds (offset : Nat) : Chunk → Span → Prop where
  | token {cl : Clause} {s : Span} : s.start = offset →
      s.stop + cl.trail.length = offset + cl.text.length → Holds offset (clause cl) s
  | comment {chunk : Chunk} {w : Text} {s : Span} : chunk.comment? = some w →
      s.start + w.length = s.stop → s.stop = offset + chunk.text.length → Holds offset chunk s

theorem length_trail_le (cl : Clause) : cl.trail.length ≤ cl.text.length := by
  obtain ⟨w, hw⟩ := cl.text_trail
  rw [hw, List.length_append]
  exact Nat.le_add_left _ _

theorem length_trimStart_le (t : Text) : (Text.trimStart t).length ≤ t.length :=
  (List.dropWhile_suffix _).length_le

theorem comment_skipped {u w : Text} (h : (skipped u).comment? = some w) :
    startsComment u = true ∧ w = u := by
  simp only [comment?] at h
  split at h
  · cases h
    exact ⟨‹_›, rfl⟩
  · cases h

theorem comment_clause {cl : Clause} {w : Text} (h : (clause cl).comment? = some w) :
    w = Text.trimStart cl.trail ∧ w ≠ [] := by
  simp only [comment?] at h
  split at h
  · cases h
  · rename_i hrest
    cases h
    exact ⟨hrest.symm, List.cons_ne_nil _ _⟩

theorem length_comment_le {chunk : Chunk} {w : Text} (h : chunk.comment? = some w) :
    w.length ≤ chunk.text.length := by
  cases chunk with
  | skipped u =>
    rw [(comment_skipped h).2]
    exact Nat.le_refl _
  | stray line => cases h
  | clause cl =>
    rw [(comment_clause h).1]
    exact (length_trimStart_le _).trans (length_trail_le cl)

namespace Holds
variable {offset : Nat} {chunk : Chunk} {s : Span}

theorem inside (h : Holds offset chunk s) :
    offset ≤ s.start ∧ s.stop ≤ offset + chunk.text.length := by
  cases h with
  | token hstart hstop =>
    rw [text]
    omega
  | comment hcomment hstart hstop =>
    have hle := length_comment_le hcomment
    omega

/-- In the chunk of a token nothing but the token reaches before its end. -/
theorem behind {cl : Clause} (h : Holds offset (clause cl) s) {stop : Nat}
    (hstop : stop + cl.trail.length = offset + cl.text.length) (hlt : stop < s.stop) :
    stop ≤ s.start := by
  cases h with
  | token => omega
  | comment hcomment hstart hend =>
    have hle := length_trimStart_le cl.trail
    rw [← (comment_clause hcomment).1] at hle
    rw [text] at hend
    omega

end Holds

theorem exists_of_mem_comments {offset : Nat} {cs : List Chunk} {s : Span}
    (h : s ∈ comments offset cs) : ∃ pre chunk post w, cs = pre ++ chunk :: post ∧
      chunk.comment? = some w ∧ s.start + w.length = s.stop ∧
      s.stop = offset + (texts pre).length + chunk.text.length := by
  induction cs generalizing offset with
  | nil => cases h
  | cons chunk cs ih =>
    rcases List.mem_append.1 h with h | h
    · obtain ⟨w, hw, rfl⟩ := Option.map_eq_some_iff.1 (Option.mem_toList.1 h)
      have hle := length_comment_le hw
      exact ⟨[], chunk, cs, w, rfl, hw, Nat.sub_add_cancel (by omega), rfl⟩
    · obtain ⟨pre, chunk', post, w, rfl, hw, hstart, hstop⟩ := ih h
      refine ⟨chunk :: pre, chunk', post, w, rfl, hw, hstart, ?_⟩
      rw [texts_cons, List.length_append]
      omega

theorem exists_of_mem_tokens {p : Position} {count : Nat} {cs : List Chunk} {k : Token}
    (h : k ∈ (Tokens.ofChunks p count cs).tokens) : ∃ pre cl post,
      cs = pre ++ clause cl :: post ∧ k = .ofClause (p.after (texts pre)) cl := by
  induction cs generalizing p count with
  | nil => cases h
  | cons chunk cs ih =>
    have hnext : ∀ {count : Nat}, k ∈ (Tokens.ofChunks (p.after chunk.text) count cs).tokens →
        ∃ pre cl post, chunk :: cs = pre ++ clause cl :: post ∧
          k = .ofClause (p.after (texts pre)) cl := by
      intro count h
      obtain ⟨pre, cl, post, rfl, hk⟩ := ih h
      exact ⟨chunk :: pre, cl, post, rfl, by rw [hk, texts_cons, Position.after_append]⟩
    cases chunk with
    | skipped u => exact hnext h
    | stray line => exact hnext h
    | clause cl =>
      rcases List.mem_cons.1 h with rfl | h
      · exact ⟨[], cl, cs, rfl, rfl⟩
      · exact hnext h

/-- Two chunks of a text are one, or one of them ends before the other starts. -/
theorem apart {pre pre' post post' : List Chunk} {chunk chunk' : Chunk}
    (h : pre ++ chunk :: post = pre' ++ chunk' :: post') :
    pre = pre' ∧ chunk = chunk' ∨
      (texts pre).length + chunk.text.length ≤ (texts pre').length ∨
      (texts pre').length + chunk'.text.length ≤ (texts pre).length := by
  induction pre generalizing pre' with
  | nil =>
    cases pre' with
    | nil => exact .inl ⟨rfl, (List.cons.inj h).1⟩
    | cons c pre' =>
      obtain ⟨rfl, -⟩ := List.cons.inj h
      refine .inr (.inl ?_)
      simp
  | cons c pre ih =>
    cases pre' with
    | nil =>
      obtain ⟨rfl, -⟩ := List.cons.inj h
      refine .inr (.inr ?_)
      simp
    | cons c' pre' =>
      obtain ⟨rfl, hrest⟩ := List.cons.inj h
      simp only [texts_cons, List.length_append]
      rcases ih hrest with ⟨rfl, rfl⟩ | hle | hle
      · exact .inl ⟨rfl, rfl⟩
      · exact .inr (.inl (by omega))
      · exact .inr (.inr (by omega))

end Chunk

open Chunk Dialect Document

theorem holds_ofClause (u : Text) (cl : Clause) :
    (clause cl).Holds u.length (Token.ofClause (Position.start.after u) cl).span := by
  have hstart := Token.start_ofClause (Position.start.after u) cl
  have hstop := Token.stop_ofClause (Position.start.after u) cl
  rw [Position.offset_start_after] at hstop
  refine .token ?_ hstop
  rw [Token.span, hstart, Position.offset_start_after]

theorem exists_of_mem_pieces {isKeyword : Text → Bool} {t : Text} {s : Span}
    (h : s ∈ pieces isKeyword t) : ∃ pre chunk post,
      Chunk.ofText isKeyword t = pre ++ chunk :: post ∧ chunk.Holds (texts pre).length s := by
  rcases List.mem_append.1 h with h | h
  · obtain ⟨k, hk, rfl⟩ := List.mem_map.1 h
    obtain ⟨pre, cl, post, hsplit, rfl⟩ := exists_of_mem_tokens hk
    exact ⟨pre, _, post, hsplit, holds_ofClause (texts pre) cl⟩
  · obtain ⟨pre, chunk, post, w, hsplit, hw, hstart, hstop⟩ := exists_of_mem_comments h
    rw [Nat.zero_add] at hstop
    exact ⟨pre, chunk, post, hsplit, .comment hw hstart hstop⟩

/-- A clause that holds a line break has a payload in brackets and nothing behind it. -/
theorem Chunk.bracketed_of_lineBreak {isKeyword : Text → Bool} {t : Text} {cl : Clause}
    (hcl : clause cl ∈ ofText isKeyword t) (h : CodeUnit.ofChar '\n' ∈ cl.text) :
    (∃ payload, cl.payload = some payload ∧ payload.bracketed = true) ∧
      ∀ c ∈ cl.trail, CodeUnit.isSpace c = true := by
  obtain ⟨name, blanks, rest, hform, ⟨c, u, rfl, hc, hu⟩, hblanks⟩ := exists_clauseForm hcl
  have hname : CodeUnit.ofChar '\n' ∉ c :: u := by
    intro hmem
    rcases List.mem_cons.1 hmem with rfl | hmem
    · exact absurd hc (by decide)
    · exact absurd (hu _ hmem) (by decide)
  have hgap : CodeUnit.ofChar '\n' ∉ blanks := fun hmem => absurd (hblanks _ hmem) (by decide)
  cases hform with
  | ended => exact absurd h (by simpa [Clause.text] using hname)
  | bare => exact absurd h (by simpa [Clause.text] using hname)
  | bracketed => exact ⟨⟨_, rfl, rfl⟩, fun d hd => isSpace_of_mem_trimmed hd⟩
  | line =>
    rw [text_lineClause] at h
    rcases List.mem_append.1 h with h | h
    · exact absurd h (List.not_mem_append hname hgap)
    · exact absurd h (Text.firstLine_free _)

theorem Chunk.block_of_lineBreak {isKeyword : Text → Bool} {t u : Text}
    (hchunk : skipped u ∈ ofText isKeyword t) (hcomment : startsComment u = true)
    (h : CodeUnit.ofChar '\n' ∈ u) : ∃ v : Text, u = ('/' : CodeUnit) :: ('*' : CodeUnit) :: v := by
  obtain ⟨c, w, hfirst⟩ := exists_first hchunk
  have hform := first_form isKeyword c w
  rw [← hfirst] at hform
  cases hform with
  | layout =>
    rw [List.mem_singleton] at h
    subst h
    exact absurd hcomment (by decide)
  | lineComment => exact absurd h (Text.firstLine_free _)
  | blockComment hc => exact ⟨_, by rw [hc]⟩

section Pieces
variable {isKeyword : Text → Bool} {t : Text} {s : Span}

theorem text_around {pre post : List Chunk} {chunk : Chunk}
    (h : Chunk.ofText isKeyword t = pre ++ chunk :: post) :
    t = texts pre ++ (chunk.text ++ texts post) := by
  rw [← texts_ofText isKeyword t, h, texts_append, texts_cons]

theorem mem_text_of_slice {pre post : List Chunk} {chunk : Chunk}
    (hsplit : Chunk.ofText isKeyword t = pre ++ chunk :: post)
    (hs : chunk.Holds (texts pre).length s) {c : CodeUnit} (hc : c ∈ t.slice s.start s.stop) :
    c ∈ chunk.text := by
  obtain ⟨hstart, hstop⟩ := hs.inside
  obtain ⟨k, hk, hk', hget⟩ := Text.mem_slice.1 hc
  rw [text_around hsplit, List.getElem?_append_right (by omega),
    List.getElem?_append_left (by omega)] at hget
  exact List.mem_of_getElem? hget

theorem mem_widePieces_of_lineBreak (hs : s ∈ pieces isKeyword t)
    (h : CodeUnit.ofChar '\n' ∈ t.slice s.start s.stop) : s ∈ widePieces isKeyword t := by
  rcases List.mem_append.1 hs with hs | hs
  · obtain ⟨k, hk, rfl⟩ := List.mem_map.1 hs
    obtain ⟨pre, cl, post, hsplit, rfl⟩ := exists_of_mem_tokens hk
    apply List.mem_append_left
    apply List.mem_map_of_mem
    refine List.mem_filter.2 ⟨hk, ?_⟩
    have hmem : clause cl ∈ Chunk.ofText isKeyword t := by rw [hsplit]; simp
    have hbreak := mem_text_of_slice hsplit (holds_ofClause (texts pre) cl) h
    obtain ⟨⟨payload, hpayload, hbracketed⟩, -⟩ := bracketed_of_lineBreak hmem hbreak
    simp [Token.isBracketed, Token.ofClause, hpayload, hbracketed]
  · obtain ⟨pre, chunk, post, w, hsplit, hw, hstart, hstop⟩ := exists_of_mem_comments hs
    rw [Nat.zero_add] at hstop
    have hmem : chunk ∈ Chunk.ofText isKeyword t := by rw [hsplit]; simp
    have hbreak := mem_text_of_slice hsplit (.comment hw hstart hstop) h
    refine List.mem_append_right _ (List.mem_filter.2 ⟨hs, ?_⟩)
    cases chunk with
    | skipped u =>
      obtain ⟨hcomment, rfl⟩ := comment_skipped hw
      obtain ⟨v, rfl⟩ := block_of_lineBreak hmem hcomment hbreak
      have hfront : s.start = (texts pre).length := by
        rw [Chunk.text] at hstop
        omega
      rw [hfront, text_around hsplit, List.drop_left]
      exact startsBlockComment_iff.2 ⟨_, rfl, rfl⟩
    | stray line => cases hw
    | clause cl =>
      obtain ⟨rfl, hne⟩ := comment_clause hw
      exact absurd (trimStart_eq_nil (bracketed_of_lineBreak hmem hbreak).2) hne

end Pieces

namespace Fixture

theorem lineStart_spec {t : Text} {offset : Nat} (h : offset ≤ t.length) :
    lineStart t offset ≤ offset ∧
      (0 < lineStart t offset → t[lineStart t offset - 1]? = some (CodeUnit.ofChar '\n')) ∧
      CodeUnit.ofChar '\n' ∉ t.slice (lineStart t offset) offset := by
  obtain ⟨lead, line, hsplit, hlead, hline⟩ := exists_line (t.take offset)
  have hlength : (lead ++ line).length = offset := by
    rw [← hsplit, List.length_take]
    omega
  have htext : t = lead ++ line ++ t.drop offset := by rw [← hsplit, List.take_append_drop]
  have hstart : lineStart t offset = lead.length := by
    rw [← hlength]
    nth_rewrite 1 [htext]
    exact lineStart_eq hlead hline _
  rw [hstart]
  refine ⟨?_, ?_, ?_⟩
  · rw [List.length_append] at hlength
    omega
  · intro hpos
    rcases hlead with rfl | ⟨u, rfl⟩
    · cases hpos
    · rw [htext]
      simp
  · rw [Text.slice, hsplit, List.drop_left]
    exact hline

theorem lineEnd_spec (t : Text) (offset : Nat) :
    offset ≤ lineEnd t offset ∧
      (∀ c ∈ t[lineEnd t offset]?, c = CodeUnit.ofChar '\n') ∧
      CodeUnit.ofChar '\n' ∉ t.slice offset (lineEnd t offset) := by
  refine ⟨Nat.le_add_right _ _, ?_, ?_⟩
  · intro c hc
    have hends := endsLine_drop_lineEnd t offset
    apply hends
    rwa [List.head?_drop]
  · have hslice : t.slice offset (lineEnd t offset) = Text.firstLine (t.drop offset) := by
      obtain ⟨v, hv, -⟩ := Text.firstLine_append_rest (t.drop offset)
      rw [Text.slice, lineEnd, List.drop_take, Nat.add_sub_cancel_left]
      nth_rewrite 2 [hv]
      rw [List.take_left]
    rw [hslice]
    exact Text.firstLine_free _

theorem mem_raw_of_anchors {dialect : Dialect} {text : Text} {source anchor : Command}
    (h : anchors (parse dialect text).root = some (source, anchor)) :
    source ∈ raw dialect text ∧ anchor ∈ raw dialect text := by
  obtain ⟨front, middle, back, hraw, -, -, hhead, -, -⟩ := raw_anchors h
  have hsource : source ∈ middle ++ [anchor] := List.mem_of_mem_head? hhead
  rw [hraw]
  constructor
  · apply List.mem_append_right
    rw [← List.singleton_append, ← List.append_assoc]
    exact List.mem_append_left back hsource
  · simp

theorem exists_clause_of_mem_raw {dialect : Dialect} {text : Text} {c : Command}
    (h : c ∈ raw dialect text) : ∃ pre cl post,
      Chunk.ofText dialect.isKeyword text = pre ++ clause cl :: post ∧
      c.start.offset = (texts pre).length ∧
      c.stop + cl.trail.length = (texts pre).length + cl.text.length := by
  obtain ⟨front, back, hsplit⟩ := List.append_of_mem h
  obtain ⟨pre, cl, post, hchunks, -, rfl, -⟩ := commandsOf_split dialect hsplit
  refine ⟨pre, cl, post, hchunks, ?_, ?_⟩
  · rw [start_ofClause, Position.offset_start_after]
  · rw [stop_ofClause, Position.offset_start_after]

section Places
variable {dialect : Dialect} {text : Text} {c : Command} (hc : c ∈ raw dialect text)
variable {s : Span} (hs : s ∈ pieces dialect.isKeyword text)
include hc hs

theorem stop_le_of_start_lt (h : s.start < c.start.offset) : s.stop ≤ c.start.offset := by
  obtain ⟨pre, cl, post, hchunks, hstart, -⟩ := exists_clause_of_mem_raw hc
  obtain ⟨pre', chunk, post', hchunks', hholds⟩ := exists_of_mem_pieces hs
  obtain ⟨hinside, hinside'⟩ := hholds.inside
  rcases apart (hchunks'.symm.trans hchunks) with ⟨rfl, -⟩ | hle | hle
  · omega
  · omega
  · omega

theorem stop_le_start_of_lt (h : c.stop < s.stop) : c.stop ≤ s.start := by
  obtain ⟨pre, cl, post, hchunks, -, hstop⟩ := exists_clause_of_mem_raw hc
  obtain ⟨pre', chunk, post', hchunks', hholds⟩ := exists_of_mem_pieces hs
  obtain ⟨hinside, hinside'⟩ := hholds.inside
  have htrail := length_trail_le cl
  rcases apart (hchunks'.symm.trans hchunks) with ⟨rfl, rfl⟩ | hle | hle
  · -- in the chunk of the command itself only a comment reaches behind the token
    exact hholds.behind hstop h
  · omega
  · rw [Chunk.text] at hle
    omega

theorem inside_lineStart_iff :
    ¬s.Clear (lineStart text c.start.offset) ↔ CodeUnit.ofChar '\n' ∈ text.slice s.start s.stop ∧
      lineStart text c.start.offset < s.stop ∧ s.stop ≤ c.start.offset := by
  have hlength : c.start.offset ≤ text.length := by
    obtain ⟨pre, cl, post, hchunks, hstart, -⟩ := exists_clause_of_mem_raw hc
    rw [hstart, text_around hchunks, List.length_append]
    exact Nat.le_add_right _ _
  obtain ⟨hle, hbreak, hfree⟩ := lineStart_spec hlength
  rw [Span.Clear, not_or, Nat.not_le, Nat.not_le]
  constructor
  · rintro ⟨hstart, hstop⟩
    -- the line break before the place belongs to the piece
    have hmem : CodeUnit.ofChar '\n' ∈ text.slice s.start s.stop :=
      Text.mem_slice.2 ⟨_, by omega, by omega, hbreak (by omega)⟩
    exact ⟨hmem, hstop, stop_le_of_start_lt hc hs (by omega)⟩
  · rintro ⟨hmem, hlt, hstop⟩
    obtain ⟨k, hk, hk', hget⟩ := Text.mem_slice.1 hmem
    have hbefore : k < lineStart text c.start.offset := by
      by_contra hge
      exact hfree (Text.mem_slice.2 ⟨k, by omega, by omega, hget⟩)
    omega

theorem inside_lineEnd_iff :
    ¬s.Clear (lineEnd text c.stop) ↔ CodeUnit.ofChar '\n' ∈ text.slice s.start s.stop ∧
      c.stop ≤ s.start ∧ s.start < lineEnd text c.stop := by
  have hlength : s.stop ≤ text.length := by
    obtain ⟨pre, chunk, post, hchunks, hholds⟩ := exists_of_mem_pieces hs
    have hinside := hholds.inside
    rw [text_around hchunks, List.length_append, List.length_append]
    omega
  obtain ⟨hle, hbreak, hfree⟩ := lineEnd_spec text c.stop
  rw [Span.Clear, not_or, Nat.not_le, Nat.not_le]
  constructor
  · rintro ⟨hstart, hstop⟩
    have hget := List.getElem?_eq_getElem (hstop.trans_le hlength)
    rw [hbreak _ hget] at hget
    have hmem : CodeUnit.ofChar '\n' ∈ text.slice s.start s.stop :=
      Text.mem_slice.2 ⟨_, by omega, hstop, hget⟩
    exact ⟨hmem, stop_le_start_of_lt hc hs (by omega), hstart⟩
  · rintro ⟨hmem, hstop, hlt⟩
    obtain ⟨k, hk, hk', hget⟩ := Text.mem_slice.1 hmem
    -- the rest of the line has no line break, so the one in the piece lies behind the place
    have hbehind : lineEnd text c.stop ≤ k := by
      by_contra hlt'
      exact hfree (Text.mem_slice.2 ⟨k, by omega, by omega, hget⟩)
    omega

end Places

theorem mem_pieces_of_wide {isKeyword : Text → Bool} {t : Text} {s : Span}
    (h : s ∈ widePieces isKeyword t) : s ∈ pieces isKeyword t := by
  rcases List.mem_append.1 h with h | h
  · obtain ⟨k, hk, rfl⟩ := List.mem_map.1 h
    exact List.mem_append_left _ (List.mem_map_of_mem (List.mem_filter.1 hk).1)
  · exact List.mem_append_right _ (List.mem_filter.1 h).1

/-- The places of a fixture lie outside of all tokens and comments if no payload in brackets and no
block comment goes over the end of a line and ends in the line of the source, before it, or starts in
the line of the anchor, behind it. -/
theorem clear_places_iff {dialect : Dialect} {text : Text} {source anchor : Command}
    (h : anchors (parse dialect text).root = some (source, anchor)) :
    (∀ s ∈ pieces dialect.isKeyword text,
      s.Clear (lineStart text source.start.offset) ∧ s.Clear (lineEnd text anchor.stop)) ↔
    ∀ s ∈ widePieces dialect.isKeyword text, CodeUnit.ofChar '\n' ∈ text.slice s.start s.stop →
      ¬(lineStart text source.start.offset < s.stop ∧ s.stop ≤ source.start.offset) ∧
        ¬(anchor.stop ≤ s.start ∧ s.start < lineEnd text anchor.stop) := by
  obtain ⟨hsource, hanchor⟩ := mem_raw_of_anchors h
  constructor
  · intro hclear s hs hmem
    have hpiece := mem_pieces_of_wide hs
    obtain ⟨hblock, hreference⟩ := hclear s hpiece
    constructor
    · intro hends
      exact (inside_lineStart_iff hsource hpiece).2 ⟨hmem, hends⟩ hblock
    · intro hstarts
      exact (inside_lineEnd_iff hanchor hpiece).2 ⟨hmem, hstarts⟩ hreference
  · intro hwide s hs
    constructor
    · by_contra hblock
      obtain ⟨hmem, hends⟩ := (inside_lineStart_iff hsource hs).1 hblock
      exact (hwide s (mem_widePieces_of_lineBreak hs hmem) hmem).1 hends
    · by_contra hreference
      obtain ⟨hmem, hstarts⟩ := (inside_lineEnd_iff hanchor hs).1 hreference
      exact (hwide s (mem_widePieces_of_lineBreak hs hmem) hmem).2 hstarts

/-- Comments in the two lines do no harm if they end there. -/
theorem clear_places_remarked : ∃ source anchor,
    anchors (parse pipeline "/* all */ SOURCE x\nLOAD # now\nPROJECT [\na]").root =
        some (source, anchor) ∧
      ∀ s ∈ pieces pipeline.isKeyword "/* all */ SOURCE x\nLOAD # now\nPROJECT [\na]",
        s.Clear (lineStart "/* all */ SOURCE x\nLOAD # now\nPROJECT [\na]" source.start.offset) ∧
          s.Clear (lineEnd "/* all */ SOURCE x\nLOAD # now\nPROJECT [\na]" anchor.stop) := by
  have hplaces : (anchors (parse pipeline "/* all */ SOURCE x\nLOAD # now\nPROJECT [\na]").root).map
      (fun pair => (pair.1.start.offset, pair.2.stop)) = some (10, 23) := by decide +kernel
  obtain ⟨⟨source, anchor⟩, hanchors, hpair⟩ := Option.map_eq_some_iff.1 hplaces
  obtain ⟨hsource, hanchor⟩ := Prod.mk.inj hpair
  refine ⟨source, anchor, hanchors, (clear_places_iff hanchors).2 ?_⟩
  rw [hsource, hanchor]
  decide +kernel

/-- The block lands inside a comment that ends in the line of the source, and the reference inside a
payload that starts in the line of the loader. -/
theorem places_inside :
    (∃ source anchor, anchors (parse pipeline "/* a\n b */ SOURCE x\nLOAD\nPROJECT [a]").root =
        some (source, anchor) ∧
      ∃ s ∈ pieces pipeline.isKeyword "/* a\n b */ SOURCE x\nLOAD\nPROJECT [a]",
        ¬s.Clear (lineStart "/* a\n b */ SOURCE x\nLOAD\nPROJECT [a]" source.start.offset)) ∧
    ∃ source anchor, anchors (parse pipeline "SOURCE x\nLOAD /* a */ PROJECT [\na]").root =
        some (source, anchor) ∧
      ∃ s ∈ pieces pipeline.isKeyword "SOURCE x\nLOAD /* a */ PROJECT [\na]",
        ¬s.Clear (lineEnd "SOURCE x\nLOAD /* a */ PROJECT [\na]" anchor.stop) := by
  constructor
  · have hstart : (anchors (parse pipeline "/* a\n b */ SOURCE x\nLOAD\nPROJECT [a]").root).map
        (fun pair => pair.1.start.offset) = some 11 := by decide +kernel
    obtain ⟨⟨source, anchor⟩, hanchors, hsource⟩ := Option.map_eq_some_iff.1 hstart
    refine ⟨source, anchor, hanchors, ⟨0, 10⟩, by decide +kernel, ?_⟩
    rw [hsource]
    decide +kernel
  · have hstop : (anchors (parse pipeline "SOURCE x\nLOAD /* a */ PROJECT [\na]").root).map
        (fun pair => pair.2.stop) = some 13 := by decide +kernel
    obtain ⟨⟨source, anchor⟩, hanchors, hanchor⟩ := Option.map_eq_some_iff.1 hstop
    refine ⟨source, anchor, hanchors, ⟨22, 34⟩, by decide +kernel, ?_⟩
    rw [hanchor]
    decide +kernel

end Fixture
end QueryLint
