import Mathlib.Data.List.Induction
import QueryLint.Fixture
import QueryLint.Proofs.Boundaries

/-!
Where a fixture cuts its text.

The block goes in at the start of a line and the reference at the end of one. When nothing but
blanks stands before the source in its line, and nothing but white space and a comment behind the
anchor in its line, both places lie between chunks and outside of blocks.
-/

namespace QueryLint
set_option autoImplicit false

namespace Chunk

/-- Before more text a block comment is closed. -/
theorem settled_of_unfaulted {isKeyword : Text → Bool} {t v : Text} {cs : List Chunk}
    (h : Cut isKeyword t cs v) (hv : v ≠ [])
    (hcs : ∀ cl, clause cl ∈ cs → ∀ payload ∈ cl.payload, payload.fault = none) :
    ∀ chunk ∈ cs, chunk.Settled := by
  induction h with
  | done t => simp
  | @chunk c u cs v hcut ih =>
    intro chunk hchunk
    rcases List.mem_cons.1 hchunk with rfl | hchunk
    · have htext := first_append_drop isKeyword c u
      rw [hcut.text_eq] at htext
      have hfault := fun cl hcl => hcs cl (List.mem_cons.2 (.inl hcl))
      have hform := first_form isKeyword c u
      generalize first isKeyword c u = chunk at htext hfault hform
      cases hform with
      | layout =>
        intro hblock
        obtain ⟨w, -, hw⟩ := startsBlockComment_iff.1 hblock
        cases hw
      | lineComment hcomment =>
        intro hblock
        rw [not_block_of_line (by rwa [startsLineComment_firstLine])] at hblock
        cases hblock
      | @blockComment u =>
        intro _
        refine throughCommentEnd_closed fun heq => hv ?_
        rw [text, heq] at htext
        have hnil : texts cs ++ v = [] := by simpa using htext
        exact (List.append_eq_nil_iff.1 hnil).2
      | stray => trivial
      | clause => exact hfault _ rfl
    · exact ih hv (fun cl hcl => hcs cl (List.mem_cons_of_mem _ hcl)) chunk hchunk

theorem ClauseForm.trail_free {isKeyword : Text → Bool} {name blanks rest : Text} {cl : Clause}
    (h : ClauseForm isKeyword name blanks rest cl)
    (hblanks : ∀ c ∈ blanks, CodeUnit.isBlank c = true)
    (hfault : ∀ payload ∈ cl.payload, payload.fault = none) : CodeUnit.ofChar '\n' ∉ cl.trail := by
  cases h with
  | ended => simp [Clause.trail]
  | bare => simp [Clause.trail]
  | bracketed => rw [bracketed_trail hfault]; simp
  | @line c u =>
    have hdrop : CodeUnit.ofChar '\n' ∉ (Text.firstLine (c :: u)).drop
        (lineContent (Text.firstLine (c :: u))).length :=
      fun hmem => Text.firstLine_free _ (List.mem_of_mem_drop hmem)
    rcases trail_lineClause name blanks (Text.firstLine (c :: u)) with htrail | htrail
    · rwa [htrail]
    · rw [htrail, List.mem_append, not_or]
      exact ⟨fun hmem => absurd (hblanks _ hmem) (by decide), hdrop⟩

theorem cut_behind_clause {isKeyword : Text → Bool} {t v : Text} {cl : Clause}
    (h : Cut isKeyword t [clause cl] v) (hfault : ∀ payload ∈ cl.payload, payload.fault = none)
    (hblank : BlankLine (cl.trail ++ v)) :
    ∃ (cs : List Chunk) (u : Text), Cut isKeyword v cs u ∧ EndsLine u ∧
      Text.firstLine (cl.trail ++ v) = cl.trail ++ texts cs ∧
      ∀ chunk ∈ cs, chunk.Settled ∧ ¬chunk.IsClause := by
  obtain ⟨name, blanks, rest, hform, hblanks, htext⟩ : ∃ name blanks rest,
      ClauseForm isKeyword name blanks rest cl ∧ (∀ c ∈ blanks, CodeUnit.isBlank c = true) ∧
        name ++ blanks ++ rest = cl.text ++ v := by
    have htext := h.text_eq
    simp only [texts_cons, texts_nil, List.append_nil, text] at htext
    generalize hchunk : clause cl = chunk at h
    cases h with
    | @chunk c u =>
      have hfirst := first_form isKeyword c u
      rw [← hchunk] at hfirst
      cases hfirst with
      | clause =>
        refine ⟨_, _, _, clauseAt_form isKeyword (c :: u), fun c hc => List.mem_takeWhile_imp hc, ?_⟩
        rw [List.append_assoc, List.takeWhile_append_dropWhile, List.takeWhile_append_dropWhile]
        exact htext
  have hfree := hform.trail_free hblanks hfault
  rcases hform.trail hfault htext with hnil | hv
  · rw [hnil, List.nil_append] at hblank ⊢
    obtain ⟨cs, u, hcut, hu, hcs, hclauses⟩ := cut_blankLine isKeyword hblank
    exact ⟨cs, u, hcut, hu, hcs.symm, hclauses⟩
  · refine ⟨[], v, .done v, hv, ?_, by simp⟩
    rw [hv.firstLine_append, Text.firstLine_eq_self hfree, texts_nil, List.append_nil]

theorem cut_clause_start {isKeyword : Text → Bool} {t v : Text} {cl : Clause} {cs : List Chunk}
    (h : Cut isKeyword t (clause cl :: cs) v) : ∃ c u, t = c :: u ∧ isNameStart c = true := by
  generalize hchunk : clause cl = chunk at h
  cases h with
  | @chunk c u =>
    have hfirst := first_form isKeyword c u
    rw [← hchunk] at hfirst
    cases hfirst with
    | clause hstart => exact ⟨c, u, rfl, hstart⟩

theorem cut_clauseAt {isKeyword : Text → Bool} {t v : Text} {cl : Clause} {cs : List Chunk}
    (h : Cut isKeyword t (clause cl :: cs) v) : ∃ c u, t = c :: u ∧ clauseAt isKeyword t = cl := by
  generalize hchunk : clause cl = chunk at h
  cases h with
  | @chunk c u =>
    have hfirst := first_form isKeyword c u
    rw [← hchunk] at hfirst
    cases hfirst with
    | clause hstart => exact ⟨c, u, rfl, rfl⟩

end Chunk

theorem Clause.text_trail (cl : Clause) : ∃ t, cl.text = t ++ cl.trail := by
  obtain ⟨name, gap, payload, tail⟩ := cl
  cases payload with
  | none => exact ⟨name, by simp [Clause.text, Clause.trail]⟩
  | some payload => exact ⟨name ++ gap ++ payload.text, by simp [Clause.text, Clause.trail]⟩

namespace Fixture

theorem anchors_some {root : List Command} {source anchor : Command}
    (h : anchors root = some (source, anchor)) :
    ∃ front back, root = front ++ source :: back ∧ (∀ c ∈ front, c.hasRole .source = false) ∧
      source.hasRole .source = true ∧ anchor = (back.find? (·.hasRole .loader)).getD source := by
  induction root with
  | nil => cases h
  | cons c root ih =>
    rw [anchors] at h
    split at h
    · rename_i hsource
      cases h
      exact ⟨[], root, rfl, by simp, hsource, rfl⟩
    · rename_i hsource
      obtain ⟨front, back, rfl, hfront, hs, ha⟩ := ih h
      refine ⟨c :: front, back, rfl, ?_, hs, ha⟩
      intro d hd
      rcases List.mem_cons.1 hd with rfl | hd
      · simpa using hsource
      · exact hfront d hd

theorem exists_line (t : Text) : ∃ lead line : Text, t = lead ++ line ∧ Chunk.AtLineStart lead ∧
    CodeUnit.ofChar '\n' ∉ line := by
  induction t using List.reverseRecOn with
  | nil => exact ⟨[], [], rfl, .inl rfl, by simp⟩
  | append_singleton t c ih =>
    by_cases hc : c = CodeUnit.ofChar '\n'
    · subst hc
      exact ⟨t ++ [CodeUnit.ofChar '\n'], [], by simp, .inr ⟨t, rfl⟩, by simp⟩
    · obtain ⟨lead, line, rfl, hlead, hline⟩ := ih
      refine ⟨lead, line ++ [c], by simp, hlead, ?_⟩
      rw [List.mem_append, List.mem_singleton, not_or]
      exact ⟨hline, Ne.symm hc⟩

theorem lineStart_eq {lead line : Text} (hlead : Chunk.AtLineStart lead)
    (hline : CodeUnit.ofChar '\n' ∉ line) (rest : Text) :
    lineStart (lead ++ line ++ rest) (lead ++ line).length = lead.length := by
  have hreverse : ((lead ++ line).reverse.takeWhile fun c : CodeUnit => decide (c ≠ '\n')) =
      line.reverse := by
    have hall : ∀ c ∈ line.reverse, (fun c : CodeUnit => decide (c ≠ '\n')) c = true := by
      intro c hc
      simp only [decide_eq_true_eq]
      rintro rfl
      exact hline (List.mem_reverse.1 hc)
    rw [List.reverse_append, List.takeWhile_append_of_pos hall]
    rcases hlead with rfl | ⟨u, rfl⟩ <;> simp
  rw [lineStart, List.take_left, hreverse, List.length_reverse, List.length_append,
    Nat.add_sub_cancel]

/-- The source has nothing but blanks before it in its line, and its anchor nothing but white space
and a comment behind it. -/
structure Clean (text : Text) (source anchor : Command) : Prop where
  before : ∀ c ∈ (text.take source.start.offset).drop (lineStart text source.start.offset),
    CodeUnit.isBlank c = true
  behind : Chunk.BlankLine (text.drop anchor.stop)

end Fixture

namespace Document
open Chunk

/-- The commands of a text before they are sorted into scopes. -/
def raw (dialect : Dialect) (text : Text) : List Command :=
  commandsOf dialect 0 .start (Chunk.ofText dialect.isKeyword text)

theorem raw_eq (dialect : Dialect) (text : Text) :
    raw dialect text = Command.ofTokens dialect 0 (Tokens.ofText dialect.isKeyword text).tokens := by
  rw [Tokens.ofText, ofTokens_ofChunks, raw]

theorem parts_eq (dialect : Dialect) (text : Text) :
    parts dialect text = group none (raw dialect text) := by
  rw [parts, partsOf, raw_eq]

/-- What does not depend on the scope holds of all commands before and after they are sorted. -/
theorem forall_raw {dialect : Dialect} {text : Text} {P : Command → Prop}
    (hP : ∀ name c, P (c.within name) ↔ P c) :
    (∀ c ∈ (parse dialect text).commands, P c) ↔ ∀ c ∈ raw dialect text, P c := by
  have hmap := map_commands_group P (fun name c => propext (hP name c)) none (raw dialect text)
  rw [← parts_eq, ← commands_parse, pending, List.nil_append] at hmap
  have hforall : ∀ cs : List Command, (∀ q ∈ cs.map P, q) ↔ ∀ c ∈ cs, P c :=
    fun _ => List.forall_mem_map
  rw [← hforall, hmap, hforall]

theorem role_of_hasRole {c : Command} {role : Role} (h : c.hasRole role = true) :
    c.role? = some role := by
  simpa [Command.hasRole] using h

theorem group_head_split {zs front back : List Command} {c : Command}
    (h : (group none zs).map Part.head = front ++ c :: back) (hc : c.role? ≠ some .blockOpen) :
    ∃ xs ys, zs = xs ++ c :: ys ∧ openAt none xs = none ∧ (group none xs).map Part.head = front ∧
      (group none ys).map Part.head = back := by
  obtain ⟨ps, rest, hparts, rfl, hrest⟩ := List.map_eq_append_iff.1 h
  obtain ⟨part, qs, rfl, rfl, rfl⟩ := List.map_eq_cons_iff.1 hrest
  have hformed : part.Formed :=
    formed_group (by simp) part (show part ∈ group none zs by rw [hparts]; simp)
  cases part with
  | block opener b => exact absurd hformed.1 hc
  | single c =>
    obtain ⟨xs, ys, hzs, hnone, rfl, rfl⟩ := group_split hparts
    exact ⟨xs, ys, hzs, hnone, rfl, rfl⟩

theorem openAt_single {c : Command} (hc : c.role? ≠ some .blockOpen) : openAt none [c] = none := by
  simp [openAt, hc]

theorem raw_anchors {dialect : Dialect} {text : Text} {source anchor : Command}
    (h : Fixture.anchors (parse dialect text).root = some (source, anchor)) :
    ∃ front middle back, raw dialect text = front ++ (middle ++ anchor :: back) ∧
      openAt none front = none ∧ openAt none middle = none ∧
      (middle ++ [anchor]).head? = some source ∧ source.role? ≠ some .blockOpen ∧
      anchor.role? ≠ some .blockOpen := by
  obtain ⟨front, back, hroot, -, hsource, hanchor⟩ := Fixture.anchors_some h
  have hsourceRole : source.role? ≠ some .blockOpen := by
    rw [role_of_hasRole hsource]
    decide
  rw [root_parse, parts_eq] at hroot
  obtain ⟨xs, ys, hraw, hxs, -, hys⟩ := group_head_split hroot hsourceRole
  cases hfind : back.find? (·.hasRole .loader) with
  | none =>
    rw [hfind, Option.getD_none] at hanchor
    subst hanchor
    exact ⟨xs, [], ys, hraw, hxs, rfl, rfl, hsourceRole, hsourceRole⟩
  | some loader =>
    rw [hfind, Option.getD_some] at hanchor
    subst hanchor
    have hloaderRole : anchor.role? ≠ some .blockOpen := by
      have hloader : anchor.hasRole .loader = true := by simpa using List.find?_some hfind
      rw [role_of_hasRole hloader]
      decide
    obtain ⟨-, inner, outer, hback, -⟩ := List.find?_eq_some_iff_append.1 hfind
    rw [hback] at hys
    obtain ⟨us, vs, rfl, hus, -, -⟩ := group_head_split hys hloaderRole
    refine ⟨xs, source :: us, vs, hraw, hxs, ?_, rfl, hsourceRole, hloaderRole⟩
    rw [← List.singleton_append, openAt_append, openAt_single hsourceRole, hus]

theorem start_ofClause (dialect : Dialect) (index : Nat) (p : Position) (cl : Clause) :
    (Command.ofClause dialect index p cl).start = p :=
  Token.start_ofClause p cl

theorem stop_ofClause (dialect : Dialect) (index : Nat) (p : Position) (cl : Clause) :
    (Command.ofClause dialect index p cl).stop + cl.trail.length = p.offset + cl.text.length :=
  Token.stop_ofClause p cl

theorem fault_ofClause {dialect : Dialect} {index : Nat} {p : Position} {cl : Clause}
    (h : (Command.ofClause dialect index p cl).delimiterFault = none) :
    ∀ payload ∈ cl.payload, payload.fault = none := by
  obtain ⟨name, gap, payload, tail⟩ := cl
  cases payload with
  | none => simp
  | some payload =>
    intro payload' heq
    cases heq
    exact h

theorem fault_of_mem {dialect : Dialect} {index : Nat} {p : Position} {cs : List Chunk}
    (h : ∀ c ∈ commandsOf dialect index p cs, c.delimiterFault = none) {cl : Clause}
    (hcl : Chunk.clause cl ∈ cs) : ∀ payload ∈ cl.payload, payload.fault = none := by
  obtain ⟨pre, post, rfl⟩ := List.append_of_mem hcl
  rw [commandsOf_append] at h
  exact fault_ofClause (h _ (List.mem_append_right _ List.mem_cons_self))

/-- The clauses of the source and of its anchor: `pre` and `inner` are the chunks before them, and
`behind` is what follows the clause `cl` of the anchor. -/
structure Located (dialect : Dialect) (text : Text) (source anchor : Command) (pre inner : List Chunk)
    (cl : Clause) (atSource atAnchor behind : Text) : Prop where
  before : Cut dialect.isKeyword text pre atSource
  start : ∃ c u, atSource = c :: u ∧ isNameStart c = true
  between : Cut dialect.isKeyword atSource inner atAnchor
  clause : Cut dialect.isKeyword atAnchor [.clause cl] behind
  settledBefore : ∀ chunk ∈ pre, chunk.Settled
  settledBetween : ∀ chunk ∈ inner, chunk.Settled
  fault : ∀ payload ∈ cl.payload, payload.fault = none
  offset : source.start.offset = (texts pre).length
  stop : anchor.stop + cl.trail.length = (texts pre).length + (texts inner).length + cl.text.length
  closedBefore : openAt none (commandsOf dialect 0 .start pre) = none
  sourceIndex : source.index = (commandsOf dialect 0 .start pre).length
  sourceRole : source.role? ≠ some .blockOpen
  anchorRole : anchor.role? ≠ some .blockOpen
  commands : ∃ middle, openAt none middle = none ∧ (middle ++ [anchor]).head? = some source ∧
    commandsOf dialect source.index (Position.start.after (texts pre)) (inner ++ [.clause cl]) =
      middle ++ [anchor]

/-- Where the commands fall apart at a source and its anchor, the chunks do so at their clauses. -/
theorem exists_clauses {dialect : Dialect} {cs : List Chunk} {source anchor : Command}
    {front middle back : List Command}
    (hcommands : commandsOf dialect 0 .start cs = front ++ (middle ++ anchor :: back))
    (hsource : (middle ++ [anchor]).head? = some source) :
    ∃ pre inner cl cl' post post', cs = pre ++ .clause cl :: post ∧
      .clause cl :: post = inner ++ .clause cl' :: post' ∧ commandsOf dialect 0 .start pre = front ∧
      source = .ofClause dialect front.length (Position.start.after (texts pre)) cl ∧
      commandsOf dialect source.index (Position.start.after (texts pre)) inner = middle ∧
      anchor = .ofClause dialect (source.index + middle.length)
        ((Position.start.after (texts pre)).after (texts inner)) cl' := by
  obtain ⟨rest, hrest⟩ : ∃ rest, middle ++ [anchor] = source :: rest := by
    cases hlist : middle ++ [anchor] with
    | nil => simp at hlist
    | cons c rest =>
      rw [hlist, List.head?_cons, Option.some.injEq] at hsource
      exact ⟨rest, by rw [hsource]⟩
  have hsplit : commandsOf dialect 0 .start cs = front ++ source :: (rest ++ back) := by
    rw [← List.cons_append, ← hrest, List.append_assoc]
    exact hcommands
  obtain ⟨pre, cl, post, rfl, hpre, hsourceEq, -⟩ := commandsOf_split dialect hsplit
  rw [Nat.zero_add] at hsourceEq
  have hbehind : commandsOf dialect source.index (Position.start.after (texts pre)) (.clause cl :: post) =
      middle ++ anchor :: back := by
    have hindex : source.index = front.length := by
      rw [hsourceEq]
      rfl
    rw [commandsOf_append, hpre, Nat.zero_add] at hcommands
    rw [hindex]
    exact List.append_cancel_left hcommands
  obtain ⟨inner, cl', post', hinner, hmiddle, hanchor, -⟩ := commandsOf_split dialect hbehind
  exact ⟨pre, inner, cl, cl', post, post', rfl, hinner, hpre, hsourceEq, hmiddle, hanchor⟩

theorem exists_located {dialect : Dialect} {text : Text} {source anchor : Command}
    (hanchors : Fixture.anchors (parse dialect text).root = some (source, anchor))
    (hfaults : ∀ c ∈ raw dialect text, c.delimiterFault = none) :
    ∃ pre inner cl atSource atAnchor behind,
      Located dialect text source anchor pre inner cl atSource atAnchor behind := by
  obtain ⟨front, middle, back, hraw, hfront, hmiddle, hsource, hsourceRole, hanchorRole⟩ :=
    raw_anchors hanchors
  obtain ⟨pre, inner, cl, cl', post, post', hchunks, hinner, hpre, hsourceEq, hmiddleEq, hanchorEq⟩ :=
    exists_clauses hraw hsource
  have hcut : Cut dialect.isKeyword text (ofText dialect.isKeyword text) [] := .all text
  rw [hchunks] at hcut
  obtain ⟨atSource, hcutPre, hcut⟩ := hcut.append_inv
  obtain ⟨c, w, hatSource, hstart⟩ := cut_clause_start hcut
  rw [hinner] at hcut
  obtain ⟨atAnchor, hcutInner, hcut⟩ := hcut.append_inv
  rw [← List.singleton_append] at hcut
  obtain ⟨behind, hcutClause, -⟩ := hcut.append_inv
  have hfault : ∀ cl, Chunk.clause cl ∈ pre ++ (inner ++ [.clause cl']) → ∀ payload ∈ cl.payload,
      payload.fault = none := by
    intro cl hcl
    refine fault_of_mem hfaults ?_
    rw [hchunks, hinner]
    simp only [List.mem_append, List.mem_cons, List.not_mem_nil, or_false] at hcl ⊢
    exact hcl.imp id (.imp id .inl)
  refine ⟨pre, inner, cl', atSource, atAnchor, behind, ?_⟩
  constructor
  case before => exact hcutPre
  case start => exact ⟨c, w, hatSource, hstart⟩
  case between => exact hcutInner
  case clause => exact hcutClause
  case settledBefore =>
    exact settled_of_unfaulted hcutPre (by rw [hatSource]; simp) fun cl hcl => hfault cl (by simp [hcl])
  case settledBetween =>
    obtain ⟨c', w', hatAnchor, -⟩ := cut_clause_start hcutClause
    exact settled_of_unfaulted hcutInner (by rw [hatAnchor]; simp) fun cl hcl => hfault cl (by simp [hcl])
  case fault => exact hfault cl' (by simp)
  case offset =>
    rw [hsourceEq, start_ofClause]
    simp [Position.start]
  case stop =>
    rw [hanchorEq, stop_ofClause]
    simp [Position.start]
  case closedBefore => rw [hpre, hfront]
  case sourceIndex =>
    rw [hpre, hsourceEq]
    rfl
  case sourceRole => exact hsourceRole
  case anchorRole => exact hanchorRole
  case commands =>
    refine ⟨middle, hmiddle, hsource, ?_⟩
    rw [commandsOf_append, hmiddleEq, hanchorEq]
    rfl

namespace Located
variable {dialect : Dialect} {text : Text} {source anchor : Command} {pre inner : List Chunk}
variable {cl : Clause} {atSource atAnchor behind : Text}
variable (h : Located dialect text source anchor pre inner cl atSource atAnchor behind)
include h

theorem drop_stop : text.drop anchor.stop = cl.trail ++ behind := by
  obtain ⟨w, hw⟩ := cl.text_trail
  have hclause := h.clause.text_eq
  have hstop := h.stop
  simp only [texts_cons, texts_nil, List.append_nil, Chunk.text] at hclause
  rw [hw, List.length_append] at hstop
  rw [h.before.text_eq, h.between.text_eq, hclause, hw, List.append_assoc w, ← List.append_assoc,
    ← List.append_assoc]
  exact List.drop_left' (by simp only [List.length_append]; omega)

/-- Before the source only the end of its line may be cut off. -/
theorem lineStart_eq {lead line : Text} (hlead : texts pre = lead ++ line) (hstart : AtLineStart lead)
    (hline : CodeUnit.ofChar '\n' ∉ line) :
    Fixture.lineStart text source.start.offset = lead.length := by
  rw [h.offset, h.before.text_eq, hlead]
  exact Fixture.lineStart_eq hstart hline atSource

theorem before_eq {lead line : Text} (hlead : texts pre = lead ++ line) (hstart : AtLineStart lead)
    (hline : CodeUnit.ofChar '\n' ∉ line) :
    (text.take source.start.offset).drop (Fixture.lineStart text source.start.offset) = line := by
  rw [h.lineStart_eq hlead hstart hline, h.offset, h.before.text_eq, List.take_left, hlead,
    List.drop_left]

/-- In a plain text commands stand on lines of their own. -/
theorem clean (hplain : Plain text) : Fixture.Clean text source anchor := by
  obtain ⟨c, u, hatSource, hc⟩ := h.start
  have hupcoming : Upcoming atSource := ⟨[], c, u, hatSource, by simp, hc⟩
  constructor
  case before =>
    obtain ⟨lead, blanks, hlead, hstart, hblanks⟩ :=
      lead_of_plain h.before h.settledBefore hplain hupcoming
    rw [h.before_eq hlead hstart fun hmem => absurd (hblanks _ hmem) (by decide)]
    exact hblanks
  case behind =>
    have hplainAnchor : Plain atAnchor := by
      rw [h.before.text_eq, h.between.text_eq] at hplain
      exact hplain.of_append.of_append
    obtain ⟨d, w, hatAnchor, hcl⟩ := cut_clauseAt h.clause
    have htext := h.clause.text_eq
    simp only [texts_cons, texts_nil, List.append_nil, Chunk.text] at htext
    rw [h.drop_stop]
    subst hcl
    exact clauseAt_blankLine hplainAnchor h.fault htext

/-- At the source no line ends, nor before the blanks in front of it. -/
theorem not_endsLine {blanks : Text} (hfree : CodeUnit.ofChar '\n' ∉ blanks) :
    ¬EndsLine (blanks ++ atSource) := by
  obtain ⟨c, w, hatSource, hstart⟩ := h.start
  intro hends
  cases blanks with
  | nil =>
    rw [hends c (by rw [hatSource]; rfl)] at hstart
    exact absurd hstart (by decide)
  | cons b blanks =>
    rw [List.mem_cons, not_or] at hfree
    exact hfree.1 (hends b rfl).symm

end Located

/-- Chunks without clauses may stand on both sides. -/
theorem commandsOf_amid (dialect : Dialect) {gaps tails : List Chunk}
    (hgaps : ∀ chunk ∈ gaps, ¬chunk.IsClause) (htails : ∀ chunk ∈ tails, ¬chunk.IsClause) (index : Nat)
    (p : Position) (cs : List Chunk) :
    commandsOf dialect index p (gaps ++ (cs ++ tails)) = commandsOf dialect index (p.after (texts gaps)) cs := by
  rw [commandsOf_append, commandsOf_eq_nil dialect hgaps, List.nil_append, List.length_nil, Nat.add_zero,
    commandsOf_append, commandsOf_eq_nil dialect htails, List.append_nil]

/-- The text cut at the two places where a fixture goes in, both outside of blocks: `u` is left
behind the first and `v` behind the second. -/
structure Places (dialect : Dialect) (text : Text) (source anchor : Command) (xs ys : List Chunk)
    (u v : Text) : Prop where
  first : Cut dialect.isKeyword text xs u
  second : Cut dialect.isKeyword u ys v
  settled : ∀ chunk ∈ xs ++ ys, chunk.Settled
  atLineStart : AtLineStart (texts xs)
  notEndsLine : ¬EndsLine u
  endsLine : EndsLine v
  blockAt : Fixture.lineStart text source.start.offset = (texts xs).length
  referenceAt : Fixture.lineEnd text anchor.stop = (texts xs ++ texts ys).length
  closedBefore : openAt none (commandsOf dialect 0 .start xs) = none
  closedBetween : openAt none (commandsOf dialect (commandsOf dialect 0 .start xs).length
    (Position.start.after (texts xs)) ys) = none

/-- Places with nothing between them but the commands from the source to its anchor. -/
structure Cuts (dialect : Dialect) (text : Text) (source anchor : Command) (xs ys : List Chunk)
    (u v : Text) : Prop extends Places dialect text source anchor xs ys u v where
  sourceIndex : source.index = (commandsOf dialect 0 .start xs).length
  sourceRole : source.role? ≠ some .blockOpen
  anchorRole : anchor.role? ≠ some .blockOpen
  commands : ∃ middle, openAt none middle = none ∧ (middle ++ [anchor]).head? = some source ∧
    commandsOf dialect source.index (Position.start.after (texts xs)) ys = middle ++ [anchor]

theorem exists_cuts {dialect : Dialect} {text : Text} {source anchor : Command}
    (hanchors : Fixture.anchors (parse dialect text).root = some (source, anchor))
    (hfaults : ∀ c ∈ raw dialect text, c.delimiterFault = none)
    (hclean : Fixture.Clean text source anchor) :
    ∃ xs ys u v, Cuts dialect text source anchor xs ys u v := by
  obtain ⟨pre, inner, cl, atSource, atAnchor, behind, h⟩ := exists_located hanchors hfaults
  -- the blanks before the source
  obtain ⟨lead, blanks, hlead, hleadStart, hfree⟩ := Fixture.exists_line (texts pre)
  have hblanks : ∀ c ∈ blanks, CodeUnit.isBlank c = true := by
    have hbefore := hclean.before
    rwa [h.before_eq hlead hleadStart hfree] at hbefore
  have hsource : ¬EndsLine atSource := h.not_endsLine List.not_mem_nil
  obtain ⟨xs, gaps, rfl, hxsText, hgaps, hgapsPlain⟩ :=
    cut_blanks h.before h.settledBefore hsource hlead hblanks
  -- the end of the line behind the anchor
  obtain ⟨tails, v, hcutTails, hv, hline, htails⟩ :=
    cut_behind_clause h.clause h.fault (h.drop_stop ▸ hclean.behind)
  obtain ⟨u, hcutXs, hcutGaps⟩ := h.before.append_inv
  have hbefore : commandsOf dialect 0 .start (xs ++ gaps) = commandsOf dialect 0 .start xs := by
    rw [commandsOf_append, commandsOf_eq_nil dialect hgapsPlain, List.append_nil]
  have hbetween : commandsOf dialect source.index (Position.start.after (texts xs))
      (gaps ++ (inner ++ ([.clause cl] ++ tails))) =
      commandsOf dialect source.index (Position.start.after (texts (xs ++ gaps)))
        (inner ++ [.clause cl]) := by
    rw [← List.append_assoc inner, commandsOf_amid dialect hgapsPlain fun chunk hchunk => (htails chunk hchunk).2,
      texts_append, Position.after_append]
  refine ⟨xs, gaps ++ (inner ++ ([.clause cl] ++ tails)), u, v, ?_⟩
  constructor
  case toPlaces =>
    constructor
    case first => exact hcutXs
    case second => exact hcutGaps.trans (h.between.trans (h.clause.trans hcutTails))
    case settled =>
      intro chunk hchunk
      simp only [List.mem_append, List.mem_singleton] at hchunk
      rcases hchunk with hchunk | hchunk | hchunk | rfl | hchunk
      · exact h.settledBefore chunk (List.mem_append_left _ hchunk)
      · exact h.settledBefore chunk (List.mem_append_right _ hchunk)
      · exact h.settledBetween chunk hchunk
      · exact h.fault
      · exact (htails chunk hchunk).1
    case atLineStart => rwa [hxsText]
    case notEndsLine =>
      rw [hcutGaps.text_eq, hgaps]
      exact h.not_endsLine hfree
    case endsLine => exact hv
    case blockAt => rw [h.lineStart_eq hlead hleadStart hfree, hxsText]
    case referenceAt =>
      have hstop := h.stop
      rw [Fixture.lineEnd, h.drop_stop, hline]
      simp only [texts_append, texts_cons, texts_nil, List.append_nil, List.length_append,
        Chunk.text] at hstop ⊢
      omega
    case closedBefore => rw [← hbefore, h.closedBefore]
    case closedBetween =>
      obtain ⟨middle, hmiddle, -, hcommands⟩ := h.commands
      rw [← hbefore, ← h.sourceIndex, hbetween, hcommands, openAt_append, hmiddle]
      exact openAt_single h.anchorRole
  case sourceIndex => rw [← hbefore, h.sourceIndex]
  case sourceRole => exact h.sourceRole
  case anchorRole => exact h.anchorRole
  case commands =>
    rw [hbetween]
    exact h.commands

theorem cut_lineBreak (isKeyword : Text → Bool) (v : Text) :
    Cut isKeyword (('\n' : CodeUnit) :: v) [skipped ['\n']] v :=
  cut_first rfl

namespace Places
variable {dialect : Dialect} {text : Text} {source anchor : Command} {xs ys : List Chunk} {u v : Text}
variable (h : Places dialect text source anchor xs ys u v)
include h

/-- The chunks before the block do not depend on what follows. -/
theorem first_stable (t : Text) : Cut dialect.isKeyword (texts xs ++ t) xs t := by
  have hcut := h.first
  have hsettled := fun chunk hchunk => h.settled chunk (List.mem_append_left ys hchunk)
  have hstart := h.atLineStart
  rw [hcut.text_eq] at hcut
  rcases List.eq_nil_or_concat xs with rfl | ⟨front, chunk, rfl⟩
  · exact .done t
  rw [List.concat_eq_append] at hcut hsettled hstart ⊢
  obtain ⟨hfront, hends⟩ := cut_last hcut (hsettled chunk (by simp))
  -- the last chunk is the line break
  have hlast : ∀ w d, chunk.text = w ++ [d] → d = CodeUnit.ofChar '\n' := by
    intro w d hd
    rcases hstart with hnil | ⟨w', hw'⟩
    · simp [hd] at hnil
    · have hend := congrArg List.getLast? hw'
      simpa [hd, ← List.append_assoc] using hend
  obtain ⟨d, rfl, -⟩ : ∃ d, chunk = skipped [d] ∧ d.isLayout = true := by
    rcases hends with hlayout | hends | ⟨w, d, hw, hd⟩
    · exact hlayout
    · exact absurd hends h.notEndsLine
    · rw [hlast w d hw] at hd
      exact absurd hd (by decide)
  obtain rfl := hlast [] d rfl
  simp only [texts_append, texts_cons, texts_nil, List.append_nil, Chunk.text, List.append_assoc,
    List.singleton_append] at hfront ⊢
  refine (hfront.stable ?_ (.lineBreak u) (.lineBreak t)).trans (cut_lineBreak _ t)
  exact fun chunk hchunk => hsettled chunk (by simp [hchunk])

theorem second_stable {t : Text} (ht : EndsLine t) : Cut dialect.isKeyword (texts ys ++ t) ys t := by
  have hcut := h.second
  rw [hcut.text_eq] at hcut
  exact hcut.stable (fun chunk hchunk => h.settled chunk (List.mem_append_right xs hchunk))
    h.endsLine ht

theorem text_eq : text = texts xs ++ (texts ys ++ v) := by
  rw [h.first.text_eq, h.second.text_eq]

theorem ofText_eq : ofText dialect.isKeyword text = xs ++ (ys ++ ofText dialect.isKeyword v) := by
  rw [h.first.ofText_eq, h.second.ofText_eq]

end Places

end Document

namespace Fixture
open Chunk Document

/-- The places of a fixture lie between chunks that are closed, and outside of blocks. -/
structure Fits (dialect : Dialect) (text : Text) (source anchor : Command)
    (before between behind : List Chunk) : Prop where
  chunks : ofText dialect.isKeyword text = before ++ (between ++ behind)
  settled : ∀ chunk ∈ before ++ between, chunk.Settled
  blockAt : lineStart text source.start.offset = (texts before).length
  referenceAt : lineEnd text anchor.stop = (texts (before ++ between)).length
  blockScope : openAt none (commandsOf dialect 0 .start before) = none
  referenceScope : openAt none (commandsOf dialect 0 .start (before ++ between)) = none

/-- A fixture goes in between the chunks of a text. Without a source it stands before all of them. -/
def Fitting (dialect : Dialect) (text : Text) : Prop :=
  ∀ source anchor, anchors (parse dialect text).root = some (source, anchor) →
    ∃ before between behind, Fits dialect text source anchor before between behind

theorem endsLine_drop_lineEnd (text : Text) (offset : Nat) :
    EndsLine (text.drop (lineEnd text offset)) := by
  obtain ⟨v, hv, hends⟩ := Text.firstLine_append_rest (text.drop offset)
  have hdrop := congrArg (List.drop (Text.firstLine (text.drop offset)).length) hv
  rw [List.drop_left, List.drop_drop] at hdrop
  rwa [lineEnd, hdrop]

section Fitting
variable {dialect : Dialect} {text : Text}
variable (hfaults : ∀ c ∈ raw dialect text, c.delimiterFault = none)
include hfaults

theorem Fitting.exists_places (h : Fitting dialect text) {source anchor : Command}
    (hanchors : anchors (parse dialect text).root = some (source, anchor)) :
    ∃ xs ys u v, Places dialect text source anchor xs ys u v := by
  obtain ⟨xs, ys, zs, hfits⟩ := h source anchor hanchors
  obtain ⟨pre, inner, cl, atSource, atAnchor, behind, hlocated⟩ := exists_located hanchors hfaults
  obtain ⟨u, hfirst, hu⟩ := Cut.of_ofText hfits.chunks
  obtain ⟨v, hsecond, hv⟩ := Cut.of_ofText hu
  -- the line of the source
  obtain ⟨lead, line, hlead, hleadStart, hfree⟩ := exists_line (texts pre)
  have hsplit : texts xs ++ u = lead ++ (line ++ atSource) := by
    rw [← hfirst.text_eq, hlocated.before.text_eq, hlead, List.append_assoc]
  have hlength : (texts xs).length = lead.length := by
    rw [← hfits.blockAt, hlocated.lineStart_eq hlead hleadStart hfree]
  obtain ⟨hxs, rfl⟩ := List.append_inj hsplit hlength
  refine ⟨xs, ys, line ++ atSource, v, ?_⟩
  constructor
  case first => exact hfirst
  case second => exact hsecond
  case settled => exact hfits.settled
  case atLineStart => rwa [hxs]
  case notEndsLine =>
    obtain ⟨c, w, hatSource, hc⟩ := hlocated.start
    intro hends
    cases line with
    | nil =>
      have hbreak := hends c (by rw [hatSource]; rfl)
      rw [hbreak] at hc
      exact absurd hc (by decide)
    | cons d line => exact hfree (List.mem_cons.2 (.inl (hends d rfl).symm))
  case endsLine =>
    have hdrop := endsLine_drop_lineEnd text anchor.stop
    rwa [hfits.referenceAt, hfirst.text_eq, hsecond.text_eq, ← List.append_assoc, ← texts_append,
      List.drop_left] at hdrop
  case blockAt => exact hfits.blockAt
  case referenceAt => rw [hfits.referenceAt, texts_append]
  case closedBefore => exact hfits.blockScope
  case closedBetween =>
    have hscope := hfits.referenceScope
    rwa [commandsOf_append, openAt_append, hfits.blockScope, Nat.zero_add] at hscope

theorem fitting_of_plain (hplain : Plain text) : Fitting dialect text := by
  intro source anchor hanchors
  obtain ⟨pre, inner, cl, atSource, atAnchor, behind, hlocated⟩ := exists_located hanchors hfaults
  obtain ⟨xs, ys, u, v, hcuts⟩ := exists_cuts hanchors hfaults (hlocated.clean hplain)
  refine ⟨xs, ys, _, hcuts.ofText_eq, hcuts.settled, hcuts.blockAt, ?_, hcuts.closedBefore, ?_⟩
  · rw [hcuts.referenceAt, texts_append]
  · rw [commandsOf_append, openAt_append, hcuts.closedBefore, Nat.zero_add, hcuts.closedBetween]

/-- What stands before the block does not depend on it. -/
theorem Fitting.exists_before (h : Fitting dialect text) (lines : List Text) (reference : Text) :
    ∃ (xs : List Chunk) (rest : Text),
      splice text (parse dialect text).root lines reference =
        texts xs ++ (Text.join "\n" lines ++ "\n" ++ rest) ∧
      ∀ t, Cut dialect.isKeyword (texts xs ++ t) xs t := by
  unfold splice
  cases hanchors : anchors (parse dialect text).root with
  | none => exact ⟨[], reference ++ "\n" ++ text, by simp, fun t => .done t⟩
  | some places =>
    obtain ⟨source, anchor⟩ := places
    obtain ⟨xs, ys, u, v, hplaces⟩ := h.exists_places hfaults hanchors
    have hbefore : text.take (lineStart text source.start.offset) = texts xs := by
      rw [hplaces.blockAt, hplaces.text_eq, List.take_left]
    refine ⟨xs, (text.take (lineEnd text anchor.stop)).drop (lineStart text source.start.offset) ++
      "\n" ++ reference ++ text.drop (lineEnd text anchor.stop), ?_, hplaces.first_stable⟩
    simp only [hbefore, List.append_assoc]

end Fitting
end Fixture
end QueryLint
