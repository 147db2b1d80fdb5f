import QueryLint.Proofs.LineEndings.Scanning

/-!
Tokens of a text with either kind of line ending.

Two readers pass along a text, one with LF and one with CR LF. They cut the same chunks, but where
the first stops before the end of a line the second may have passed the CR. So between chunks they
stand at the same place or on either side of a CR, and the tokens and strays they find have the same
names, lines and columns.
-/

namespace QueryLint
set_option autoImplicit false

open Text

namespace Text

/-- Of a text with LF and of the same text with CR LF as much is taken, or of the second also the CR
of the line break that is next. -/
def Abreast (taken taken' rest : Text) : Prop :=
  taken' = crlf taken ∨
    taken' = crlf taken ++ [('\r' : CodeUnit)] ∧ ∃ u : Text, rest = ('\n' : CodeUnit) :: u

namespace Abreast
variable {x x' u : Text} (h : Abreast x x' u)
include h

theorem append_left {y : Text} (hy : CodeUnit.ofChar '\n' ∉ y) : Abreast (y ++ x) (y ++ x') u := by
  rcases h with rfl | ⟨rfl, hu⟩
  · left
    rw [crlf_append, crlf_eq_self hy]
  · right
    refine ⟨?_, hu⟩
    rw [crlf_append, crlf_eq_self hy, List.append_assoc]

theorem trimEnd_eq : trimEnd x' = crlf (trimEnd x) := by
  rcases h with rfl | ⟨rfl, -⟩
  · exact trimEnd_crlf x
  · rw [trimEnd_append_return, trimEnd_crlf]

end Abreast

theorem lineMark_cases (u : Text) :
    lineMark u = [] ∨ lineMark u = [('\r' : CodeUnit)] ∧ ∃ w : Text, u = ('\n' : CodeUnit) :: w := by
  cases u with
  | nil => exact .inl rfl
  | cons c u =>
    by_cases hc : c = '\n'
    · subst hc
      exact .inr ⟨rfl, u, rfl⟩
    · exact .inl (if_neg hc)

theorem abreast_firstLine {t u : Text} (h : t = firstLine t ++ u) :
    Abreast (firstLine t) (firstLine (crlf t)) u := by
  have hrest : t.drop (firstLine t).length = u := by
    have hdrop : (firstLine t ++ u).drop (firstLine t).length = u := List.drop_left
    rwa [← h] at hdrop
  rw [firstLine_crlf, hrest, Abreast, crlf_eq_self (firstLine_free t)]
  rcases lineMark_cases u with hmark | ⟨hmark, hu⟩
  · exact .inl (by rw [hmark, List.append_nil])
  · exact .inr ⟨by rw [hmark], hu⟩

theorem abreast_take {t : Text} {n n' : Nat} (h : n' = crlfOffset t n ∨
    t[n]? = some (CodeUnit.ofChar '\n') ∧ n' = crlfOffset t n + 1) :
    Abreast (t.take n) ((crlf t).take n') (t.drop n) := by
  rcases h with rfl | ⟨hbreak, rfl⟩
  · exact .inl (take_crlf t n)
  · right
    obtain ⟨hn, hunit⟩ := List.getElem?_eq_some_iff.1 hbreak
    have hrest : t.drop n = ('\n' : CodeUnit) :: t.drop (n + 1) := by
      rw [List.drop_eq_getElem_cons hn, hunit]
    refine ⟨?_, _, hrest⟩
    rw [List.take_add, take_crlf, drop_crlf, hrest]
    rfl

end Text

namespace Chunk

theorem trailingLength_firstLine_crlf (t : Text) :
    trailingLength (firstLine (crlf t)) = trailingLength (firstLine t) := by
  rw [firstLine_crlf]
  rcases lineMark_cases (t.drop (firstLine t).length) with hmark | ⟨hmark, -⟩
  · rw [hmark, List.append_nil]
  · rw [hmark, trailingLength_append_return]

theorem lineContent_firstLine_crlf (t : Text) :
    lineContent (firstLine (crlf t)) = lineContent (firstLine t) := by
  rw [firstLine_crlf]
  rcases lineMark_cases (t.drop (firstLine t).length) with hmark | ⟨hmark, -⟩
  · rw [hmark, List.append_nil]
  · rw [hmark, lineContent_append_return]

section Bracketed
variable (isKeyword : Text → Bool) (bracket : Bracket) {c : CodeUnit} {t : Text}
variable (hc : c ≠ '\n') (ht : Unix (c :: t))
include hc ht

theorem extent_crlf : (Delimiter.extent (startsCommand isKeyword) bracket t).AgreesOn (c :: t)
    (Delimiter.extent (startsCommand isKeyword) bracket (crlf t)) := by
  have hrun := Delimiter.Scan.run_crlf (startsCommand_crlf isKeyword) (x := [c]) (s := .start bracket)
    rfl ht.tail ⟨by simp [Delimiter.Scan.start], by simp [Delimiter.Scan.start],
      by simp [Delimiter.Scan.start]⟩
  rw [crlf_cons hc] at hrun
  exact hrun

theorem bracketedLength_crlf :
    bracketedLength isKeyword bracket (crlf (c :: t)) =
        crlfOffset (c :: t) (bracketedLength isKeyword bracket (c :: t)) ∨
      (c :: t)[bracketedLength isKeyword bracket (c :: t)]? = some (CodeUnit.ofChar '\n') ∧
        bracketedLength isKeyword bracket (crlf (c :: t)) =
          crlfOffset (c :: t) (bracketedLength isKeyword bracket (c :: t)) + 1 := by
  have hagree := extent_crlf isKeyword bracket hc ht
  have hdrop : (crlf (c :: t)).drop 1 = crlf t := by
    rw [crlf_cons hc]
    rfl
  unfold bracketedLength
  rw [hdrop, show (c :: t).drop 1 = t from rfl]
  dsimp only
  generalize hextent : Delimiter.extent (startsCommand isKeyword) bracket t = e at hagree ⊢
  generalize Delimiter.extent (startsCommand isKeyword) bracket (crlf t) = e' at hagree ⊢
  obtain ⟨hfault, hlength⟩ := hagree
  rw [hfault]
  cases hnone : e.fault with
  | some fault =>
    dsimp only
    exact hlength.imp_right And.right
  | none =>
    rw [hnone] at hlength
    have hlevel : e'.length = crlfOffset (c :: t) e.length := by simpa using hlength
    have hfit : e.length ≤ (c :: t).length := by
      have hle := Delimiter.Scan.le_of_run (hextent.trans (by rw [← hnone]))
      rw [List.length_cons]
      omega
    left
    dsimp only
    rw [hlevel, drop_crlf, trailingLength_firstLine_crlf]
    -- what belongs to the payload behind its bracket stands on one line
    have hline := firstLine_isPrefix ((c :: t).drop e.length)
    have hle := trailingLength_le (firstLine ((c :: t).drop e.length))
    generalize trailingLength (firstLine ((c :: t).drop e.length)) = k at hle ⊢
    have hfree : CodeUnit.ofChar '\n' ∉ ((c :: t).drop e.length).take k := by
      obtain ⟨v, hv⟩ := hline
      rw [← hv, List.take_append_of_le_length hle]
      intro hmem
      exact firstLine_free _ (List.mem_of_mem_take hmem)
    have hlength := hline.length_le
    rw [List.length_drop] at hlength
    rw [crlfOffset_add hfree (by omega)]

end Bracketed

end Chunk

/-- The clauses agree: they have the same name and fault, and the payload of the second is that of the
first with CR LF. -/
structure Clause.Agree (cl cl' : Clause) (rest : Text) : Prop where
  name : cl'.name = cl.name
  payload : cl'.payload.map (·.text) = cl.payload.map fun payload => crlf payload.text
  fault : cl'.payload.bind (·.fault) = cl.payload.bind (·.fault)
  unix : ∀ payload ∈ cl.payload, Unix payload.text
  text : Abreast cl.text cl'.text rest

namespace Chunk

theorem agree_bare {name : Text} (hname : CodeUnit.ofChar '\n' ∉ name) (rest : Text) :
    Clause.Agree ⟨name, [], none, []⟩ ⟨name, [], none, []⟩ rest := by
  refine ⟨rfl, rfl, rfl, by simp, .inl ?_⟩
  rw [crlf_eq_self]
  simpa [Clause.text] using hname

section Lead
variable {name gap : Text} (hlead : CodeUnit.ofChar '\n' ∉ name ++ gap)
include hlead

theorem agree_bracketed (isKeyword : Text → Bool) (bracket : Bracket) {c : CodeUnit} {t u : Text}
    (hc : c ≠ '\n') (ht : Unix (c :: t))
    (hrest : name ++ gap ++ c :: t = (bracketedClause isKeyword name gap bracket (c :: t)).text ++ u) :
    (bracketedClause isKeyword name gap bracket (c :: t)).Agree
      (bracketedClause isKeyword name gap bracket (crlf (c :: t))) u := by
  have htaken := abreast_take (bracketedLength_crlf isKeyword bracket hc ht)
  have hu : (c :: t).drop (bracketedLength isKeyword bracket (c :: t)) = u := by
    rw [text_bracketedClause, List.append_assoc (name ++ gap)] at hrest
    exact List.append_cancel_left ((List.take_append_drop _ _).trans (List.append_cancel_left hrest))
  rw [hu] at htaken
  refine ⟨rfl, ?_, ?_, ?_, ?_⟩
  · exact congrArg some htaken.trimEnd_eq
  · rw [crlf_cons hc]
    exact (extent_crlf isKeyword bracket hc ht).1
  · intro payload hpayload
    cases hpayload
    exact ht.of_isPrefix ((trimEnd_isPrefix _).trans (List.take_prefix _ _))
  · rw [text_bracketedClause, text_bracketedClause]
    exact htaken.append_left hlead

theorem agree_line {t u : Text} (ht : Unix t)
    (hrest : name ++ gap ++ t = (lineClause name gap (firstLine t)).text ++ u) :
    (lineClause name gap (firstLine t)).Agree (lineClause name gap (firstLine (crlf t))) u := by
  have hpayload : (lineClause name gap (firstLine (crlf t))).payload =
      (lineClause name gap (firstLine t)).payload := by
    unfold lineClause
    rw [lineContent_firstLine_crlf]
  have htext : ∀ payload ∈ (lineClause name gap (firstLine t)).payload,
      payload.text = lineContent (firstLine t) := by
    intro payload hpayload
    simp only [lineClause] at hpayload
    split at hpayload
    · cases hpayload
    · cases hpayload
      rfl
  have hcontent := lineContent_isPrefix (firstLine t)
  refine ⟨rfl, ?_, ?_, ?_, ?_⟩
  · rw [hpayload]
    refine Option.map_congr fun payload hmem => ?_
    rw [htext payload hmem, crlf_eq_self]
    intro hnewline
    exact firstLine_free t (hcontent.subset hnewline)
  · rw [hpayload]
  · intro payload hmem
    rw [htext payload hmem]
    exact ht.of_isPrefix (hcontent.trans (firstLine_isPrefix t))
  · rw [text_lineClause, List.append_assoc (name ++ gap)] at hrest
    rw [text_lineClause, text_lineClause]
    exact (abreast_firstLine (List.append_cancel_left hrest)).append_left hlead

end Lead

theorem newline_not_mem_takeWhile {p : CodeUnit → Bool} (hp : p (CodeUnit.ofChar '\n') = false)
    (t : Text) : CodeUnit.ofChar '\n' ∉ t.takeWhile p := by
  intro hmem
  have hpass := List.mem_takeWhile_imp hmem
  rw [hp] at hpass
  cases hpass

theorem agree_clauseAt (isKeyword : Text → Bool) {t u : Text} (ht : Unix t)
    (hrest : t = (clauseAt isKeyword t).text ++ u) :
    (clauseAt isKeyword t).Agree (clauseAt isKeyword (crlf t)) u := by
  have hsplit : t = t.takeWhile isNameUnit ++ (t.dropWhile isNameUnit).takeWhile CodeUnit.isBlank ++
      (t.dropWhile isNameUnit).dropWhile CodeUnit.isBlank := by
    rw [List.append_assoc, List.takeWhile_append_dropWhile, List.takeWhile_append_dropWhile]
  have hname : CodeUnit.ofChar '\n' ∉ t.takeWhile isNameUnit := newline_not_mem_takeWhile (by decide) t
  have hgap : CodeUnit.ofChar '\n' ∉ (t.dropWhile isNameUnit).takeWhile CodeUnit.isBlank :=
    newline_not_mem_takeWhile (by decide) _
  unfold clauseAt at hrest ⊢
  dsimp only at hrest ⊢
  rw [takeWhile_crlf (by decide) (by decide), dropWhile_crlf (by decide) (by decide),
    takeWhile_crlf (by decide) (by decide), dropWhile_crlf (by decide) (by decide)]
  generalize t.takeWhile isNameUnit = name at *
  generalize (t.dropWhile isNameUnit).takeWhile CodeUnit.isBlank = gap at *
  generalize (t.dropWhile isNameUnit).dropWhile CodeUnit.isBlank = rest at *
  have hlead : CodeUnit.ofChar '\n' ∉ name ++ gap := by
    rw [List.mem_append, not_or]
    exact ⟨hname, hgap⟩
  rw [hsplit] at ht
  rw [hsplit] at hrest
  cases rest with
  | nil => exact agree_bare hname u
  | cons c r =>
    by_cases hc : c = '\n'
    · subst hc
      exact agree_bare hname u
    · have hcomment := startsComment_crlf (c :: r)
      have hbracketed := fun bracket => agree_bracketed hlead isKeyword bracket (u := u) hc ht.append_right
      have hline := agree_line hlead (u := u) ht.append_right
      rw [crlf_cons hc] at hcomment hbracketed hline ⊢
      rw [hcomment]
      cases hopen : Bracket.ofOpening? c with
      | some bracket =>
        simp only [hopen] at hrest ⊢
        exact hbracketed bracket hrest
      | none =>
        simp only [hopen] at hrest ⊢
        split
        · exact agree_bare hname u
        · rename_i hother
          rw [if_neg hother] at hrest
          exact hline hrest

inductive Agree (rest : Text) : Chunk → Chunk → Prop where
  | skipped {x x' : Text} : Abreast x x' rest → Agree rest (skipped x) (skipped x')
  | stray {x x' : Text} : CodeUnit.ofChar '\n' ∉ x → Abreast x x' rest →
      Agree rest (stray x) (stray x')
  | clause {cl cl' : Clause} : cl.Agree cl' rest → Agree rest (clause cl) (clause cl')

theorem Agree.text {rest : Text} {chunk chunk' : Chunk} (h : Agree rest chunk chunk') :
    Abreast chunk.text chunk'.text rest := by
  cases h with
  | skipped h => exact h
  | stray _ h => exact h
  | clause h => exact h.text

theorem agree_first (isKeyword : Text → Bool) {c : CodeUnit} {t u : Text} (hc : c ≠ '\n')
    (ht : Unix (c :: t)) (hrest : c :: t = (first isKeyword c t).text ++ u) :
    Agree u (first isKeyword c t) (first isKeyword c (crlf t)) := by
  have hline : startsLineComment (c :: crlf t) = startsLineComment (c :: t) := by
    rw [← crlf_cons hc]
    unfold startsLineComment
    rw [startsWith_crlf (by decide) (by decide), startsWith_crlf (by decide) (by decide),
      startsWith_crlf (by decide) (by decide)]
  have hblock : startsBlockComment (c :: crlf t) = startsBlockComment (c :: t) := by
    rw [← crlf_cons hc]
    exact startsWith_crlf (by decide) (by decide) _
  have hfirstLine := @abreast_firstLine (c :: t) u
  have hclause := @agree_clauseAt isKeyword (c :: t) u ht
  rw [crlf_cons hc] at hfirstLine hclause
  unfold first at hrest ⊢
  rw [hline, hblock]
  by_cases hlayout : c.isLayout = true
  · simp only [if_pos hlayout]
    exact .skipped (.inl (crlf_cons hc []).symm)
  simp only [if_neg hlayout] at hrest ⊢
  by_cases hcomment : startsLineComment (c :: t) = true
  · simp only [if_pos hcomment] at hrest ⊢
    exact .skipped (hfirstLine hrest)
  simp only [if_neg hcomment] at hrest ⊢
  by_cases hopen : startsBlockComment (c :: t) = true
  · simp only [if_pos hopen]
    obtain ⟨v, rfl, rfl⟩ := startsBlockComment_iff.1 hopen
    refine .skipped (.inl ?_)
    rw [crlf_append]
    exact congrArg _ (throughCommentEnd_crlf v)
  simp only [if_neg hopen] at hrest ⊢
  by_cases hstart : (!isNameStart c) = true
  · simp only [if_pos hstart] at hrest ⊢
    exact .stray (firstLine_free _) (hfirstLine hrest)
  · simp only [if_neg hstart] at hrest ⊢
    exact .clause (hclause hrest)

end Chunk

/-- The tokens agree: the payload of the second is that of the first with CR LF, and only offsets
differ otherwise. -/
structure Token.Agree (k k' : Token) : Prop where
  name : k'.name = k.name
  line : k'.start.line = k.start.line
  column : k'.start.column = k.start.column
  payload : k'.payload.map (·.text) = k.payload.map fun payload => crlf payload.text
  unix : ∀ payload ∈ k.payload, Unix payload.text
  fault : k'.fault = k.fault

structure Stray.Agree (s s' : Stray) : Prop where
  text : s'.text = s.text
  line : s'.start.line = s.start.line
  after : s'.after = s.after

structure Tokens.Agree (ts ts' : Tokens) : Prop where
  tokens : List.Forall₂ Token.Agree ts.tokens ts'.tokens
  strays : List.Forall₂ Stray.Agree ts.strays ts'.strays

theorem Token.agree_ofClause {p p' : Position} {cl cl' : Clause} {rest : Text} (h : cl.Agree cl' rest)
    (hline : p'.line = p.line) (hcolumn : p'.column = p.column) :
    (ofClause p cl).Agree (ofClause p' cl') := by
  obtain ⟨name, gap, payload, tail⟩ := cl
  obtain ⟨name', gap', payload', tail'⟩ := cl'
  obtain ⟨hname, hpayload, hfault, hunix, -⟩ := h
  cases payload with
  | none =>
    cases payload' with
    | none => exact ⟨hname, hline, hcolumn, rfl, by simp [ofClause], rfl⟩
    | some payload' => cases hpayload
  | some payload =>
    cases payload' with
    | none => cases hpayload
    | some payload' =>
      refine ⟨hname, hline, hcolumn, hpayload, ?_, hfault⟩
      intro raw hraw
      cases hraw
      exact hunix payload rfl

namespace Position

theorem after_crlf {p p' : Position} (hline : p'.line = p.line) (hcolumn : p'.column = p.column)
    (t : Text) : (p'.after (crlf t)).line = (p.after t).line ∧
      (p'.after (crlf t)).column = (p.after t).column := by
  induction t generalizing p p' with
  | nil => exact ⟨hline, hcolumn⟩
  | cons c t ih =>
    by_cases hc : c = '\n'
    · subst hc
      exact ih (congrArg (· + 1) hline) rfl
    · rw [crlf_cons hc]
      refine ih ?_ ?_
      · simp [next, hc, hline]
      · simp [next, hc, hcolumn]

end Position

/-- The readers stand at the same place, or on either side of a CR. -/
inductive Level : Position → Text → Position → Text → Prop where
  | same {p p' : Position} (t : Text) : p'.line = p.line → p'.column = p.column → Level p t p' (crlf t)
  | apart {p p' : Position} (t : Text) : p'.line = p.line →
      Level p (('\n' : CodeUnit) :: t) p' (('\n' : CodeUnit) :: crlf t)

theorem level_after {p p' : Position} {x x' u u' : Text} (hline : p'.line = p.line)
    (hcolumn : p'.column = p.column) (h : Abreast x x' u) (htext : crlf (x ++ u) = x' ++ u') :
    Level (p.after x) u (p'.after x') u' := by
  obtain ⟨hafter, hafter'⟩ := Position.after_crlf hline hcolumn x
  rw [crlf_append] at htext
  rcases h with rfl | ⟨rfl, w, rfl⟩
  · rw [← List.append_cancel_left htext]
    exact .same u hafter hafter'
  · rw [List.append_assoc] at htext
    have hrest := List.append_cancel_left htext
    rw [crlf_newline, List.singleton_append, List.cons.injEq] at hrest
    rw [← hrest.2]
    refine .apart w ?_
    rw [Position.after_append, ← hafter]
    rfl

namespace Tokens

theorem ofChunks_newline (isKeyword : Text → Bool) (p : Position) (count : Nat) (t : Text) :
    ofChunks p count (Chunk.ofText isKeyword (('\n' : CodeUnit) :: t)) =
      ofChunks (p.after ['\n']) count (Chunk.ofText isKeyword t) := by
  have hcut : Chunk.Cut isKeyword (('\n' : CodeUnit) :: t) [.skipped ['\n']] t := Chunk.cut_first rfl
  rw [hcut.ofText_eq]
  rfl

theorem ofChunks_return (isKeyword : Text → Bool) (p : Position) (count : Nat) (t : Text) :
    ofChunks p count (Chunk.ofText isKeyword (('\r' : CodeUnit) :: t)) =
      ofChunks (p.after ['\r']) count (Chunk.ofText isKeyword t) := by
  have hcut : Chunk.Cut isKeyword (('\r' : CodeUnit) :: t) [.skipped ['\r']] t := Chunk.cut_first rfl
  rw [hcut.ofText_eq]
  rfl

theorem agree_cons {p p' : Position} {rest : Text} {chunk chunk' : Chunk} {cs cs' : List Chunk}
    (hline : p'.line = p.line) (hcolumn : p'.column = p.column) (h : Chunk.Agree rest chunk chunk')
    (hnext : ∀ count, (ofChunks (p.after chunk.text) count cs).Agree
      (ofChunks (p'.after chunk'.text) count cs')) (count : Nat) :
    (ofChunks p count (chunk :: cs)).Agree (ofChunks p' count (chunk' :: cs')) := by
  cases h with
  | skipped => exact hnext count
  | stray hfree habreast =>
    obtain ⟨htokens, hstrays⟩ := hnext count
    refine ⟨htokens, .cons ⟨?_, hline, rfl⟩ hstrays⟩
    refine habreast.trimEnd_eq.trans (crlf_eq_self ?_)
    intro hmem
    exact hfree ((Chunk.trimEnd_isPrefix _).subset hmem)
  | clause hclause =>
    obtain ⟨htokens, hstrays⟩ := hnext (count + 1)
    exact ⟨.cons (Token.agree_ofClause hclause hline hcolumn) htokens, hstrays⟩

theorem agree_ofChunks (isKeyword : Text → Bool) {p p' : Position} {t t' : Text}
    (h : Level p t p' t') (ht : Unix t) (count : Nat) :
    (ofChunks p count (Chunk.ofText isKeyword t)).Agree
      (ofChunks p' count (Chunk.ofText isKeyword t')) := by
  induction hlength : t.length using Nat.strong_induction_on generalizing p p' t t' count with
  | _ length ih =>
    subst hlength
    cases h with
    | apart u hline =>
      have hlevel : Level (p.after ['\n']) u (p'.after ['\n']) (crlf u) :=
        .same u (congrArg (· + 1) hline) rfl
      rw [ofChunks_newline, ofChunks_newline]
      exact ih u.length (by simp) hlevel ht.tail count rfl
    | same t hline hcolumn =>
      cases t with
      | nil => exact ⟨by simp [ofChunks], by simp [ofChunks]⟩
      | cons c u =>
        by_cases hc : c = '\n'
        · subst hc
          have hlevel : Level (p.after ['\n']) u ((p'.after ['\r']).after ['\n']) (crlf u) :=
            .same u (congrArg (· + 1) hline) rfl
          rw [crlf_newline, ofChunks_newline, ofChunks_return, ofChunks_newline]
          exact ih u.length (by simp) hlevel ht.tail count rfl
        · have hrest := Chunk.first_append_drop isKeyword c u
          have hrest' := Chunk.first_append_drop isKeyword c (crlf u)
          have hagree := Chunk.agree_first isKeyword hc ht hrest.symm
          rw [crlf_cons hc, Chunk.ofText_cons, Chunk.ofText_cons]
          generalize hv : u.drop ((Chunk.first isKeyword c u).text.length - 1) = v at *
          generalize (crlf u).drop ((Chunk.first isKeyword c (crlf u)).text.length - 1) = v' at *
          have hshorter : v.length < (c :: u).length := by
            rw [← hv, List.length_drop, List.length_cons]
            omega
          have hv : Unix v := Unix.append_right (hrest.symm ▸ ht)
          rw [← crlf_cons hc, ← hrest] at hrest'
          have hlevel := level_after hline hcolumn hagree.text hrest'.symm
          have hnext := fun count => ih v.length hshorter hlevel hv count rfl
          exact agree_cons hline hcolumn hagree hnext count

theorem agree_crlf (isKeyword : Text → Bool) {t : Text} (ht : Unix t) :
    (ofText isKeyword t).Agree (ofText isKeyword (crlf t)) :=
  agree_ofChunks isKeyword (.same t rfl rfl) ht 0

end Tokens
end QueryLint
