import QueryLint.Proofs.Injection
import QueryLint.Proofs.Verdicts

/-!
Rows that do not stand on one line.

A key with a line break in it is written as it is, and the line break ends the quote. So either the
brackets of the row are not balanced, or its payload has a literal that is never closed.
-/

namespace QueryLint
set_option autoImplicit false

open Delimiter Payload

namespace Payload

/-- Cutting the text meets a literal that is never closed. -/
def Unclosed (t : Text) : Prop := ∀ offset, ∃ l ∈ lexemes offset t, l.lexeme.isComplete = false

namespace Unclosed
variable {t : Text} (h : Unclosed t)
include h

theorem parse_ne_ok (parsed : Parsed) : parse t ≠ .ok parsed := by
  intro hparse
  obtain ⟨l, hl, hopen⟩ := h 0
  rw [run_isComplete hparse l hl] at hopen
  cases hopen

theorem adjoin {l : Lexeme} {w : Text} (hl : l.Spells w) (hstop : l.isWord = true → StopsWord t) :
    Unclosed (w ++ t) := by
  intro offset
  cases hl with
  | mark m =>
    rw [List.singleton_append, lexemes_mark]
    obtain ⟨l, hl, hopen⟩ := h (offset + 1)
    exact ⟨l, List.mem_cons_of_mem _ hl, hopen⟩
  | quoted hrun =>
    rw [lexemes_quoted hrun]
    obtain ⟨l, hl, hopen⟩ := h _
    exact ⟨l, List.mem_cons_of_mem _ hl, hopen⟩
  | word hword =>
    rw [lexemes_word hword (hstop rfl)]
    obtain ⟨l, hl, hopen⟩ := h _
    exact ⟨l, List.mem_cons_of_mem _ hl, hopen⟩

end Unclosed
end Payload

namespace Sample

theorem escaped_append (t u : Text) : escaped (t ++ u) = escaped t ++ escaped u := by
  induction t with
  | nil => rfl
  | cons c t ih =>
    rw [List.cons_append]
    by_cases hescape : c = CodeUnit.ofChar '\\'
    · subst hescape
      rw [escaped_backslash, escaped_backslash, ih]
      rfl
    · by_cases hquote : c = CodeUnit.ofChar '\''
      · subst hquote
        rw [escaped_quote, escaped_quote, ih]
        rfl
      · rw [escaped_other hescape hquote, escaped_other hescape hquote, ih]
        rfl

/-- A line break ends a literal before its quote. -/
theorem quotedBody_escaped {t : Text} (h : CodeUnit.ofChar '\n' ∉ t) (rest : Text) :
    quotedBody ('\'' : CodeUnit) (escaped t ++ CodeUnit.ofChar '\n' :: rest) = none := by
  have hslash : CodeUnit.ofChar '\\' ≠ CodeUnit.ofChar '\n' := by decide
  have hdiff : CodeUnit.ofChar '\\' ≠ CodeUnit.ofChar '\'' := by decide
  induction t with
  | nil =>
    rw [escaped_nil, List.nil_append, quotedBody.eq_def]
    simp
  | cons c t ih =>
    rw [List.mem_cons, not_or] at h
    have hrest := ih h.2
    by_cases hescape : c = CodeUnit.ofChar '\\'
    · subst hescape
      rw [escaped_backslash]
      simp [quotedBody, hslash, hdiff, hrest]
    · by_cases hquote : c = CodeUnit.ofChar '\''
      · subst hquote
        rw [escaped_quote]
        simp [quotedBody, hslash, hdiff, hrest]
      · rw [escaped_other hescape hquote, List.cons_append, quotedBody.eq_def]
        simp [Ne.symm h.1, hescape, hquote, hrest]

theorem unclosed_escaped {t : Text} (h : CodeUnit.ofChar '\n' ∉ t) (rest : Text) :
    Unclosed (CodeUnit.ofChar '\'' :: (escaped t ++ CodeUnit.ofChar '\n' :: rest)) := by
  intro offset
  have hlayout : (CodeUnit.ofChar '\'').isLayout = false := by decide
  have hmark : Mark.ofUnit? (CodeUnit.ofChar '\'') = none := by decide
  have hquote : (CodeUnit.ofChar '\'').isQuote = true := by decide
  refine ⟨⟨offset, .openQuote (quoteOf '\'')⟩, ?_, rfl⟩
  rw [lexemes]
  simp [hlayout, hmark, hquote, quotedBody_escaped h]

end Sample

namespace SampleRow

def lead (row : SampleRow) : Text := row.flatMap fun pair => entryText pair ++ ","

theorem unclosed_entryText {pair : Text × Sample} (hkey : CodeUnit.ofChar '\n' ∉ pair.1) {t : Text}
    (h : Unclosed (pair.2.toText ++ t)) : Unclosed (entryText pair ++ t) := by
  have hcolon : Text.ofString ":" = [Mark.colon.unit] := by decide
  have hvalue := h.adjoin (.mark .colon) (by simp [Lexeme.isWord])
  have hentry := hvalue.adjoin (Sample.spells_quoted hkey) (by simp [Lexeme.isWord])
  simpa [entryText, hcolon] using hentry

theorem unclosed_lead {row : SampleRow} (h : row.OneLine) {t : Text} (ht : Unclosed t) :
    Unclosed (lead row ++ t) := by
  have hcomma : Text.ofString "," = [Mark.comma.unit] := by decide
  induction row with
  | nil => exact ht
  | cons pair row ih =>
    obtain ⟨hkey, hvalue⟩ := h pair List.mem_cons_self
    have hrest := ih fun other hother => h other (List.mem_cons_of_mem _ hother)
    have hnext : Unclosed (Mark.comma.unit :: (lead row ++ t)) :=
      hrest.adjoin (.mark .comma) (by simp [Lexeme.isWord])
    have hlast : Unclosed (pair.2.toText ++ Mark.comma.unit :: (lead row ++ t)) :=
      hnext.adjoin (Sample.spells_toText hvalue) fun _ c hc => by
        cases hc
        exact endsWord_markUnit .comma
    simpa [lead, hcomma] using unclosed_entryText hkey hlast

theorem passes_lead {row : SampleRow} (h : row.OneLine) : Scan.Passes (lead row) := by
  have hcolon : Scan.Passes (Text.ofString ":") := Scan.passes_idle (by decide)
  have hcomma : Scan.Passes (Text.ofString ",") := Scan.passes_idle (by decide)
  induction row with
  | nil => exact Scan.passes_nil
  | cons pair row ih =>
    obtain ⟨hkey, hvalue⟩ := h pair List.mem_cons_self
    have hentry : Scan.Passes (entryText pair) :=
      ((Sample.passes_quoted hkey).append hcolon).append (Sample.passes_toText hvalue)
    exact (hentry.append hcomma).append (ih fun other hother => h other (List.mem_cons_of_mem _ hother))

theorem join_entries (front : SampleRow) (pair : Text × Sample) (back : SampleRow) :
    Text.join "," ((front ++ pair :: back).map entryText) =
      lead front ++ (entryText pair ++ (back.map entryText).flatMap fun u => Text.ofString "," ++ u) := by
  induction front with
  | nil =>
    rw [List.nil_append, List.map_cons, Text.join_cons]
    rfl
  | cons other front ih =>
    obtain ⟨u, us, hus⟩ : ∃ u us, (front ++ pair :: back).map entryText = u :: us := by
      cases front <;> simp
    have hjoin : Text.join "," (entryText other :: u :: us) =
        entryText other ++ "," ++ Text.join "," (u :: us) := by
      rw [Text.join_cons, Text.join_cons]
      simp
    rw [List.cons_append, List.map_cons, hus, hjoin, ← hus, ih]
    simp [lead]

/-- Where the first line break of a row stands. -/
theorem exists_body_eq {row : SampleRow} (hvalues : ∀ pair ∈ row, pair.2.OneLine)
    (hkey : ∃ pair ∈ row, CodeUnit.ofChar '\n' ∈ pair.1) :
    ∃ (front : SampleRow) (t rest : Text), front.OneLine ∧ CodeUnit.ofChar '\n' ∉ t ∧
      body row = lead front ++ CodeUnit.ofChar '\'' ::
        (Sample.escaped t ++ CodeUnit.ofChar '\n' :: rest) := by
  obtain ⟨pair, hpair, hbreak⟩ := hkey
  have hsome : ((Record.arranged row).find? fun pair => CodeUnit.ofChar '\n' ∈ pair.1).isSome = true :=
    List.find?_isSome.2 ⟨pair, (Record.arranged_perm row).mem_iff.2 hpair, by simpa using hbreak⟩
  obtain ⟨first, hfind⟩ := Option.isSome_iff_exists.1 hsome
  obtain ⟨hfirst, front, back, hsplit, hfront⟩ := List.find?_eq_some_iff_append.1 hfind
  obtain ⟨t, w, hkey, ht⟩ := List.eq_append_cons_of_mem (of_decide_eq_true hfirst)
  have hline : OneLine front := by
    intro other hother
    refine ⟨by simpa using hfront other hother, hvalues other ?_⟩
    rw [← (Record.arranged_perm row).mem_iff, hsplit]
    exact List.mem_append_left _ hother
  have hescaped : Sample.escaped first.1 =
      Sample.escaped t ++ CodeUnit.ofChar '\n' :: Sample.escaped w := by
    rw [hkey, Sample.escaped_append, Sample.escaped_other (by decide) (by decide)]
  refine ⟨front, t, Sample.escaped w ++ CodeUnit.ofChar '\'' :: (":" ++ (first.2.toText ++
    (back.map entryText).flatMap fun u => Text.ofString "," ++ u)), hline, ht, ?_⟩
  rw [body, hsplit, join_entries, entryText, Sample.quoted_eq, hescaped]
  simp

end SampleRow

namespace Delimiter.Scan

/-- The line break ends the quote and leaves the brackets open. -/
theorem exists_run_break {lead t : Text} (hlead : Passes lead) (ht : CodeUnit.ofChar '\n' ∉ t)
    (startsCommand : Text → Bool) (passed : Nat) {s : Scan} (hs : s.quote = none) (rest : Text) :
    ∃ s', run startsCommand passed s
        (lead ++ CodeUnit.ofChar '\'' :: (Sample.escaped t ++ CodeUnit.ofChar '\n' :: rest)) =
      run startsCommand (passed + (lead.length + (Sample.escaped t).length + 2)) s' rest := by
  have hcount : passed + lead.length + 1 + (Sample.escaped t).length + 1 =
      passed + (lead.length + (Sample.escaped t).length + 2) := by omega
  rw [hlead startsCommand passed s _ hs, run_openQuote hs (by decide),
    run_literal (Sample.quotedRun_escaped ht) rfl, run_newline, ← hcount]
  exact ⟨_, rfl⟩

end Delimiter.Scan

theorem Command.exists_parse {dialect : Dialect} {index : Nat} {p : Position} {cl : Clause}
    {payload : PayloadText} (hcl : cl.payload = some payload) (hfault : payload.fault = none)
    (h : (ofClause dialect index p cl).payloadFault = none) :
    ∃ parsed, Payload.parse payload.text = .ok parsed := by
  obtain ⟨name, gap, _, tail⟩ := cl
  obtain ⟨text, bracketed, fault⟩ := payload
  subst hcl hfault
  cases hparse : Payload.parse text with
  | ok parsed => exact ⟨parsed, rfl⟩
  | error fault => simp [ofClause, Token.ofClause, ofToken, readPayload, hparse] at h

section Clause
variable {isKeyword : Text → Bool} {name gap : Text} {row : SampleRow} {t : Text}
variable (hrow : row.OneLine) (ht : CodeUnit.ofChar '\n' ∉ t)
include hrow ht

/-- A payload without a fault reaches beyond the line break. -/
theorem lt_bracketedLength (rest : Text)
    (hbalanced : ∀ payload ∈ (Chunk.bracketedClause isKeyword name gap .brace
      (Bracket.brace.opening :: (SampleRow.lead row ++ CodeUnit.ofChar '\'' ::
        (Sample.escaped t ++ CodeUnit.ofChar '\n' :: rest)))).payload, payload.fault = none) :
    1 + ((SampleRow.lead row).length + (Sample.escaped t).length + 2) <
      Chunk.bracketedLength isKeyword .brace (Bracket.brace.opening :: (SampleRow.lead row ++
        CodeUnit.ofChar '\'' :: (Sample.escaped t ++ CodeUnit.ofChar '\n' :: rest))) := by
  obtain ⟨s', hrun⟩ := Scan.exists_run_break (SampleRow.passes_lead hrow) ht
    (Chunk.startsCommand isKeyword) 1 (s := .start .brace) rfl rest
  have hlt := Scan.lt_of_run (hrun.symm.trans (Chunk.extent_of_balanced hbalanced))
  exact hlt.trans_le (Chunk.extent_le_bracketedLength ..)

/-- Either the brackets of the clause are not balanced, or a literal in them is never closed. -/
theorem unclosed_payload (rest : Text) : ∀ payload ∈ (Chunk.bracketedClause isKeyword name gap .brace
      (Bracket.brace.opening :: (SampleRow.lead row ++ CodeUnit.ofChar '\'' ::
        (Sample.escaped t ++ CodeUnit.ofChar '\n' :: rest)))).payload,
    payload.fault = none → Unclosed payload.text := by
  intro payload hpayload hfault
  have hbalanced : ∀ payload ∈ (Chunk.bracketedClause isKeyword name gap .brace
      (Bracket.brace.opening :: (SampleRow.lead row ++ CodeUnit.ofChar '\'' ::
        (Sample.escaped t ++ CodeUnit.ofChar '\n' :: rest)))).payload, payload.fault = none := by
    intro other hother
    rwa [Option.mem_unique hother hpayload]
  obtain ⟨n, hn⟩ := Nat.exists_eq_add_of_lt (lt_bracketedLength hrow ht rest hbalanced)
  have hcut : payload.text = Bracket.brace.opening :: (SampleRow.lead row ++ CodeUnit.ofChar '\'' ::
      (Sample.escaped t ++ CodeUnit.ofChar '\n' :: rest.take (n + 1))) := by
    have hsplit : Bracket.brace.opening :: (SampleRow.lead row ++ CodeUnit.ofChar '\'' ::
        (Sample.escaped t ++ CodeUnit.ofChar '\n' :: rest)) =
        (Bracket.brace.opening :: (SampleRow.lead row ++
          CodeUnit.ofChar '\'' :: (Sample.escaped t ++ [CodeUnit.ofChar '\n']))) ++ rest := by
      simp
    have hcount : 1 + ((SampleRow.lead row).length + (Sample.escaped t).length + 2) + n + 1 =
        (Bracket.brace.opening :: (SampleRow.lead row ++ CodeUnit.ofChar '\'' ::
          (Sample.escaped t ++ [CodeUnit.ofChar '\n']))).length + (n + 1) := by
      simp only [List.length_cons, List.length_append, List.length_nil]
      omega
    rw [Chunk.text_of_balanced hbalanced hpayload, hn, hcount, hsplit, List.take_length_add_append]
    simp
  rw [hcut]
  exact (SampleRow.unclosed_lead hrow (Sample.unclosed_escaped ht _)).adjoin (.mark .openBrace)
    (by simp [Lexeme.isWord])

theorem commandIssues_broken (dialect : Dialect) (index : Nat) (p : Position) (rest : Text) :
    Rules.Structure.commandIssues (.ofClause dialect index p
      (Chunk.bracketedClause isKeyword name gap .brace (Bracket.brace.opening ::
        (SampleRow.lead row ++ CodeUnit.ofChar '\'' ::
          (Sample.escaped t ++ CodeUnit.ofChar '\n' :: rest))))) ≠ [] := by
  rw [ne_eq, Rules.Structure.commandIssues_eq_nil]
  rintro ⟨hdelimiter, hpayload, -⟩
  have hunclosed := @unclosed_payload isKeyword name gap row t hrow ht rest
  obtain ⟨payload, hsome⟩ : ∃ payload, (Chunk.bracketedClause isKeyword name gap .brace
      (Bracket.brace.opening :: (SampleRow.lead row ++ CodeUnit.ofChar '\'' ::
        (Sample.escaped t ++ CodeUnit.ofChar '\n' :: rest)))).payload = some payload := ⟨_, rfl⟩
  have hfault := Document.fault_ofClause hdelimiter payload hsome
  obtain ⟨parsed, hparse⟩ := Command.exists_parse hsome hfault hpayload
  exact (hunclosed payload hsome hfault).parse_ne_ok parsed hparse

end Clause

namespace Document
open Chunk Issue

theorem not_mild_of_cut {dialect : Dialect} {text v : Text} {cs : List Chunk}
    (hcut : Cut dialect.isKeyword text cs v) {cl : Clause} (hcl : .clause cl ∈ cs)
    (hissues : ∀ index p, Rules.Structure.commandIssues (.ofClause dialect index p cl) ≠ []) :
    ¬Mild (Rules.Structure.issues (parse dialect text)) := by
  intro hmild
  have hall := (Rules.Structure.mild_issues dialect text).1 hmild
  obtain ⟨pre, post, rfl⟩ := List.append_of_mem hcl
  have hraw := (forall_raw fun name c => Rules.Structure.commandIssues_within name c).1 hall.2.2
  rw [raw, hcut.ofText_eq, List.append_assoc, commandsOf_append] at hraw
  exact hissues _ _ (hraw _ (List.mem_append_right _ List.mem_cons_self))

end Document

namespace Fixture
open Chunk Dialect Document Issue

def rowName : Builtin → Text
  | .mxql => "ADDROW"
  | .pipeline => "ROW"

theorem isName_rowName (b : Builtin) : IsName (rowName b) := by
  cases b <;> exact isName_of_units (by decide)

theorem row_eq (b : Builtin) (payload : Text) : b.dialect.row payload = spaced (rowName b) payload := by
  have htemplate : b.dialect.templates.row = spaced (rowName b) "%s" := by cases b <;> decide
  rw [Dialect.row, htemplate, fillIn_spaced (isName_rowName b)]

/-- A row with a line break in a key is reported, whatever follows it. -/
theorem exists_cut_broken (b : Builtin) {row : SampleRow} (hvalues : ∀ pair ∈ row, pair.2.OneLine)
    (hkey : ∃ pair ∈ row, CodeUnit.ofChar '\n' ∈ pair.1) (rest : Text) :
    ∃ cl v, Cut b.dialect.isKeyword (b.dialect.row row.payload ++ rest) [.clause cl] v ∧
      ∀ index p, Rules.Structure.commandIssues (.ofClause b.dialect index p cl) ≠ [] := by
  obtain ⟨front, t, w, hfront, ht, hbody⟩ := SampleRow.exists_body_eq hvalues hkey
  have hline : b.dialect.row row.payload ++ rest = spaced (rowName b) (Bracket.brace.opening ::
      (SampleRow.lead front ++ CodeUnit.ofChar '\'' :: (Sample.escaped t ++
        CodeUnit.ofChar '\n' :: (w ++ Bracket.brace.closing :: rest)))) := by
    rw [row_eq, row.payload_eq, braced, hbody]
    simp [spaced]
  obtain ⟨v, hcut⟩ := cut_bracketed b.dialect.isKeyword (isName_rowName b) (SampleRow.lead front ++
    CodeUnit.ofChar '\'' :: (Sample.escaped t ++ CodeUnit.ofChar '\n' ::
      (w ++ Bracket.brace.closing :: rest)))
  rw [hline]
  exact ⟨_, v, hcut, fun index p => commandIssues_broken hfront ht b.dialect index p _⟩

/-- A fixture whose first row is broken is not valid. -/
theorem not_mild_splice {b : Builtin} {text name : Text} {row : SampleRow} (later : List SampleRow)
    (hfaults : ∀ c ∈ raw b.dialect text, c.delimiterFault = none) (hfitting : Fitting b.dialect text)
    (hname : IsBlockName name) (hvalues : ∀ pair ∈ row, pair.2.OneLine)
    (hkey : ∃ pair ∈ row, CodeUnit.ofChar '\n' ∈ pair.1) :
    ¬Mild (Rules.Structure.issues (parse b.dialect (splice text (parse b.dialect text).root
      (blockLines b.dialect name none (row :: later)) (b.dialect.reference name)))) := by
  obtain ⟨xs, rest, htext, hstable⟩ := hfitting.exists_before hfaults
    (blockLines b.dialect name none (row :: later)) (b.dialect.reference name)
  obtain ⟨behind, hlines⟩ : ∃ behind,
      Text.join "\n" (blockLines b.dialect name none (row :: later)) ++ "\n" ++ rest =
        b.dialect.openBlock name ++ CodeUnit.ofChar '\n' :: (b.dialect.row row.payload ++ behind) := by
    rw [block_text]
    simp [blockLines]
  obtain ⟨cl, v, hrow, hissues⟩ := exists_cut_broken b hvalues hkey behind
  have hopener := isClauseLine_opener b.dialect.isKeyword b hname
    (CodeUnit.ofChar '\n' :: (b.dialect.row row.payload ++ behind)) (.lineBreak _)
  rw [htext, hlines]
  exact not_mild_of_cut ((hstable _).trans (hopener.trans ((cut_lineBreak _ _).trans hrow)))
    (by simp) hissues

end Fixture
end QueryLint
