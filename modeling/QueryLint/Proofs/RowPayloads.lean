import QueryLint.Proofs.BrokenRows
import QueryLint.Proofs.Notation
import QueryLint.Proofs.Payload.Notes

/-!
Rows read back from their payloads.

A row of whole numbers and texts is written as an object in strict notation. It is read back as it
is, unless a key or a text has a line break in it: the writer does not escape the line break, and
the reader ends the literal there.
-/

namespace QueryLint
set_option autoImplicit false

open Payload

namespace Number

/-- A whole number of a magnitude below `2 ^ 53`, of either sign. -/
def IsSafe (x : Number) : Prop := ∃ (negative : Bool) (n : Nat), n < 2 ^ 53 ∧ x = finite negative n

/-- The sign of zero is not written. -/
theorem IsSafe.exists_ofLiteral? {x : Number} (h : x.IsSafe) :
    ∃ y, ofLiteral? x.toText = some y ∧ y.isFinite = true ∧ y.value = x.value := by
  obtain ⟨negative, n, hn, rfl⟩ := h
  obtain rfl | hpos := Nat.eq_zero_or_pos n
  · refine ⟨finite false 0, ?_, rfl, ?_⟩
    · simp only [toText, Nat.cast_zero, if_pos]
      decide +kernel
    · cases negative with
      | false => simp [value]
      | true => simp [value]
  · have hm : (0 : ℚ) < n := by exact_mod_cast hpos
    have hbound := natCast_lt_overflowBound hn.le
    obtain ⟨numeral, hread, hnearest, -⟩ := ofText?_magnitudeText hm (onGrid_natCast hn.le)
    refine ⟨finite negative n, ?_, rfl, rfl⟩
    have hempty : Text.ofString "" = [] := rfl
    have hminus : Text.ofString "-" = [CodeUnit.ofChar '-'] := by decide
    cases negative with
    | false => exact ofLiteral?_toText hm (onGrid_natCast hn.le) hbound
    | true =>
      have htext : (finite true (n : ℚ)).toText = CodeUnit.ofChar '-' :: magnitudeText n := by
        simp [toText, hm.ne', hminus]
      rw [htext]
      simp only [ofLiteral?, if_true, hread, Option.map_some, ofDecimal_eq hnearest hm hbound]

end Number

namespace Sample

/-- Whole numbers and texts. -/
def IsSafe : Sample → Prop
  | number x => x.IsSafe
  | text _ => True

/-- A text comes back in single quotes, and a number with its value. -/
def ReadsAs : Sample → Value → Prop
  | number x, v => ∃ y, v = .number y x.toText ∧ y.isFinite = true ∧ y.value = x.value
  | text t, v => v = .string t .single

theorem readsAs_value {v : Sample} (h : v.IsSafe) : v.ReadsAs v.value := by
  cases v with
  | number x =>
    obtain ⟨y, hread, hfinite, hvalue⟩ := Number.IsSafe.exists_ofLiteral? h
    exact ⟨y, (wordValue_iff_classify ..).mp (.number hread), hfinite, hvalue⟩
  | text t => exact rfl

theorem lexeme_ne_mark (v : Sample) (m : Mark) : v.lexeme ≠ .mark m := by
  cases v with
  | number => exact nofun
  | text => exact nofun

end Sample

namespace SampleRow
variable {row : SampleRow}

/-- The payload of the row is accepted without notes, and it has the entries of the row. -/
def ReadsBack (row : SampleRow) : Prop :=
  ∃ entries, parse row.payload = .ok ⟨.object entries, []⟩ ∧
    List.Forall₂ (fun pair entry => entry.1 = key pair ∧ pair.2.ReadsAs entry.2) row entries

/-- A command with the row is one token that has the payload of the row and no fault. -/
def IsToken (isKeyword : Text → Bool) (row : SampleRow) : Prop :=
  ∃ k, Tokens.ofText isKeyword ("ROW " ++ row.payload) = ⟨[k], []⟩ ∧ k.name = "ROW" ∧
    k.payload.map (·.text) = some row.payload ∧ k.fault = none

theorem isChain_entry (m : Mark) (pair : Text × Sample) {ls : List Lexeme}
    (h : (pair.2.lexeme :: ls).IsChain Unremarked) :
    (.mark m :: (key pair).lexeme :: .mark .colon :: pair.2.lexeme :: ls).IsChain Unremarked := by
  simp only [key, Key.lexeme, List.isChain_cons_cons]
  refine ⟨?_, ?_, ?_, h⟩
  · simp [Unremarked]
  · simp [Unremarked, Lexeme.isWord]
  · simp [Unremarked, pair.2.lexeme_ne_mark]

theorem isChain_continued {l : Lexeme} (hl : ∀ m, l ≠ .mark m) (row : SampleRow) :
    (l :: continued .closeBrace false
      (Derivation.entriesTokens (row.map entryDerivation))).IsChain Unremarked := by
  rw [Derivation.entriesTokens_eq]
  induction row generalizing l with
  | nil => simp [continued, Unremarked, hl]
  | cons pair row ih =>
    have hentry := isChain_entry .comma pair (ih pair.2.lexeme_ne_mark)
    simp only [List.map_cons, continued, entryDerivation, Sample.tokens_derivation, List.cons_append,
      List.nil_append]
    exact List.isChain_cons_cons.mpr ⟨by simp [Unremarked], hentry⟩

theorem isChain_tokens (row : SampleRow) :
    (Derivation.object (row.map entryDerivation) false).tokens.IsChain Unremarked := by
  rw [Derivation.tokens]
  cases row with
  | nil => simp [Derivation.entriesTokens, enclosed, Unremarked]
  | cons pair row =>
    rw [List.map_cons]
    simp only [Derivation.entriesTokens, enclosed, entryDerivation, Sample.tokens_derivation,
      List.cons_append, List.nil_append]
    exact isChain_entry .openBrace pair (isChain_continued pair.2.lexeme_ne_mark row)

theorem readsBack_of_oneLine (hkeys : (Record.keys row).Nodup) (harranged : Record.arranged row = row)
    (hsafe : ∀ pair ∈ row, pair.2.IsSafe) (h : row.OneLine) : row.ReadsBack := by
  obtain ⟨notes, hparse⟩ := parse_payload hkeys h
  have hderives := derives_payload hkeys h
  have hlexemes := lexemes_of_spelling hderives.2 (apart_tokens hderives.1) 0
  have hnotes : notes = [] := by
    apply (notes_eq_remarks hparse).trans
    apply remarks_eq_nil
    rw [hlexemes]
    exact isChain_tokens _
  rw [hnotes, harranged] at hparse
  refine ⟨_, hparse, ?_⟩
  rw [List.forall₂_map_right_iff, List.forall₂_same]
  exact fun pair hpair => ⟨rfl, Sample.readsAs_value (hsafe pair hpair)⟩

theorem unclosed_quoted {t : Text} (h : CodeUnit.ofChar '\n' ∈ t) (rest : Text) :
    Unclosed (Sample.quoted t ++ rest) := by
  obtain ⟨front, back, rfl, hfront⟩ := List.eq_append_cons_of_mem h
  have hquoted : Sample.quoted (front ++ CodeUnit.ofChar '\n' :: back) ++ rest = CodeUnit.ofChar '\'' ::
      (Sample.escaped front ++ CodeUnit.ofChar '\n' ::
        (Sample.escaped back ++ CodeUnit.ofChar '\'' :: rest)) := by
    rw [Sample.quoted_eq, Sample.escaped_append, Sample.escaped_other (by decide) (by decide)]
    simp
  rw [hquoted]
  exact Sample.unclosed_escaped hfront _

theorem oneLine_cons {pair : Text × Sample} : OneLine (pair :: row) ↔ OneLine [pair] ∧ OneLine row := by
  simp [OneLine]

theorem exists_broken (h : ¬row.OneLine) : ∃ (front : SampleRow) (pair : Text × Sample)
    (back : SampleRow), row = front ++ pair :: back ∧ front.OneLine ∧ ¬OneLine [pair] := by
  induction row with
  | nil => exact absurd (List.forall_mem_nil _) h
  | cons pair row ih =>
    by_cases hpair : OneLine [pair]
    · obtain ⟨front, other, back, rfl, hfront, hother⟩ := ih fun hrow => h (oneLine_cons.mpr ⟨hpair, hrow⟩)
      exact ⟨pair :: front, other, back, rfl, oneLine_cons.mpr ⟨hpair, hfront⟩, hother⟩
    · exact ⟨[], pair, row, rfl, List.forall_mem_nil _, hpair⟩

theorem unclosed_broken {pair : Text × Sample} (h : ¬OneLine [pair]) (rest : Text) :
    Unclosed (entryText pair ++ rest) := by
  obtain ⟨key, v⟩ := pair
  by_cases hkey : CodeUnit.ofChar '\n' ∈ key
  · rw [entryText, List.append_assoc, List.append_assoc]
    exact unclosed_quoted hkey _
  · cases v with
    | number x => exact absurd (List.forall_mem_singleton.mpr ⟨hkey, trivial⟩) h
    | text t =>
      have hbreak : CodeUnit.ofChar '\n' ∈ t := by
        by_contra hline
        exact h (List.forall_mem_singleton.mpr ⟨hkey, hline⟩)
      exact unclosed_entryText hkey (unclosed_quoted hbreak rest)

/-- The entries before the line break are read, and then a literal is not closed. -/
theorem unclosed_entries (h : ¬row.OneLine) (rest : Text) :
    Unclosed (Text.join "," (row.map entryText) ++ rest) := by
  obtain ⟨front, pair, back, rfl, hfront, hpair⟩ := exists_broken h
  rw [join_entries, List.append_assoc, List.append_assoc]
  exact unclosed_lead hfront (unclosed_broken hpair _)

theorem oneLine_of_readsBack (harranged : Record.arranged row = row) (h : row.ReadsBack) :
    row.OneLine := by
  by_contra hbreak
  obtain ⟨entries, hparse, -⟩ := h
  have hbody := unclosed_entries hbreak [Bracket.brace.closing]
  have hpayload := hbody.adjoin (.mark .openBrace) (by simp [Lexeme.isWord])
  rw [payload_eq, Chunk.braced, body, harranged] at hparse
  exact hpayload.parse_ne_ok _ hparse

theorem isToken_of_oneLine (h : row.OneLine) (isKeyword : Text → Bool) : row.IsToken isKeyword := by
  have hname : Chunk.IsName "ROW" := Fixture.isName_of_units (by decide)
  have hlead : Text.ofString "ROW " = Text.ofString "ROW" ++ [CodeUnit.ofChar ' '] := by decide
  have hline := (Chunk.isClauseLine_braced isKeyword hname (passes_body h) [] .nil).ofText_eq
  rw [List.append_nil, Chunk.ofText_nil, List.append_nil, ← payload_eq] at hline
  rw [IsToken, Tokens.ofText, hlead, List.append_assoc, List.singleton_append]
  exact ⟨_, congrArg (Tokens.ofChunks Position.start 0) hline, rfl, rfl, rfl⟩

/-- A row of whole numbers and texts comes back from its payload just when no key and no text has a
line break in it, and then a command with the row is a token of its own. -/
theorem readsBack_iff_oneLine (hkeys : (Record.keys row).Nodup) (harranged : Record.arranged row = row)
    (hsafe : ∀ pair ∈ row, pair.2.IsSafe) : (row.ReadsBack ↔ row.OneLine) ∧
      (row.OneLine → ∀ isKeyword, row.IsToken isKeyword) :=
  ⟨⟨oneLine_of_readsBack harranged, readsBack_of_oneLine hkeys harranged hsafe⟩, isToken_of_oneLine⟩

theorem readsBack_iff_oneLine_escaped :
    let row : SampleRow := [("it's", .text "a\\b"), ("n", .number (.finite true 5))]
    row.ReadsBack ∧ ∀ isKeyword, row.IsToken isKeyword := by
  intro row
  have hsafe : ∀ pair ∈ row, pair.2.IsSafe :=
    List.forall_mem_cons.mpr ⟨trivial, List.forall_mem_singleton.mpr ⟨true, 5, by norm_num, rfl⟩⟩
  have htext : CodeUnit.ofChar '\n' ∉ Text.ofString "a\\b" := by decide
  have hline : row.OneLine :=
    List.forall_mem_cons.mpr ⟨⟨by decide, htext⟩, List.forall_mem_singleton.mpr ⟨by decide, trivial⟩⟩
  have hkeys : (Record.keys row).Nodup := by decide
  obtain ⟨hreads, htoken⟩ := readsBack_iff_oneLine hkeys (by decide +kernel) hsafe
  exact ⟨hreads.mpr hline, htoken hline⟩

/-- The line break of a text is written as it is. -/
theorem not_readsBack_lineBreak :
    let row : SampleRow := [("a", .text "x\ny")]
    (Record.keys row).Nodup ∧ Record.arranged row = row ∧ (∀ pair ∈ row, pair.2.IsSafe) ∧
      ¬row.ReadsBack := by
  refine ⟨by decide, by decide +kernel, List.forall_mem_singleton.mpr trivial, ?_⟩
  rintro ⟨entries, hparse, -⟩
  have hrefused : (parse (SampleRow.payload [("a", .text "x\ny")])).isOk = false := by decide +kernel
  rw [hparse] at hrefused
  cases hrefused

end SampleRow

end QueryLint
