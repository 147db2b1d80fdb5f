import QueryLint.Proofs.ClauseLines
import QueryLint.Proofs.Numerals
import QueryLint.Proofs.Payload.Acceptance
import QueryLint.Proofs.Records
import QueryLint.Sample

/-!
Sample rows as payloads.

A row is written as an object on one line, with its keys and texts in quotes. The scanner for
brackets passes over it and the reader gets its entries back.
-/

namespace QueryLint
set_option autoImplicit false

open Delimiter Payload

namespace Sample

/-- A text as it stands between single quotes. -/
def escaped (t : Text) : Text := Text.replaceUnit '\'' "\\'" (Text.replaceUnit '\\' "\\\\" t)

theorem escaped_nil : escaped [] = [] := rfl

theorem escaped_backslash (t : Text) :
    escaped ('\\' :: t) = CodeUnit.ofChar '\\' :: CodeUnit.ofChar '\\' :: escaped t := by
  have hunits : Text.ofString "\\\\" = [CodeUnit.ofChar '\\', CodeUnit.ofChar '\\'] := by decide
  have hne : CodeUnit.ofChar '\\' ≠ CodeUnit.ofChar '\'' := by decide
  simp [escaped, Text.replaceUnit, hunits, hne]

theorem escaped_quote (t : Text) :
    escaped ('\'' :: t) = CodeUnit.ofChar '\\' :: CodeUnit.ofChar '\'' :: escaped t := by
  have hunits : Text.ofString "\\'" = [CodeUnit.ofChar '\\', CodeUnit.ofChar '\''] := by decide
  have hne : CodeUnit.ofChar '\'' ≠ CodeUnit.ofChar '\\' := by decide
  simp [escaped, Text.replaceUnit, hunits, hne]

theorem escaped_other {c : CodeUnit} (hescape : c ≠ '\\') (hquote : c ≠ '\'') (t : Text) :
    escaped (c :: t) = c :: escaped t := by
  simp [escaped, Text.replaceUnit, hescape, hquote]

theorem quoted_eq (t : Text) :
    quoted t = CodeUnit.ofChar '\'' :: (escaped t ++ [CodeUnit.ofChar '\'']) := by
  have hunits : Text.ofString "'" = [CodeUnit.ofChar '\''] := by decide
  simp [quoted, escaped, hunits]

theorem quotedRun_escaped {t : Text} (h : CodeUnit.ofChar '\n' ∉ t) :
    QuotedRun Quote.single.unit (escaped t) t := by
  induction t with
  | nil => exact .nil
  | cons c t ih =>
    rw [List.mem_cons, not_or] at h
    have hrest := ih h.2
    by_cases hescape : c = CodeUnit.ofChar '\\'
    · subst hescape
      rw [escaped_backslash]
      exact .other (by decide) (by decide) (by decide) hrest
    · by_cases hquote : c = CodeUnit.ofChar '\''
      · subst hquote
        rw [escaped_quote]
        exact .other (by decide) (by decide) (by decide) hrest
      · rw [escaped_other hescape hquote]
        exact .plain (Ne.symm h.1) hescape hquote hrest

theorem spells_quoted {t : Text} (h : CodeUnit.ofChar '\n' ∉ t) :
    (Lexeme.quoted .single t).Spells (quoted t) := by
  rw [quoted_eq]
  exact .quoted (quotedRun_escaped h)

theorem passes_quoted {t : Text} (h : CodeUnit.ofChar '\n' ∉ t) : Scan.Passes (quoted t) := by
  rw [quoted_eq]
  exact Scan.passes_literal (quotedRun_escaped h)

end Sample

theorem ne_of_isNumberUnit {c d : CodeUnit} (h : c.isNumberUnit = true) (hd : d.isNumberUnit = false) :
    c ≠ d := by
  rintro rfl
  rw [hd] at h
  cases h

theorem isIdle_of_isNumberUnit {c : CodeUnit} (h : c.isNumberUnit = true) : Scan.IsIdle c := by
  have hother : ∀ d : CodeUnit, d.isNumberUnit = false → c ≠ d := fun d hd => ne_of_isNumberUnit h hd
  refine ⟨hother _ (by decide), ?_, ?_, ?_⟩
  · simp [CodeUnit.isQuote, hother (CodeUnit.ofChar '"') (by decide),
      hother (CodeUnit.ofChar '\'') (by decide)]
  · simp [Bracket.ofOpening?, hother Bracket.brace.opening (by decide),
      hother Bracket.square.opening (by decide)]
  · simp [Bracket.ofClosing?, hother Bracket.brace.closing (by decide),
      hother Bracket.square.closing (by decide)]

theorem isWordUnit_of_isNumberUnit {c : CodeUnit} (h : c.isNumberUnit = true) : IsWordUnit c := by
  have hother : ∀ d : CodeUnit, d.isNumberUnit = false → c ≠ d := fun d hd => ne_of_isNumberUnit h hd
  have hstops : ∀ d ∈ wordStops, d.isNumberUnit = false := by decide
  refine ⟨?_, fun hmem => hother c (hstops c hmem) rfl⟩
  simp [CodeUnit.isLayout, hother (CodeUnit.ofChar ' ') (by decide),
    hother (CodeUnit.ofChar '\t') (by decide), hother (CodeUnit.ofChar '\n') (by decide),
    hother (CodeUnit.ofChar '\r') (by decide)]

theorem wordRun_of_units {t : Text} (h : ∀ c ∈ t, IsWordUnit c) : WordRun t := by
  induction t with
  | nil => exact .nil
  | cons c t ih =>
    exact .unit (h c List.mem_cons_self) (ih fun d hd => h d (List.mem_cons_of_mem _ hd))

namespace Sample

def value : Sample → Value
  | number x => classify x.toText
  | text t => .string t .single

def lexeme : Sample → Lexeme
  | number x => .word x.toText
  | text t => .quoted .single t

def derivation : Sample → Derivation
  | number x => .word x.toText (classify x.toText)
  | text t => .quoted .single t

def OneLine : Sample → Prop
  | number _ => True
  | text t => CodeUnit.ofChar '\n' ∉ t

theorem value_derivation (v : Sample) : v.derivation.value = v.value := by
  cases v <;> rfl

theorem tokens_derivation (v : Sample) : v.derivation.tokens = [v.lexeme] := by
  cases v <;> rfl

theorem wellFormed_derivation (v : Sample) : v.derivation.WellFormed := by
  cases v with
  | number x => exact .word (wordValue_classify x.toText)
  | text t => exact .quoted .single t

theorem spells_toText {v : Sample} (h : v.OneLine) : v.lexeme.Spells v.toText := by
  cases v with
  | number x =>
    refine .word ⟨Number.toText_ne_nil x, wordRun_of_units fun c hc => ?_⟩
    exact isWordUnit_of_isNumberUnit (Number.isNumeric_toText x c hc)
  | text t => exact spells_quoted h

theorem passes_toText {v : Sample} (h : v.OneLine) : Scan.Passes v.toText := by
  cases v with
  | number x =>
    exact Scan.passes_idle fun c hc => isIdle_of_isNumberUnit (Number.isNumeric_toText x c hc)
  | text t => exact passes_quoted h

end Sample

namespace SampleRow

def OneLine (row : SampleRow) : Prop := ∀ pair ∈ row, CodeUnit.ofChar '\n' ∉ pair.1 ∧ pair.2.OneLine

def entryText (pair : Text × Sample) : Text := Sample.quoted pair.1 ++ ":" ++ pair.2.toText

def key (pair : Text × Sample) : Key := ⟨pair.1, .quoted .single⟩

def value (row : SampleRow) : Value := .object (row.map fun pair => (key pair, pair.2.value))

def body (row : SampleRow) : Text := Text.join "," ((Record.arranged row).map entryText)

theorem payload_eq (row : SampleRow) : row.payload = Chunk.braced row.body := by
  have hopen : Text.ofString "\x7b" = [Bracket.brace.opening] := by decide
  have hclose : Text.ofString "\x7d" = [Bracket.brace.closing] := by decide
  rw [payload, hopen, hclose]
  rfl

theorem oneLine_arranged {row : SampleRow} (h : row.OneLine) : OneLine (Record.arranged row) :=
  fun pair hpair => h pair ((Record.arranged_perm row).mem_iff.1 hpair)

theorem passes_body {row : SampleRow} (h : row.OneLine) : Scan.Passes row.body := by
  have hcolon : Scan.Passes (Text.ofString ":") := Scan.passes_idle (by decide)
  have hcomma : Scan.Passes (Text.ofString ",") := Scan.passes_idle (by decide)
  have hentry : ∀ pair ∈ Record.arranged row, Scan.Passes (entryText pair) := by
    intro pair hpair
    obtain ⟨hkey, hvalue⟩ := oneLine_arranged h pair hpair
    exact ((Sample.passes_quoted hkey).append hcolon).append (Sample.passes_toText hvalue)
  have hrest : ∀ pairs : SampleRow, (∀ pair ∈ pairs, Scan.Passes (entryText pair)) →
      Scan.Passes ((pairs.map entryText).flatMap fun u => Text.ofString "," ++ u) := by
    intro pairs hpairs
    induction pairs with
    | nil => exact Scan.passes_nil
    | cons pair pairs ih =>
      rw [List.map_cons, List.flatMap_cons]
      refine (hcomma.append (hpairs pair List.mem_cons_self)).append ?_
      exact ih fun other hother => hpairs other (List.mem_cons_of_mem _ hother)
  unfold body
  cases hrow : Record.arranged row with
  | nil => exact Scan.passes_nil
  | cons pair pairs =>
    rw [hrow] at hentry
    rw [List.map_cons, Text.join_cons]
    refine (hentry pair List.mem_cons_self).append (hrest pairs ?_)
    exact fun other hother => hentry other (List.mem_cons_of_mem _ hother)

def entryDerivation (pair : Text × Sample) : Key × Derivation := (key pair, pair.2.derivation)

theorem spelling_entry {pair : Text × Sample} (hkey : CodeUnit.ofChar '\n' ∉ pair.1)
    (hvalue : pair.2.OneLine) {ls : List Lexeme} {t : Text} (h : Spelling ls t) :
    Spelling ((entryDerivation pair).1.lexeme :: .mark .colon :: (entryDerivation pair).2.tokens ++ ls)
      (entryText pair ++ t) := by
  have hcolon : Text.ofString ":" = [Mark.colon.unit] := by decide
  have hlast : Spelling (pair.2.lexeme :: ls) (pair.2.toText ++ t) :=
    .adjoin (Sample.spells_toText hvalue) h
  have hmiddle := Spelling.adjoin (.mark .colon) hlast
  have hfirst := Spelling.adjoin (Sample.spells_quoted hkey) hmiddle
  simpa [entryDerivation, entryText, hcolon, Key.lexeme, key, Sample.tokens_derivation] using hfirst

theorem spelling_close : Spelling [.mark .closeBrace] [Bracket.brace.closing] :=
  .adjoin (.mark .closeBrace) (.nil (by simp [IsLayout]))

theorem spelling_continued {row : SampleRow} (h : row.OneLine) :
    Spelling (continued .closeBrace false (Derivation.entriesTokens (row.map entryDerivation)))
      ((row.map entryText).flatMap (fun u => Text.ofString "," ++ u) ++ [Bracket.brace.closing]) := by
  have hcomma : Text.ofString "," = [Mark.comma.unit] := by decide
  rw [Derivation.entriesTokens_eq]
  induction row with
  | nil => exact spelling_close
  | cons pair row ih =>
    obtain ⟨hkey, hvalue⟩ := h pair List.mem_cons_self
    have hrest := ih fun other hother => h other (List.mem_cons_of_mem _ hother)
    have hentry := Spelling.adjoin (.mark .comma) (spelling_entry hkey hvalue hrest)
    simpa [continued, hcomma] using hentry

theorem spelling_enclosed {row : SampleRow} (h : row.OneLine) :
    Spelling (enclosed .closeBrace false (Derivation.entriesTokens (row.map entryDerivation)))
      (Text.join "," (row.map entryText) ++ [Bracket.brace.closing]) := by
  cases row with
  | nil => exact spelling_close
  | cons pair row =>
    obtain ⟨hkey, hvalue⟩ := h pair List.mem_cons_self
    have hrest := spelling_continued fun other hother => h other (List.mem_cons_of_mem _ hother)
    have hentry := spelling_entry hkey hvalue hrest
    simp only [List.map_cons, Text.join_cons, List.append_assoc]
    exact hentry

theorem derives_payload {row : SampleRow} (hkeys : (Record.keys row).Nodup) (h : row.OneLine) :
    (Derivation.object ((Record.arranged row).map entryDerivation) false).Derives row.payload := by
  have hnodup : ((Record.arranged row).map (·.1)).Nodup :=
    ((Record.arranged_perm row).map Prod.fst).nodup_iff.2 hkeys
  constructor
  · refine .object ?_ ?_ (by simp)
    · intro entry hentry
      obtain ⟨pair, -, rfl⟩ := List.mem_map.1 hentry
      exact Sample.wellFormed_derivation pair.2
    · rw [List.map_map]
      exact hnodup
  · rw [payload_eq]
    exact .adjoin (.mark .openBrace) (spelling_enclosed (oneLine_arranged h))

theorem parse_payload {row : SampleRow} (hkeys : (Record.keys row).Nodup) (h : row.OneLine) :
    ∃ notes, Payload.parse row.payload = .ok ⟨value (Record.arranged row), notes⟩ := by
  obtain ⟨notes, hparse⟩ := parse_of_derives (derives_payload hkeys h)
  refine ⟨notes, hparse.trans ?_⟩
  rw [value, Derivation.value, Derivation.entriesValue_eq, List.map_map]
  simp only [Function.comp_def, entryDerivation, Sample.value_derivation]

end SampleRow

namespace Samples
variable (fields : List Field) (types : Record FieldType) (timeField : Text) (step : Option Number)
variable (i : Nat)

theorem arranged_row : Record.arranged (row fields types timeField step i) =
    row fields types timeField step i :=
  Record.arranged_idem _

theorem nodup_keys_row : (Record.keys (row fields types timeField step i)).Nodup := by
  refine ((Record.arranged_perm _).map Prod.fst).nodup_iff.2 (Record.nodup_keys_foldl ?_ _)
  cases step with
  | none => simp [Record.keys]
  | some step => exact Record.nodup_keys_assign (by simp [Record.keys]) _ _

variable {fields types timeField step i}

theorem mem_row {pair : Text × Sample} (h : pair ∈ row fields types timeField step i) :
    pair.1 ≠ Record.reservedKey ∧
      ((∃ s ∈ step, pair = (timeField, .number (firstTime + Number.ofNat i * s))) ∨
        ∃ f ∈ fields,
          pair = (f.name, .ofField f.name ((Record.get? types f.name).getD .string) i)) := by
  rcases Record.mem_foldl ((Record.arranged_perm _).mem_iff.1 h) with ⟨f, hf, rfl, hkey⟩ | hstart
  · exact ⟨hkey, .inr ⟨f, (List.mem_filter.1 hf).1, rfl⟩⟩
  · cases step with
    | none => simp at hstart
    | some s =>
      rcases Record.mem_assign hstart with ⟨rfl, hkey⟩ | hnil
      · exact ⟨hkey, .inl ⟨s, rfl, rfl⟩⟩
      · cases hnil

theorem mem_keys_row {k : Text} : k ∈ Record.keys (row fields types timeField step i) ↔
    k ≠ Record.reservedKey ∧ ((step.isSome = true ∧ k = timeField) ∨ ∃ f ∈ fields, f.name = k) := by
  refine ((Record.arranged_perm _).map Prod.fst).mem_iff.trans (Record.mem_keys_foldl.trans ?_)
  constructor
  · rintro (⟨f, hf, hname, hne⟩ | hstart)
    · exact ⟨hne, .inr ⟨f, (List.mem_filter.1 hf).1, hname⟩⟩
    · cases step with
      | none => cases hstart
      | some step =>
        rcases Record.mem_keys_assign.1 hstart with ⟨rfl, hne⟩ | hnil
        · exact ⟨hne, .inl ⟨rfl, rfl⟩⟩
        · cases hnil
  · rintro ⟨hne, hkey⟩
    by_cases htime : step.isSome = true ∧ k = timeField
    · obtain ⟨hsome, rfl⟩ := htime
      obtain ⟨s, rfl⟩ := Option.isSome_iff_exists.1 hsome
      exact .inr (Record.mem_keys_assign.2 (.inl ⟨rfl, hne⟩))
    · obtain ⟨f, hf, rfl⟩ := hkey.resolve_left htime
      have hother : (!(step.isSome && decide (f.name = timeField))) = true := by
        simpa [imp_iff_not_or] using htime
      exact .inl ⟨f, List.mem_filter.2 ⟨hf, hother⟩, rfl, hne⟩

theorem row_ne_nil_iff (htime : timeField ≠ Record.reservedKey) :
    row fields types timeField step i ≠ [] ↔
      step.isSome = true ∨ ∃ f ∈ fields, f.name ≠ Record.reservedKey := by
  constructor
  · intro hrow
    obtain ⟨pair, hpair⟩ := List.exists_mem_of_ne_nil _ hrow
    obtain ⟨hne, ⟨hsome, -⟩ | ⟨f, hf, hname⟩⟩ := mem_keys_row.1 (List.mem_map_of_mem hpair)
    · exact .inl hsome
    · exact .inr ⟨f, hf, hname ▸ hne⟩
  · intro hkey hrow
    have hkeys : ∀ k, k ∉ Record.keys (row fields types timeField step i) := by simp [hrow, Record.keys]
    rcases hkey with hsome | ⟨f, hf, hne⟩
    · exact hkeys timeField (mem_keys_row.2 ⟨htime, .inl ⟨hsome, rfl⟩⟩)
    · exact hkeys f.name (mem_keys_row.2 ⟨hne, .inr ⟨f, hf, rfl⟩⟩)

/-- The made-up values have no line break. -/
theorem oneLine_ofField (name : Text) (type : FieldType) (i : Nat) :
    (Sample.ofField name type i).OneLine := by
  cases type with
  | number => trivial
  | string =>
    have hlead : CodeUnit.ofChar '\n' ∉ Text.ofString "sample-" := by decide
    intro hmem
    rcases List.mem_append.1 hmem with hmem | hmem
    · exact hlead hmem
    · exact absurd (Text.isDigit_of_mem_ofNat hmem) (by decide)

theorem oneLine_row (htime : CodeUnit.ofChar '\n' ∉ timeField)
    (hfields : ∀ f ∈ fields, CodeUnit.ofChar '\n' ∉ f.name) :
    SampleRow.OneLine (row fields types timeField step i) := by
  intro pair hpair
  obtain ⟨-, ⟨s, -, rfl⟩ | ⟨f, hf, rfl⟩⟩ := mem_row hpair
  · exact ⟨htime, trivial⟩
  · exact ⟨hfields f hf, oneLine_ofField _ _ _⟩

theorem parse_row (htime : CodeUnit.ofChar '\n' ∉ timeField)
    (hfields : ∀ f ∈ fields, CodeUnit.ofChar '\n' ∉ f.name) :
    ∃ notes, Payload.parse (SampleRow.payload (row fields types timeField step i)) =
      .ok ⟨SampleRow.value (row fields types timeField step i), notes⟩ := by
  have hparse := SampleRow.parse_payload (nodup_keys_row fields types timeField step i)
    (oneLine_row htime hfields)
  rwa [arranged_row] at hparse

end Samples

end QueryLint
