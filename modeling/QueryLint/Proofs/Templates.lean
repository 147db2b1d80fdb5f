import Mathlib.Data.List.Nodup
import Mathlib.Data.List.Perm.Subperm
import QueryLint.Dialect.Builtin
import QueryLint.Fixture
import QueryLint.Proofs.Commands
import QueryLint.Proofs.Samples

/-!
The lines of a fixture.

The name of the block is new, and each of its lines, as well as the reference, is read as one clause
whose command plays its part: it opens the block, holds a row, closes the block, or refers to it.
-/

namespace QueryLint
set_option autoImplicit false

open Payload

namespace Fixture

theorem numbered_injective {name : Text} {m n : Nat} (h : numbered name m = numbered name n) : m = n :=
  Text.ofNat_injective (List.append_cancel_left h)

theorem numbered_ne_self (name : Text) (n : Nat) : numbered name n ≠ name := by
  intro heq
  have hlength := congrArg List.length heq
  have hmark : (Text.ofString "_").length = 1 := rfl
  rw [numbered, List.length_append, List.length_append, hmark] at hlength
  omega

section FreeName
variable {taken : List Text} {preferred : Text}

/-- The preferred name and the numbered ones are all different, so there are too many of them to be taken. -/
theorem exists_numbered_not_mem (h : preferred ∈ taken) :
    ∃ i < taken.length, numbered preferred (i + 2) ∉ taken := by
  by_contra! hall
  have hnodup : (preferred :: (List.range taken.length).map fun i => numbered preferred (i + 2)).Nodup := by
    rw [List.nodup_cons]
    constructor
    · intro hmem
      obtain ⟨i, -, heq⟩ := List.mem_map.1 hmem
      exact numbered_ne_self preferred (i + 2) heq
    · refine List.Nodup.map (fun i j hij => ?_) List.nodup_range
      have hsucc := numbered_injective hij
      omega
  have hsubset : (preferred :: (List.range taken.length).map fun i => numbered preferred (i + 2)) ⊆ taken := by
    intro name hname
    rcases List.mem_cons.1 hname with rfl | hname
    · exact h
    · obtain ⟨i, hi, rfl⟩ := List.mem_map.1 hname
      exact hall i (List.mem_range.1 hi)
  have hlength := (List.subperm_of_subset hnodup hsubset).length_le
  rw [List.length_cons, List.length_map, List.length_range] at hlength
  omega

theorem freeName_of_not_mem (h : preferred ∉ taken) : freeName taken preferred = preferred := by
  simp [freeName, h]

theorem exists_freeName_eq (h : preferred ∈ taken) : ∃ i < taken.length,
    freeName taken preferred = numbered preferred (i + 2) ∧ numbered preferred (i + 2) ∉ taken ∧
      ∀ j < i, numbered preferred (j + 2) ∈ taken := by
  obtain ⟨bound, hbound, hfree⟩ := exists_numbered_not_mem h
  rw [freeName, if_neg (by simpa using h)]
  cases hfind : (List.range (taken.length + 1)).find? fun i => !taken.contains (numbered preferred (i + 2)) with
  | none =>
    have hnone := List.find?_eq_none.1 hfind bound (List.mem_range.2 (by omega))
    simp [hfree] at hnone
  | some i =>
    obtain ⟨hi, -, hbefore⟩ := List.find?_range_eq_some.1 hfind
    have htaken : ∀ j < i, numbered preferred (j + 2) ∈ taken := by
      intro j hj
      simpa using hbefore j hj
    refine ⟨i, ?_, rfl, by simpa using hi, htaken⟩
    by_contra hlate
    exact hfree (htaken bound (by omega))

theorem freeName_not_mem (taken : List Text) (preferred : Text) : freeName taken preferred ∉ taken := by
  by_cases h : preferred ∈ taken
  · obtain ⟨i, -, hname, hfree, -⟩ := exists_freeName_eq h
    rwa [hname]
  · rwa [freeName_of_not_mem h]

end FreeName

def IsBlockName (name : Text) : Prop :=
  ∃ rest, name = defaultBlockName ++ rest ∧ ∀ c ∈ rest, Chunk.isNameUnit c = true

theorem isBlockName_freeName (taken : List Text) : IsBlockName (freeName taken defaultBlockName) := by
  have hnumbered : ∀ n, IsBlockName (numbered defaultBlockName n) := by
    intro n
    have hunits : ∀ c ∈ Text.ofString "_", Chunk.isNameUnit c = true := by decide
    refine ⟨"_" ++ Text.ofNat n, by rw [numbered, List.append_assoc], ?_⟩
    intro c hc
    rcases List.mem_append.1 hc with hc | hc
    · exact hunits c hc
    · simp [Chunk.isNameUnit, Text.isDigit_of_mem_ofNat hc]
  unfold freeName
  split
  · exact ⟨[], (List.append_nil _).symm, by simp⟩
  · exact hnumbered _

namespace IsBlockName
variable {name : Text} (h : IsBlockName name)
include h

theorem isNameUnit : ∀ c ∈ name, Chunk.isNameUnit c = true := by
  obtain ⟨rest, rfl, hrest⟩ := h
  have hdefault : ∀ c ∈ defaultBlockName, Chunk.isNameUnit c = true := by decide
  intro c hc
  rcases List.mem_append.1 hc with hc | hc
  · exact hdefault c hc
  · exact hrest c hc

theorem isName : Chunk.IsName name := by
  refine ⟨?_, h.isNameUnit⟩
  obtain ⟨rest, rfl, -⟩ := h
  have hdefault : defaultBlockName = CodeUnit.ofChar 't' :: Text.ofString "est_data" := by decide
  exact ⟨_, _, by rw [hdefault]; rfl, by decide⟩

theorem isWord : IsWord name := by
  refine ⟨?_, wordRun_of_units fun c hc => ?_⟩
  · obtain ⟨⟨c, u, rfl, -⟩, -⟩ := h.isName
    simp
  · have hother : ∀ d : CodeUnit, Chunk.isNameUnit d = false → c ≠ d := fun d hd =>
      Chunk.ne_of_isNameUnit (h.isNameUnit c hc) hd
    have hstops : ∀ d ∈ wordStops, Chunk.isNameUnit d = false := by decide
    refine ⟨?_, fun hmem => hother c (hstops c hmem) rfl⟩
    simp [CodeUnit.isLayout, hother (CodeUnit.ofChar ' ') (by decide),
      hother (CodeUnit.ofChar '\t') (by decide), hother (CodeUnit.ofChar '\n') (by decide),
      hother (CodeUnit.ofChar '\r') (by decide)]

/-- The name stands for itself in a payload. -/
theorem wordValue : WordValue name (.bare name) := by
  obtain ⟨rest, rfl, -⟩ := h
  have hdefault : defaultBlockName = CodeUnit.ofChar 't' :: CodeUnit.ofChar 'e' ::
      Text.ofString "st_data" := by decide
  have htrue : Text.ofString "true" = CodeUnit.ofChar 't' :: CodeUnit.ofChar 'r' ::
      Text.ofString "ue" := by decide
  have hfalse : Text.ofString "false" = CodeUnit.ofChar 'f' :: Text.ofString "alse" := by decide
  have hnull : Text.ofString "null" = CodeUnit.ofChar 'n' :: Text.ofString "ull" := by decide
  rw [hdefault]
  refine .bare ?_ ?_ ?_ ?_
  · rw [htrue]
    intro heq
    exact absurd (List.cons.inj (List.cons.inj heq).2).1 (by decide)
  · rw [hfalse]
    intro heq
    exact absurd (List.cons.inj heq).1 (by decide)
  · rw [hnull]
    intro heq
    exact absurd (List.cons.inj heq).1 (by decide)
  · -- a numeral starts with a digit or a point
    have hdigit : (CodeUnit.ofChar 't').isDigit = false := by decide
    have hpoint : CodeUnit.ofChar 't' ≠ CodeUnit.ofChar '.' := by decide
    have hminus : CodeUnit.ofChar 't' ≠ CodeUnit.ofChar '-' := by decide
    have hlower : CodeUnit.ofChar 't' ≠ CodeUnit.ofChar 'e' := by decide
    have hupper : CodeUnit.ofChar 't' ≠ CodeUnit.ofChar 'E' := by decide
    simp [Number.ofLiteral?, Numeral.ofText?, Numeral.scan, Numeral.scanExponent, hdigit, hpoint,
      hminus, hlower, hupper]

end IsBlockName
end Fixture

theorem Fixture.IsBlockName.parse_eq {name : Text} (h : Fixture.IsBlockName name) :
    ∃ notes, Payload.parse name = .ok ⟨.bare name, notes⟩ := by
  have hderives : (Derivation.word name (.bare name)).Derives name := by
    refine ⟨.word h.wordValue, ?_⟩
    have hspelling := Spelling.adjoin (.word h.isWord) (.nil (show IsLayout [] by simp [IsLayout]))
    rwa [List.append_nil] at hspelling
  exact parse_of_derives hderives

theorem Fixture.IsBlockName.parse_entry {name key : Text} (h : Fixture.IsBlockName name)
    (hkey : IsWord key) :
    ∃ notes, Payload.parse (Chunk.braced (key ++ ": " ++ name)) =
      .ok ⟨.object [(⟨key, .bare⟩, .bare name)], notes⟩ := by
  have hcolon : Text.ofString ": " = [Mark.colon.unit, CodeUnit.ofChar ' '] := by decide
  have hderives : (Derivation.object [(⟨key, .bare⟩, .word name (.bare name))] false).Derives
      (Chunk.braced (key ++ ": " ++ name)) := by
    constructor
    · refine .object ?_ (by simp) (by simp)
      intro entry hentry
      rw [List.mem_singleton.1 hentry]
      exact .word h.wordValue
    · have hclose := Spelling.cons (show IsLayout [CodeUnit.ofChar ' '] by simp [IsLayout]; decide)
        (.word h.isWord) SampleRow.spelling_close
      have hbody := Spelling.adjoin (.word hkey) (.adjoin (.mark .colon) hclose)
      have hwhole := Spelling.adjoin (.mark .openBrace) hbody
      simpa [Chunk.braced, hcolon, Derivation.tokens, Derivation.entriesTokens, enclosed, continued,
        Key.lexeme, Mark.unit, Bracket.opening] using hwhole
  exact parse_of_derives hderives

namespace Command
variable {dialect : Dialect} {index : Nat} {p : Position} {cl : Clause}

theorem spec_ofClause : (ofClause dialect index p cl).spec = dialect.spec? (Text.upper cl.name) := by
  obtain ⟨name, gap, payload, tail⟩ := cl
  cases payload <;> rfl

theorem scope_ofClause : (ofClause dialect index p cl).scope = none := by
  obtain ⟨name, gap, payload, tail⟩ := cl
  cases payload <;> rfl

structure Reads (c : Command) (value : Option Value) : Prop where
  payload : c.payload = value
  payloadText : c.payloadText.isSome = value.isSome
  payloadFault : c.payloadFault = none
  delimiterFault : c.delimiterFault = none

theorem reads_ofClause {text : Text} {bracketed : Bool} {value : Value}
    (hcl : cl.payload = some ⟨text, bracketed, none⟩)
    (hparse : ∃ notes, Payload.parse text = .ok ⟨value, notes⟩) :
    (ofClause dialect index p cl).Reads (some value) := by
  obtain ⟨name, gap, payload, tail⟩ := cl
  obtain ⟨notes, hparse⟩ := hparse
  subst hcl
  constructor <;> simp [ofClause, Token.ofClause, ofToken, readPayload, hparse]

theorem reads_ofClause_none (hcl : cl.payload = none) : (ofClause dialect index p cl).Reads none := by
  obtain ⟨name, gap, payload, tail⟩ := cl
  subst hcl
  exact ⟨rfl, rfl, rfl, rfl⟩

end Command

theorem Text.fillIn_append {t : Text} (h : CodeUnit.ofChar '%' ∉ t) (argument u : Text) :
    Text.fillIn argument (t ++ ("%s" ++ u)) = t ++ (argument ++ Text.fillIn argument u) := by
  have hunits : Text.ofString "%s" = [CodeUnit.ofChar '%', CodeUnit.ofChar 's'] := by decide
  induction t with
  | nil => simp [hunits, Text.fillIn]
  | cons c t ih =>
    rw [List.mem_cons, not_or] at h
    have hrest := ih h.2
    obtain ⟨d, v, hd⟩ : ∃ d v, t ++ (Text.ofString "%s" ++ u) = d :: v := by
      cases t <;> simp [hunits]
    rw [List.cons_append, hd, Text.fillIn]
    rw [hd] at hrest
    simp [Ne.symm h.1, hrest]

theorem Text.fillIn_free {t : Text} (h : CodeUnit.ofChar '%' ∉ t) (argument : Text) :
    Text.fillIn argument t = t := by
  induction t with
  | nil => rfl
  | cons c t ih =>
    rw [List.mem_cons, not_or] at h
    cases t with
    | nil => rfl
    | cons d t => simp [Text.fillIn, Ne.symm h.1, ih h.2]

namespace Fixture
open Chunk Dialect

/-- The clauses that the lines of a fixture are read as. -/
def openerClause (name : Text) : Builtin → Clause
  | .mxql => ⟨"SUB", " ", some ⟨braced ("id" ++ ": " ++ name), true, none⟩, []⟩
  | .pipeline => ⟨"BLOCK", " ", some ⟨name, false, none⟩, []⟩

def rowClause (row : SampleRow) : Builtin → Clause
  | .mxql => ⟨"ADDROW", " ", some ⟨row.payload, true, none⟩, []⟩
  | .pipeline => ⟨"ROW", " ", some ⟨row.payload, true, none⟩, []⟩

def closerClause : Clause := ⟨"END", [], none, []⟩

def referenceClause (name : Text) : Builtin → Clause
  | .mxql => ⟨"APPEND", " ", some ⟨braced ("query" ++ ": " ++ name), true, none⟩, []⟩
  | .pipeline => ⟨"USE", " ", some ⟨name, false, none⟩, []⟩

theorem isName_of_units {t : Text} (h : (t.head?.any isNameStart && t.all isNameUnit) = true) :
    IsName t := by
  rw [Bool.and_eq_true, List.all_eq_true] at h
  cases t with
  | nil => exact absurd h.1 (by decide)
  | cons c t => exact ⟨⟨c, t, rfl, by simpa using h.1⟩, h.2⟩

theorem isWord_of_units {t : Text} (ht : t ≠ []) (h : ∀ c ∈ t, c.isNumberUnit = true) : IsWord t :=
  ⟨ht, wordRun_of_units fun c hc => isWordUnit_of_isNumberUnit (h c hc)⟩

theorem isIdle_of_isNameUnit {c : CodeUnit} (h : isNameUnit c = true) : Delimiter.Scan.IsIdle c := by
  have hother : ∀ d : CodeUnit, isNameUnit d = false → c ≠ d := fun d hd => ne_of_isNameUnit h hd
  refine ⟨hother _ (by decide), ?_, ?_, ?_⟩
  · simp [CodeUnit.isQuote, hother (CodeUnit.ofChar '"') (by decide),
      hother (CodeUnit.ofChar '\'') (by decide)]
  · simp [Bracket.ofOpening?, hother Bracket.brace.opening (by decide),
      hother Bracket.square.opening (by decide)]
  · simp [Bracket.ofClosing?, hother Bracket.brace.closing (by decide),
      hother Bracket.square.closing (by decide)]

theorem IsBlockName.passes_entry {name : Text} (h : IsBlockName name) {key : Text}
    (hkey : ∀ c ∈ key, Delimiter.Scan.IsIdle c) : Delimiter.Scan.Passes (key ++ ": " ++ name) := by
  refine ((Delimiter.Scan.passes_idle hkey).append (Delimiter.Scan.passes_idle (by decide))).append ?_
  exact Delimiter.Scan.passes_idle fun c hc => isIdle_of_isNameUnit (h.isNameUnit c hc)

section Lines
variable (isKeyword : Text → Bool) {command key argument : Text} (hcommand : IsName command)
include hcommand

theorem percent_free : CodeUnit.ofChar '%' ∉ command := fun hmem => absurd (hcommand.2 _ hmem) (by decide)

theorem fillIn_spaced : Text.fillIn argument (spaced command "%s") = spaced command argument := by
  have hfree : CodeUnit.ofChar '%' ∉ command ++ [CodeUnit.ofChar ' '] := by
    simpa using ⟨percent_free hcommand, by decide⟩
  have hsplit : spaced command "%s" = (command ++ [CodeUnit.ofChar ' ']) ++
      (Text.ofString "%s" ++ []) := by
    simp [spaced]
  rw [hsplit, Text.fillIn_append hfree]
  simp [spaced, Text.fillIn]

/-- A template of a command name and an object with one entry. -/
theorem fillIn_braced (hkey : IsName key) :
    Text.fillIn argument (spaced command (braced (key ++ ": " ++ "%s"))) =
      spaced command (braced (key ++ ": " ++ argument)) := by
  have hfree : CodeUnit.ofChar '%' ∉
      command ++ [CodeUnit.ofChar ' ', Bracket.brace.opening] ++ key ++ Text.ofString ": " := by
    simp only [List.mem_append, not_or]
    exact ⟨⟨⟨percent_free hcommand, by decide⟩, percent_free hkey⟩, by decide⟩
  have hsplit : spaced command (braced (key ++ ": " ++ "%s")) =
      (command ++ [CodeUnit.ofChar ' ', Bracket.brace.opening] ++ key ++ ": ") ++
        ("%s" ++ [Bracket.brace.closing]) := by
    simp [spaced, braced]
  rw [hsplit, Text.fillIn_append hfree, Text.fillIn_free (by decide)]
  simp [spaced, braced]

end Lines

section Lines
variable (isKeyword : Text → Bool) (b : Builtin)

theorem isClauseLine_opener {name : Text} (h : IsBlockName name) :
    IsClauseLine isKeyword (b.dialect.openBlock name) (openerClause name b) := by
  cases b with
  | mxql =>
    have hcommand : IsName "SUB" := isName_of_units (by decide)
    have htemplate : mxql.templates.openBlock = spaced "SUB" (braced ("id" ++ ": " ++ "%s")) := by
      decide
    have hline : mxql.openBlock name = spaced "SUB" (braced ("id" ++ ": " ++ name)) := by
      rw [openBlock, htemplate, fillIn_braced hcommand (isName_of_units (by decide))]
    have hclause := isClauseLine_braced isKeyword hcommand
      (h.passes_entry (show ∀ c ∈ Text.ofString "id", Delimiter.Scan.IsIdle c by decide))
    rwa [← hline] at hclause
  | pipeline =>
    have hcommand : IsName "BLOCK" := isName_of_units (by decide)
    have htemplate : pipeline.templates.openBlock = spaced "BLOCK" "%s" := by decide
    have hline : pipeline.openBlock name = spaced "BLOCK" name := by
      rw [openBlock, htemplate, fillIn_spaced hcommand]
    have hclause := isClauseLine_word isKeyword hcommand h.isName
    rwa [← hline] at hclause

theorem isClauseLine_row {row : SampleRow} (h : row.OneLine) :
    IsClauseLine isKeyword (b.dialect.row row.payload) (rowClause row b) := by
  cases b with
  | mxql =>
    have hcommand : IsName "ADDROW" := isName_of_units (by decide)
    have htemplate : mxql.templates.row = spaced "ADDROW" "%s" := by decide
    have hline : mxql.row row.payload = spaced "ADDROW" (braced row.body) := by
      rw [Dialect.row, htemplate, fillIn_spaced hcommand, row.payload_eq]
    have hclause := isClauseLine_braced isKeyword hcommand (SampleRow.passes_body h)
    rwa [← hline, ← row.payload_eq] at hclause
  | pipeline =>
    have hcommand : IsName "ROW" := isName_of_units (by decide)
    have htemplate : pipeline.templates.row = spaced "ROW" "%s" := by decide
    have hline : pipeline.row row.payload = spaced "ROW" (braced row.body) := by
      rw [Dialect.row, htemplate, fillIn_spaced hcommand, row.payload_eq]
    have hclause := isClauseLine_braced isKeyword hcommand (SampleRow.passes_body h)
    rwa [← hline, ← row.payload_eq] at hclause

theorem isClauseLine_closer : IsClauseLine isKeyword b.dialect.closeBlock closerClause := by
  have hline : b.dialect.closeBlock = Text.ofString "END" := by cases b <;> decide
  rw [hline]
  exact isClauseLine_bare isKeyword (isName_of_units (by decide))

theorem isClauseLine_reference {name : Text} (h : IsBlockName name) :
    IsClauseLine isKeyword (b.dialect.reference name) (referenceClause name b) := by
  cases b with
  | mxql =>
    have hcommand : IsName "APPEND" := isName_of_units (by decide)
    have htemplate : mxql.templates.reference =
        spaced "APPEND" (braced ("query" ++ ": " ++ "%s")) := by decide
    have hline : mxql.reference name = spaced "APPEND" (braced ("query" ++ ": " ++ name)) := by
      rw [reference, htemplate, fillIn_braced hcommand (isName_of_units (by decide))]
    have hclause := isClauseLine_braced isKeyword hcommand
      (h.passes_entry (show ∀ c ∈ Text.ofString "query", Delimiter.Scan.IsIdle c by decide))
    rwa [← hline] at hclause
  | pipeline =>
    have hcommand : IsName "USE" := isName_of_units (by decide)
    have htemplate : pipeline.templates.reference = spaced "USE" "%s" := by decide
    have hline : pipeline.reference name = spaced "USE" name := by
      rw [reference, htemplate, fillIn_spaced hcommand]
    have hclause := isClauseLine_word isKeyword hcommand h.isName
    rwa [← hline] at hclause

end Lines

def openerSpec : Builtin → Spec
  | .mxql => {
      role := .blockOpen, payload := .required, accepts := [.object, .scalar],
      nameKeys := texts ["id"] }
  | .pipeline => {
      role := .blockOpen, payload := .required, accepts := [.scalar, .object],
      nameKeys := texts ["name"] }

def rowSpec : Spec := {
  role := .literalRow, payload := .required, accepts := [.object], suppliesData := true }

def closerSpec : Spec := { role := .blockClose, payload := .none, accepts := [] }

def referenceSpec : Builtin → Spec
  | .mxql => {
      role := .subqueryRef, payload := .required, accepts := [.object],
      refKeys := texts ["query"], suppliesData := true }
  | .pipeline => {
      role := .subqueryRef, payload := .required, accepts := [.scalar, .object],
      refKeys := texts ["name"], suppliesData := true }

def openerPayload (name : Text) : Builtin → Value
  | .mxql => .object [(⟨"id", .bare⟩, .bare name)]
  | .pipeline => .bare name

def referencePayload (name : Text) : Builtin → Value
  | .mxql => .object [(⟨"query", .bare⟩, .bare name)]
  | .pipeline => .bare name

section Commands
variable (b : Builtin) (index : Nat) (p : Position) (name : Text) (row : SampleRow)

theorem spec_opener :
    (Command.ofClause b.dialect index p (openerClause name b)).spec = some (openerSpec b) := by
  have hmxql : mxql.spec? (Text.upper "SUB") = some (openerSpec .mxql) := by decide +kernel
  have hpipeline : pipeline.spec? (Text.upper "BLOCK") = some (openerSpec .pipeline) := by
    decide +kernel
  rw [Command.spec_ofClause]
  cases b with
  | mxql => exact hmxql
  | pipeline => exact hpipeline

theorem spec_row : (Command.ofClause b.dialect index p (rowClause row b)).spec = some rowSpec := by
  have hmxql : mxql.spec? (Text.upper "ADDROW") = some rowSpec := by decide +kernel
  have hpipeline : pipeline.spec? (Text.upper "ROW") = some rowSpec := by decide +kernel
  rw [Command.spec_ofClause]
  cases b with
  | mxql => exact hmxql
  | pipeline => exact hpipeline

theorem spec_closer : (Command.ofClause b.dialect index p closerClause).spec = some closerSpec := by
  rw [Command.spec_ofClause]
  cases b <;> decide +kernel

theorem spec_reference :
    (Command.ofClause b.dialect index p (referenceClause name b)).spec = some (referenceSpec b) := by
  have hmxql : mxql.spec? (Text.upper "APPEND") = some (referenceSpec .mxql) := by decide +kernel
  have hpipeline : pipeline.spec? (Text.upper "USE") = some (referenceSpec .pipeline) := by
    decide +kernel
  rw [Command.spec_ofClause]
  cases b with
  | mxql => exact hmxql
  | pipeline => exact hpipeline

theorem role_opener :
    (Command.ofClause b.dialect index p (openerClause name b)).role? = some .blockOpen := by
  rw [Command.role?, spec_opener]
  cases b <;> rfl

theorem role_row : (Command.ofClause b.dialect index p (rowClause row b)).role? = some .literalRow := by
  rw [Command.role?, spec_row]
  rfl

theorem role_closer : (Command.ofClause b.dialect index p closerClause).role? = some .blockClose := by
  rw [Command.role?, spec_closer]
  rfl

theorem role_reference :
    (Command.ofClause b.dialect index p (referenceClause name b)).role? = some .subqueryRef := by
  rw [Command.role?, spec_reference]
  cases b <;> rfl

variable {name}

theorem reads_opener (h : IsBlockName name) :
    (Command.ofClause b.dialect index p (openerClause name b)).Reads (some (openerPayload name b)) := by
  cases b with
  | mxql => exact Command.reads_ofClause rfl (h.parse_entry (isWord_of_units (by decide) (by decide)))
  | pipeline => exact Command.reads_ofClause rfl h.parse_eq

theorem reads_reference (h : IsBlockName name) :
    (Command.ofClause b.dialect index p (referenceClause name b)).Reads
      (some (referencePayload name b)) := by
  cases b with
  | mxql => exact Command.reads_ofClause rfl (h.parse_entry (isWord_of_units (by decide) (by decide)))
  | pipeline => exact Command.reads_ofClause rfl h.parse_eq

theorem reads_closer : (Command.ofClause b.dialect index p closerClause).Reads none :=
  Command.reads_ofClause_none rfl

theorem declaredName_opener (h : IsBlockName name) :
    (Command.ofClause b.dialect index p (openerClause name b)).declaredName? = some name := by
  have hpayload := (reads_opener b index p h).payload
  have hspec := spec_opener b index p name
  cases b with
  | mxql =>
    simp [Command.declaredName?, Command.declaredNameValue?, Command.operand?, Command.property?,
      hpayload, hspec, openerPayload, openerSpec, Value.isObject, Value.first?, Value.get?, Dialect.texts,
      Value.text?]
  | pipeline =>
    simp [Command.declaredName?, Command.declaredNameValue?, Command.operand?, hpayload, openerPayload,
      Value.isObject, Value.text?]

theorem referencedName_reference (h : IsBlockName name) :
    (Command.ofClause b.dialect index p (referenceClause name b)).referencedName? = some name := by
  have hpayload := (reads_reference b index p h).payload
  have hspec := spec_reference b index p name
  cases b with
  | mxql =>
    simp [Command.referencedName?, Command.operand?, Command.property?, hpayload, hspec,
      referencePayload, referenceSpec, Value.isObject, Value.first?, Value.get?, Dialect.texts,
      Value.text?]
  | pipeline =>
    simp [Command.referencedName?, Command.operand?, hpayload, referencePayload, Value.isObject,
      Value.text?]

end Commands
end Fixture

end QueryLint
