import QueryLint.Proofs.Payload.Reading

/-!
The notes of a payload, from its lexemes.

A note is about two lexemes that stand side by side: a word before a colon is a bare key, and a
comma before a closing bracket is one too many. The notes of an accepted payload are those of its
neighbouring lexemes, in their order.
-/

namespace QueryLint.Payload
set_option autoImplicit false

def remark? (a b : Placed) : Option Note :=
  match a.lexeme, b.lexeme with
  | .word word, .mark .colon => some ⟨.unquotedKey word, a.offset⟩
  | .mark .comma, .mark .closeBrace => some ⟨.trailingSeparator .brace, a.offset⟩
  | .mark .comma, .mark .closeSquare => some ⟨.trailingSeparator .square, a.offset⟩
  | _, _ => none

def remarks : List Placed → List Note
  | a :: b :: ls => (remark? a b).toList ++ remarks (b :: ls)
  | _ => []

/-- The comma that the reader has just taken. -/
def State.behind (s : State) : List Placed :=
  match s.expecting with
  | .item _ _ (some offset) => [⟨offset, .mark .comma⟩]
  | .key _ _ (some offset) => [⟨offset, .mark .comma⟩]
  | _ => []

def State.expectsColon (s : State) : Bool :=
  match s.expecting with
  | .colon _ _ _ => true
  | _ => false

/-- What one lexeme does: a comma stays behind, a colon comes where one is expected, and the note is
about the comma before the lexeme or about a key. -/
structure Taking (s : State) (l : Placed) (next : State) (note : Option Note) : Prop where
  behind : next.behind = if l.lexeme = .mark .comma then [l] else []
  colon : l.lexeme = .mark .colon ↔ s.expectsColon = true
  note : note.toList = remarks (s.behind ++ [l]) ++
    if next.expectsColon then (remark? l ⟨0, .mark .colon⟩).toList else []

theorem Begins.taking {stack : List Frame} {l : Placed} {next : State} (h : Begins stack l next) :
    next.behind = [] ∧ next.expectsColon = false ∧ l.lexeme ≠ .mark .comma ∧ l.lexeme ≠ .mark .colon ∧
      l.lexeme ≠ .mark .closeBrace ∧ l.lexeme ≠ .mark .closeSquare := by
  cases h <;> simp [State.behind, State.expectsColon]

theorem remark?_comma {offset : Nat} {l : Placed} (hbrace : l.lexeme ≠ .mark .closeBrace)
    (hsquare : l.lexeme ≠ .mark .closeSquare) : remark? ⟨offset, .mark .comma⟩ l = none := by
  unfold remark?
  split
  · rename_i h _
    cases h
  · exact absurd ‹_› hbrace
  · exact absurd ‹_› hsquare
  · rfl

theorem Moves.taking {s next : State} {l : Placed} {note : Option Note} (h : Moves s l next note) :
    Taking s l next note := by
  cases h with
  | value hbegins =>
    obtain ⟨hbehind, hexpects, hcomma, hcolon, -⟩ := hbegins.taking
    constructor
    · simp [hbehind, hcomma]
    · simp [State.expectsColon, hcolon]
    · simp [State.behind, remarks, hexpects]
  | @item stack opened items comma l next hbegins =>
    obtain ⟨hbehind, hexpects, hcomma, hcolon, hbrace, hsquare⟩ := hbegins.taking
    constructor
    · simp [hbehind, hcomma]
    · simp [State.expectsColon, hcolon]
    · cases comma with
      | none => simp [State.behind, remarks, hexpects]
      | some before => simp [State.behind, remarks, hexpects, remark?_comma hbrace hsquare]
  | closeItems stack opened items comma =>
    cases comma <;> constructor <;> simp [State.behind, State.expectsColon, remarks, remark?, commaNote]
  | @key stack opened entries comma offset key =>
    obtain ⟨text, style⟩ := key
    cases comma <;> cases style <;> constructor <;>
      simp [State.behind, State.expectsColon, remarks, remark?, keyNote, Key.lexeme]
  | closeEntries stack opened entries comma =>
    cases comma <;> constructor <;> simp [State.behind, State.expectsColon, remarks, remark?, commaNote]
  | _ => constructor <;> simp [State.behind, State.expectsColon, remarks]

theorem State.behind_cases (s : State) : s.behind = [] ∨ ∃ comma, s.behind = [comma] := by
  unfold State.behind
  split
  · exact .inr ⟨_, rfl⟩
  · exact .inr ⟨_, rfl⟩
  · exact .inl rfl

theorem State.remarks_behind (s : State) (l : Placed) (ls : List Placed) :
    remarks (s.behind ++ l :: ls) = remarks (s.behind ++ [l]) ++ remarks (l :: ls) := by
  obtain h | ⟨comma, h⟩ := s.behind_cases
  · rw [h]
    simp [remarks]
  · rw [h]
    simp [remarks]

theorem remark?_of_not_colon {a b : Placed} (ha : a.lexeme ≠ .mark .comma) (hb : b.lexeme ≠ .mark .colon) :
    remark? a b = none := by
  unfold remark?
  split
  · exact absurd ‹_› hb
  · exact absurd ‹_› ha
  · exact absurd ‹_› ha
  · rfl

theorem remark?_congr {a b b' : Placed} (h : b.lexeme = b'.lexeme) : remark? a b = remark? a b' := by
  unfold remark?
  rw [h]

theorem remarks_cons {l : Placed} {next : State} {ls : List Placed} {v : Value} {notes : List Note}
    (hl : l.lexeme ≠ .mark .comma) (h : Reaches next ls ⟨[], .separator v⟩ notes) :
    (if next.expectsColon then (remark? l ⟨0, .mark .colon⟩).toList else []) ++ remarks ls =
      remarks (l :: ls) := by
  cases h with
  | refl => rfl
  | @cons _ _ _ r ls _ _ hstep _ =>
    have hcolon := (moves_of_step hstep).taking.colon
    rw [remarks]
    congr 2
    cases hexpects : next.expectsColon with
    | false =>
      rw [hexpects] at hcolon
      rw [remark?_of_not_colon hl fun hr => absurd (hcolon.mp hr) (by simp)]
      rfl
    | true => rw [if_pos rfl, remark?_congr (hcolon.mpr hexpects).symm]

/-- By induction on the run: the comma that was taken last may still lead to a remark. -/
theorem Reaches.notes_eq {s : State} {ls : List Placed} {v : Value} {notes : List Note}
    (h : Reaches s ls ⟨[], .separator v⟩ notes) : notes = remarks (s.behind ++ ls) := by
  generalize hend : State.mk [] (.separator v) = last at h
  induction h with
  | refl =>
    subst hend
    rfl
  | @cons s next last l ls note notes hstep hrest ih =>
    subst hend
    have htaking := (moves_of_step hstep).taking
    rw [ih rfl, s.remarks_behind, htaking.note, List.append_assoc]
    congr 1
    rw [htaking.behind]
    by_cases hl : l.lexeme = .mark .comma
    · have hnone : remark? l ⟨0, .mark .colon⟩ = none := by
        unfold remark?
        rw [hl]
      simp [hl, hnone]
    · rw [if_neg hl]
      exact remarks_cons hl hrest

theorem notes_eq_remarks {t : Text} {parsed : Parsed} (h : parse t = .ok parsed) :
    parsed.notes = remarks (lexemes 0 t) :=
  ((run_eq_ok_iff _ _ _ _ _).1 h).notes_eq

/-- Two lexemes that may stand side by side without a remark. -/
def Unremarked (a b : Lexeme) : Prop :=
  (b = .mark .colon → a.isWord = false) ∧
    (b = .mark .closeBrace ∨ b = .mark .closeSquare → a ≠ .mark .comma)

theorem Unremarked.remark?_eq_none {a b : Placed} (h : Unremarked a.lexeme b.lexeme) :
    remark? a b = none := by
  unfold remark?
  split
  · rename_i word ha hb
    have hword := h.1 hb
    rw [ha] at hword
    cases hword
  · exact absurd ‹_› (h.2 (.inl ‹_›))
  · exact absurd ‹_› (h.2 (.inr ‹_›))
  · rfl

theorem remarks_eq_nil {ls : List Placed} (h : (ls.map Placed.lexeme).IsChain Unremarked) :
    remarks ls = [] := by
  induction ls with
  | nil => rfl
  | cons a ls ih =>
    cases ls with
    | nil => rfl
    | cons b ls =>
      obtain ⟨hab, hrest⟩ := List.isChain_cons_cons.mp h
      rw [remarks, hab.remark?_eq_none, ih hrest]
      rfl

end QueryLint.Payload
