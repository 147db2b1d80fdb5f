import QueryLint.Proofs.Payload.Grammar

/-!
The moves of the reader.

A lexeme that the reader takes is taken in one of ten ways. They are listed here once, with the note
that each of them leaves: what single steps keep is shown by cases on a move, and what runs keep by
induction on the steps of a run.
-/

namespace QueryLint.Payload
set_option autoImplicit false

def keyTexts (entries : List (Key × Value)) : List Text := entries.map (·.1.text)

def keyNote (key : Key) (offset : Nat) : Option Note :=
  if key.style = .bare then some ⟨.unquotedKey key.text, offset⟩ else none

/-- The note that a comma right before a closing bracket is worth. -/
def commaNote (bracket : Bracket) (comma : Option Nat) : Option Note :=
  comma.map fun offset => ⟨.trailingSeparator bracket, offset⟩

/-- The first lexeme of a value, and the state behind it. -/
inductive Begins (stack : List Frame) : Placed → State → Prop where
  | brace (offset : Nat) : Begins stack ⟨offset, .mark .openBrace⟩ ⟨stack, .key offset [] none⟩
  | square (offset : Nat) : Begins stack ⟨offset, .mark .openSquare⟩ ⟨stack, .item offset [] none⟩
  | quoted (offset : Nat) (quote : Quote) (text : Text) :
      Begins stack ⟨offset, .quoted quote text⟩ ⟨stack, .separator (.string text quote)⟩
  | word (offset : Nat) (word : Text) :
      Begins stack ⟨offset, .word word⟩ ⟨stack, .separator (classify word)⟩

/-- `Moves s l next note`: the lexeme `l` is taken in `s`. -/
inductive Moves : State → Placed → State → Option Note → Prop where
  | value {stack : List Frame} {l : Placed} {next : State} :
      Begins stack l next → Moves ⟨stack, .value⟩ l next none
  | item {stack : List Frame} {opened : Nat} {items : List Value} {comma : Option Nat} {l : Placed}
      {next : State} : Begins (.array opened items :: stack) l next →
      Moves ⟨stack, .item opened items comma⟩ l next none
  | closeItems (stack : List Frame) (opened : Nat) (items : List Value) (comma : Option Nat)
      (offset : Nat) : Moves ⟨stack, .item opened items comma⟩ ⟨offset, .mark .closeSquare⟩
        ⟨stack, .separator (.array items)⟩ (commaNote .square comma)
  | key (stack : List Frame) (opened : Nat) {entries : List (Key × Value)} (comma : Option Nat)
      (offset : Nat) {key : Key} : key.text ∉ keyTexts entries →
      Moves ⟨stack, .key opened entries comma⟩ ⟨offset, key.lexeme⟩ ⟨stack, .colon opened entries key⟩
        (keyNote key offset)
  | closeEntries (stack : List Frame) (opened : Nat) (entries : List (Key × Value))
      (comma : Option Nat) (offset : Nat) :
      Moves ⟨stack, .key opened entries comma⟩ ⟨offset, .mark .closeBrace⟩
        ⟨stack, .separator (.object entries)⟩ (commaNote .brace comma)
  | colon (stack : List Frame) (opened : Nat) (entries : List (Key × Value)) (key : Key)
      (offset : Nat) : Moves ⟨stack, .colon opened entries key⟩ ⟨offset, .mark .colon⟩
        ⟨.object opened entries key :: stack, .value⟩ none
  | entryComma (stack : List Frame) (opened : Nat) (entries : List (Key × Value)) (key : Key)
      (v : Value) (offset : Nat) :
      Moves ⟨.object opened entries key :: stack, .separator v⟩ ⟨offset, .mark .comma⟩
        ⟨stack, .key opened (entries ++ [(key, v)]) (some offset)⟩ none
  | entryClose (stack : List Frame) (opened : Nat) (entries : List (Key × Value)) (key : Key)
      (v : Value) (offset : Nat) :
      Moves ⟨.object opened entries key :: stack, .separator v⟩ ⟨offset, .mark .closeBrace⟩
        ⟨stack, .separator (.object (entries ++ [(key, v)]))⟩ none
  | itemComma (stack : List Frame) (opened : Nat) (items : List Value) (v : Value) (offset : Nat) :
      Moves ⟨.array opened items :: stack, .separator v⟩ ⟨offset, .mark .comma⟩
        ⟨stack, .item opened (items ++ [v]) (some offset)⟩ none
  | itemClose (stack : List Frame) (opened : Nat) (items : List Value) (v : Value) (offset : Nat) :
      Moves ⟨.array opened items :: stack, .separator v⟩ ⟨offset, .mark .closeSquare⟩
        ⟨stack, .separator (.array (items ++ [v]))⟩ none

theorem beginValue_eq_ok_iff {stack : List Frame} {l : Placed} {next : State} {note : Option Note} :
    beginValue stack l = .ok (next, note) ↔ Begins stack l next ∧ note = none := by
  constructor
  · intro h
    obtain ⟨offset, lexeme⟩ := l
    cases lexeme with
    | mark m =>
      cases m <;> cases h
      · exact ⟨.brace offset, rfl⟩
      · exact ⟨.square offset, rfl⟩
    | quoted quote text =>
      cases h
      exact ⟨.quoted offset quote text, rfl⟩
    | word word =>
      cases h
      exact ⟨.word offset word, rfl⟩
    | openQuote => cases h
    | openGroup => cases h
  · rintro ⟨h, rfl⟩
    cases h <;> rfl

theorem takeKey_eq_ok_iff {stack : List Frame} {opened offset : Nat} {entries : List (Key × Value)}
    {key : Key} {next : State} {note : Option Note} :
    takeKey stack opened entries key offset = .ok (next, note) ↔
      key.text ∉ keyTexts entries ∧ next = ⟨stack, .colon opened entries key⟩ ∧ note = keyNote key offset := by
  have hany : (entries.any fun entry => entry.1.text = key.text) = true ↔ key.text ∈ keyTexts entries := by
    simp [keyTexts]
  unfold takeKey
  split
  · rename_i hkey
    constructor
    · intro h
      cases h
    · rintro ⟨hfresh, -⟩
      exact absurd (hany.1 hkey) hfresh
  · rename_i hkey
    constructor
    · intro h
      cases h
      exact ⟨fun hmem => hkey (hany.2 hmem), rfl, rfl⟩
    · rintro ⟨-, rfl, rfl⟩
      rfl

theorem moves_of_step {s next : State} {l : Placed} {note : Option Note}
    (h : step s l = .ok (next, note)) : Moves s l next note := by
  obtain ⟨stack, expecting⟩ := s
  obtain ⟨offset, lexeme⟩ := l
  cases expecting with
  | value =>
    obtain ⟨hbegins, rfl⟩ := beginValue_eq_ok_iff.1 h
    exact .value hbegins
  | item opened items comma =>
    simp only [step] at h
    split at h
    · cases h
      exact .closeItems stack opened items comma offset
    · obtain ⟨hbegins, rfl⟩ := beginValue_eq_ok_iff.1 h
      exact .item hbegins
  | key opened entries comma =>
    cases lexeme with
    | mark m =>
      cases m <;> cases h
      exact .closeEntries stack opened entries comma offset
    | quoted quote text =>
      obtain ⟨hkey, rfl, rfl⟩ := takeKey_eq_ok_iff.1 h
      exact .key stack opened comma offset hkey
    | word word =>
      obtain ⟨hkey, rfl, rfl⟩ := takeKey_eq_ok_iff.1 h
      exact .key stack opened comma offset hkey
    | openQuote => cases h
    | openGroup => cases h
  | colon opened entries key =>
    simp only [step] at h
    split at h
    · cases h
      exact .colon stack opened entries key offset
    · cases h
  | separator v =>
    cases stack with
    | nil => cases h
    | cons frame stack =>
      cases frame with
      | object opened entries key =>
        simp only [step] at h
        split at h
        · cases h
          exact .entryClose stack opened entries key v offset
        · cases h
          exact .entryComma stack opened entries key v offset
        · cases h
      | array opened items =>
        simp only [step] at h
        split at h
        · cases h
          exact .itemClose stack opened items v offset
        · cases h
          exact .itemComma stack opened items v offset
        · cases h

/-- The moves are the steps that succeed. -/
theorem step_eq_ok_iff {s next : State} {l : Placed} {note : Option Note} :
    step s l = .ok (next, note) ↔ Moves s l next note := by
  refine ⟨moves_of_step, fun h => ?_⟩
  cases h with
  | value hbegins => exact beginValue_eq_ok_iff.2 ⟨hbegins, rfl⟩
  | item hbegins => cases hbegins <;> rfl
  | @key stack opened entries comma offset key hkey =>
    have htaken : takeKey stack opened entries key offset =
        .ok (⟨stack, .colon opened entries key⟩, keyNote key offset) :=
      takeKey_eq_ok_iff.2 ⟨hkey, rfl, rfl⟩
    obtain ⟨text, style⟩ := key
    cases style <;> exact htaken
  | _ => rfl

theorem finish_eq_ok_iff (length : Nat) (s : State) (v : Value) :
    finish length s = .ok v ↔ s = ⟨[], .separator v⟩ := by
  obtain ⟨stack, expecting⟩ := s
  cases expecting with
  | separator w =>
    cases stack with
    | nil => simp [finish]
    | cons frame stack => cases frame <;> simp [finish]
  | _ => simp [finish]

/-- `Reaches s ls s' notes`: taking the lexemes `ls` leads from `s` to `s'` and leaves `notes`. -/
inductive Reaches : State → List Placed → State → List Note → Prop where
  | refl (s : State) : Reaches s [] s []
  | cons {s next last : State} {l : Placed} {ls : List Placed} {note : Option Note}
      {notes : List Note} : step s l = .ok (next, note) → Reaches next ls last notes →
      Reaches s (l :: ls) last (note.toList ++ notes)

namespace Reaches

theorem single {s next : State} {l : Placed} {note : Option Note}
    (h : step s l = .ok (next, note)) : Reaches s [l] next note.toList := by
  simpa using Reaches.cons h (.refl next)

theorem trans {s t u : State} {ls ms : List Placed} {notes more : List Note}
    (h : Reaches s ls t notes) (h' : Reaches t ms u more) : Reaches s (ls ++ ms) u (notes ++ more) := by
  induction h with
  | refl => exact h'
  | cons hstep _ ih => simpa using Reaches.cons hstep (ih h')

theorem append_inv {s u : State} {ls ms : List Placed} {all : List Note}
    (h : Reaches s (ls ++ ms) u all) :
    ∃ t notes more, Reaches s ls t notes ∧ Reaches t ms u more ∧ all = notes ++ more := by
  induction ls generalizing s all with
  | nil => exact ⟨s, [], all, .refl s, h, rfl⟩
  | cons l ls ih =>
    cases h with
    | cons hstep hrest =>
      obtain ⟨t, notes, more, hls, hms, rfl⟩ := ih hrest
      exact ⟨t, _, more, .cons hstep hls, hms, (List.append_assoc _ _ _).symm⟩

theorem run_eq {s t : State} {ls : List Placed} {notes : List Note} (h : Reaches s ls t notes)
    (length : Nat) (rest : List Placed) :
    run length s (ls ++ rest) =
      (run length t rest).map fun parsed => { parsed with notes := notes ++ parsed.notes } := by
  induction h with
  | refl s =>
    rw [List.nil_append]
    cases run length s rest <;> rfl
  | cons hstep _ ih =>
    simp only [List.cons_append, run, hstep, ih]
    cases run length _ rest <;> simp [Except.map]

end Reaches

theorem run_nil_eq_ok_iff {length : Nat} {s : State} {v : Value} {notes : List Note} :
    run length s [] = .ok ⟨v, notes⟩ ↔ s = ⟨[], .separator v⟩ ∧ notes = [] := by
  rw [run, ← finish_eq_ok_iff length]
  cases finish length s with
  | error fault => simp [Except.map]
  | ok w => simp [Except.map, eq_comm]

theorem run_cons_eq_ok_iff {length : Nat} {s : State} {l : Placed} {ls : List Placed} {v : Value}
    {notes : List Note} : run length s (l :: ls) = .ok ⟨v, notes⟩ ↔
      ∃ next note more, step s l = .ok (next, note) ∧ run length next ls = .ok ⟨v, more⟩ ∧
        notes = note.toList ++ more := by
  rw [run]
  constructor
  · intro h
    split at h
    · cases h
    · rename_i next note hstep
      cases hrest : run length next ls with
      | error fault =>
        rw [hrest] at h
        cases h
      | ok parsed =>
        rw [hrest] at h
        cases h
        exact ⟨next, note, parsed.notes, hstep, hrest, rfl⟩
  · rintro ⟨next, note, more, hstep, hrest, rfl⟩
    rw [hstep]
    dsimp only
    rw [hrest]
    rfl

/-- The reader accepts where it stands behind a value outside of all containers. -/
theorem run_eq_ok_iff (length : Nat) (s : State) (ls : List Placed) (v : Value) (notes : List Note) :
    run length s ls = .ok ⟨v, notes⟩ ↔ Reaches s ls ⟨[], .separator v⟩ notes := by
  constructor
  · intro h
    induction ls generalizing s notes with
    | nil =>
      obtain ⟨rfl, rfl⟩ := run_nil_eq_ok_iff.1 h
      exact .refl _
    | cons l ls ih =>
      obtain ⟨next, note, more, hstep, hrest, rfl⟩ := run_cons_eq_ok_iff.1 h
      exact .cons hstep (ih next more hrest)
  · intro h
    have hrun := h.run_eq length []
    rw [List.append_nil] at hrun
    rw [hrun]
    simp [run, finish, Except.map]

/-- A refused run stops at the first lexeme that cannot be taken, or at the end. -/
theorem run_error {length : Nat} {s : State} {ls : List Placed} {fault : Fault}
    (h : run length s ls = .error fault) :
    (∃ before l behind next notes, ls = before ++ l :: behind ∧ Reaches s before next notes ∧
        step next l = .error fault) ∨
      ∃ next notes, Reaches s ls next notes ∧ finish length next = .error fault := by
  induction ls generalizing s with
  | nil =>
    rw [run] at h
    cases hfinish : finish length s with
    | error other =>
      rw [hfinish] at h
      cases h
      exact .inr ⟨s, [], .refl s, hfinish⟩
    | ok v =>
      rw [hfinish] at h
      cases h
  | cons l ls ih =>
    rw [run] at h
    split at h
    · rename_i other hstep
      cases h
      exact .inl ⟨[], l, ls, s, [], rfl, .refl s, hstep⟩
    · rename_i next note hstep
      cases hrest : run length next ls with
      | ok parsed =>
        rw [hrest] at h
        cases h
      | error other =>
        rw [hrest] at h
        cases h
        obtain ⟨before, l', behind, last, notes, rfl, hreaches, hlast⟩ | ⟨last, notes, hreaches, hlast⟩ :=
          ih hrest
        · exact .inl ⟨l :: before, l', behind, last, _, rfl, .cons hstep hreaches, hlast⟩
        · exact .inr ⟨last, _, .cons hstep hreaches, hlast⟩

end QueryLint.Payload
