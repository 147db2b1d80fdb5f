import QueryLint.Proofs.Payload.Acceptance
import QueryLint.Proofs.Payload.Placing

/-!
Runs of the reader on a text.

What the reader has done at a lexeme depends on the text up to there alone, so the rest of the text
may be another.
-/

namespace QueryLint.Payload
set_option autoImplicit false

/-- The reader takes lexemes at other offsets in the same way. -/
theorem Reaches.relocate {s t : State} {ls : List Placed} {notes : List Note} (h : Reaches s ls t notes)
    (f : Nat → Nat) : Reaches (s.relocate f) (ls.map (Placed.relocate f)) (t.relocate f)
      (notes.map (Note.relocate f)) := by
  induction h with
  | refl s => exact .refl _
  | @cons s next last l ls note notes hstep _ ih =>
    have hnext : step (s.relocate f) (l.relocate f) =
        .ok (next.relocate f, note.map (Note.relocate f)) := by
      rw [step_relocate, hstep]
      rfl
    have hreaches := Reaches.cons hnext ih
    rwa [Option.toList_map, ← List.map_append] at hreaches

/-- Where the reader stands behind some lexemes, the text is cut in two. -/
theorem exists_leads {t : Text} {before behind : List Placed} {s : State} {notes : List Note}
    (hlexemes : lexemes 0 t = before ++ behind) (h : Reaches .start before s notes) :
    ∃ u v, t = u ++ v ∧ Leads 0 u before v ∧ Cut u.length v behind ∧
      (∀ l ∈ behind.head?, l.offset = u.length) ∧ (behind = [] → v = []) := by
  have hcut := Cut.of_lexemes 0 t
  rw [hlexemes] at hcut
  obtain ⟨u, v, rfl, hsplits⟩ := hcut.split h.isComplete
  exact ⟨u, v, rfl, hsplits.leads, by simpa using hsplits.cut, by simpa using hsplits.offset,
    hsplits.ends⟩

theorem lexemes_leads {u v v' : Text} {before behind : List Placed} (hleads : Leads 0 u before v)
    (hbefore : ∀ l ∈ before, l.lexeme.isComplete = true) (hstop : StopsWord v → StopsWord v')
    (hcut : Cut u.length v' behind) (hbehind : ∀ l ∈ behind, l.lexeme.isComplete = true) :
    lexemes 0 (u ++ v') = before ++ behind := by
  have hall := hleads v' behind hstop (by simpa using hcut)
  refine hall.lexemes_eq ?_
  intro l hl
  rcases List.mem_append.mp hl with hl | hl
  · exact hbefore l hl
  · exact hbehind l hl

theorem lexemes_front {u v : Text} {before : List Placed} (hleads : Leads 0 u before v)
    (hbefore : ∀ l ∈ before, l.lexeme.isComplete = true) : lexemes 0 u = before := by
  have hlexemes := lexemes_leads hleads hbefore (fun _ => stopsWord_nil) (.nil _) (by simp)
  rwa [List.append_nil, List.append_nil] at hlexemes

/-- From where it stands, the reader goes on with whatever text takes the place of the rest. -/
theorem parse_leads {u v v' : Text} {before : List Placed} {s : State} {notes : List Note}
    {parsed : Parsed} (hleads : Leads 0 u before v) (h : Reaches .start before s notes)
    (hstop : StopsWord v → StopsWord v')
    (hrun : run (u ++ v').length s (lexemes u.length v') = .ok parsed) :
    parse (u ++ v') = .ok { parsed with notes := notes ++ parsed.notes } := by
  have hlexemes := lexemes_leads hleads h.isComplete hstop (Cut.of_lexemes u.length v')
    (run_isComplete hrun)
  rw [parse, hlexemes, h.run_eq, hrun]
  rfl

end QueryLint.Payload
