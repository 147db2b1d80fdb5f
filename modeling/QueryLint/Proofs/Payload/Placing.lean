import QueryLint.Proofs.Payload.Lexing
import QueryLint.Proofs.Payload.Relocation

/-!
Where the lexemes of a payload stand.

The lexemes of a text come with their offsets, and `Cut` says which text is cut into which lexemes
at which offsets. A text that is cut behind some lexemes falls into two parts. The first part is
cut in the same way whatever text takes the place of the second, unless a word runs on into it.
-/

namespace QueryLint.Payload
set_option autoImplicit false

namespace Cut

theorem lexemes_eq {offset : Nat} {t : Text} {ls : List Placed} (h : Cut offset t ls)
    (hls : ∀ l ∈ ls, l.lexeme.isComplete = true) : lexemes offset t = ls := by
  induction h with
  | nil offset => rw [lexemes]
  | @layout offset c t ls hc _ ih =>
    have hlayout : IsLayout [c] := by simpa [IsLayout] using hc
    have hgap := lexemes_layout hlayout offset t
    rw [List.singleton_append, List.length_singleton] at hgap
    exact hgap.trans (ih hls)
  | @lexeme offset l w t ls hl hstop _ ih =>
    rw [← ih fun l hl => hls l (List.mem_cons_of_mem _ hl)]
    cases hl with
    | mark m => exact lexemes_mark m offset t
    | quoted hrun =>
      rw [lexemes_quoted hrun]
      simp [Nat.add_assoc, Nat.add_comm]
    | word hw => exact lexemes_word hw (hstop rfl) offset
  | openQuote => simp [Lexeme.isComplete] at hls
  | openGroup => simp [Lexeme.isComplete] at hls

end Cut

theorem Lexeme.Spells.ne_nil {l : Lexeme} {w : Text} (h : l.Spells w) : w ≠ [] := by
  cases h with
  | mark => simp
  | quoted => simp
  | word hw => exact hw.1

theorem Lexeme.Spells.isComplete {l : Lexeme} {w : Text} (h : l.Spells w) : l.isComplete = true := by
  cases h <;> rfl

/-- A lexeme that was cut to its end holds no offset. -/
theorem Lexeme.relocate_of_isComplete {l : Lexeme} (h : l.isComplete = true) (f : Nat → Nat) :
    l.relocate f = l := by
  cases l with
  | openGroup => cases h
  | _ => rfl

namespace Cut

theorem le_offset {offset : Nat} {t : Text} {ls : List Placed} (h : Cut offset t ls) :
    ∀ l ∈ ls, offset ≤ l.offset := by
  induction h with
  | nil => simp
  | layout _ _ ih => exact fun l hl => Nat.le_of_succ_le (ih l hl)
  | lexeme _ _ _ ih =>
    intro m hm
    rcases List.mem_cons.mp hm with rfl | hm
    · exact Nat.le_refl _
    · exact Nat.le_trans (Nat.le_add_right _ _) (ih m hm)
  | openQuote => simp
  | openGroup => simp

theorem increasing {offset : Nat} {t : Text} {ls : List Placed} (h : Cut offset t ls) :
    ls.Pairwise fun a b => a.offset < b.offset := by
  induction h with
  | nil => exact .nil
  | layout _ _ ih => exact ih
  | @lexeme offset l w t ls hw _ hrest ih =>
    have hpos := List.length_pos_iff.mpr hw.ne_nil
    refine .cons ?_ ih
    intro m hm
    have hrest := hrest.le_offset m hm
    dsimp only
    omega
  | openQuote => exact List.pairwise_singleton _ _
  | openGroup => exact List.pairwise_singleton _ _

/-- In front of the first lexeme stands layout. -/
theorem gap {offset : Nat} {t : Text} {l : Placed} {ls : List Placed} (h : Cut offset t (l :: ls)) :
    ∃ gap v, t = gap ++ v ∧ IsLayout gap ∧ l.offset = offset + gap.length ∧
      Cut l.offset v (l :: ls) := by
  generalize hall : l :: ls = all at h
  induction h with
  | nil => cases hall
  | @layout offset c t all hc _ ih =>
    obtain ⟨gap, v, rfl, hgap, hoffset, hcut⟩ := ih hall
    refine ⟨c :: gap, v, rfl, ?_, ?_, hcut⟩
    · exact List.forall_mem_cons.mpr ⟨hc, hgap⟩
    · rw [hoffset, List.length_cons]
      omega
  | @lexeme offset l' w t all hw hstop hrest _ =>
    cases hall
    exact ⟨[], w ++ t, rfl, by simp [IsLayout], rfl, .lexeme hw hstop hrest⟩
  | openQuote quote t =>
    cases hall
    exact ⟨[], _, rfl, by simp [IsLayout], rfl, .openQuote quote t⟩
  | openGroup hrun heq =>
    cases hall
    exact ⟨[], _, rfl, by simp [IsLayout], rfl, .openGroup hrun heq⟩

theorem spelled {offset : Nat} {t : Text} {l : Lexeme} {ls : List Placed}
    (h : Cut offset t (⟨offset, l⟩ :: ls)) (hl : l.isComplete = true) :
    ∃ w v, t = w ++ v ∧ l.Spells w ∧ (l.isWord = true → StopsWord v) ∧
      Cut (offset + w.length) v ls := by
  cases h with
  | layout _ hrest =>
    exact absurd (hrest.le_offset _ List.mem_cons_self) (Nat.not_succ_le_self _)
  | lexeme hw hstop hrest => exact ⟨_, _, rfl, hw, hstop, hrest⟩
  | openQuote => cases hl
  | openGroup => cases hl

theorem brokenGroup {offset groupAt : Nat} {t : Text} {c : CodeUnit} {ls : List Placed}
    (h : Cut offset t (⟨offset, .openGroup c groupAt⟩ :: ls)) :
    ∃ w v, t = w ++ ('(' : CodeUnit) :: v ∧ WordRun w ∧ groupAt = offset + w.length := by
  generalize hl : Lexeme.openGroup c groupAt = l at h
  cases h with
  | layout _ hrest =>
    exact absurd (hrest.le_offset _ List.mem_cons_self) (Nat.not_succ_le_self _)
  | lexeme hw =>
    subst hl
    cases hw
  | openQuote => cases hl
  | openGroup hrun heq =>
    cases hl
    exact ⟨_, _, heq, hrun, rfl⟩

/-- A word cannot run on into a text that starts with a mark. -/
theorem stopsWord {offset : Nat} {t : Text} {l : Placed} {ls : List Placed} {m : Mark}
    (h : Cut offset t (l :: ls)) (hl : l.lexeme = .mark m) : StopsWord t := by
  obtain ⟨gap, v, rfl, hgap, -, hcut⟩ := h.gap
  obtain ⟨offset, lexeme⟩ := l
  dsimp only at hl
  subst hl
  obtain ⟨w, rest, rfl, hw, -, -⟩ := hcut.spelled rfl
  cases hw
  intro c hc
  cases gap with
  | nil =>
    obtain rfl : m.unit = c := by simpa using hc
    exact endsWord_markUnit m
  | cons d gap =>
    obtain rfl : d = c := by simpa using hc
    exact endsWord_of_isLayout (hgap d List.mem_cons_self)

theorem relocate {offset offset' : Nat} {t : Text} {ls : List Placed} (h : Cut offset t ls)
    (f : Nat → Nat) (hf : ∀ n, f (offset + n) = offset' + n) :
    Cut offset' t (ls.map (Placed.relocate f)) := by
  induction h generalizing offset' with
  | nil => exact .nil offset'
  | layout hc _ ih =>
    refine .layout hc (ih fun n => ?_)
    rw [Nat.add_assoc, hf, Nat.add_assoc]
  | @lexeme offset l w t ls hw hstop _ ih =>
    have hoffset : f offset = offset' := hf 0
    rw [List.map_cons, Placed.relocate, hoffset, Lexeme.relocate_of_isComplete hw.isComplete]
    refine .lexeme hw hstop (ih fun n => ?_)
    rw [Nat.add_assoc, hf, Nat.add_assoc]
  | @openQuote offset quote t =>
    have hoffset : f offset = offset' := hf 0
    rw [List.map_singleton, Placed.relocate, hoffset]
    exact .openQuote quote t
  | @openGroup offset c w t rest hrun heq =>
    have hoffset : f offset = offset' := hf 0
    rw [List.map_singleton, Placed.relocate, Lexeme.relocate, hoffset, hf]
    exact .openGroup hrun heq

end Cut

/-- `Leads offset u ls v`: the text `u` is cut into the lexemes `ls` when `v` stands behind it, and so
it is when any other text takes the place of `v`, unless a word runs on into that text. -/
def Leads (offset : Nat) (u : Text) (ls : List Placed) (v : Text) : Prop :=
  ∀ (v' : Text) (rest : List Placed), (StopsWord v → StopsWord v') →
    Cut (offset + u.length) v' rest → Cut offset (u ++ v') (ls ++ rest)

theorem leads_nil (offset : Nat) (v : Text) : Leads offset [] [] v := fun _ _ _ hcut => hcut

/-- A text is cut in two, `u` with the lexemes `ls` and `v` with the others, and no layout stands
between the two cuts. -/
structure SplitsAt (offset : Nat) (u v : Text) (ls rest : List Placed) : Prop where
  leads : Leads offset u ls v
  cut : Cut (offset + u.length) v rest
  offset : ∀ l ∈ rest.head?, l.offset = offset + u.length
  ends : rest = [] → v = []

namespace SplitsAt
variable {offset : Nat} {u v : Text} {ls rest : List Placed}

theorem start {l : Placed} (h : Cut offset v (l :: rest)) (hoffset : l.offset = offset) :
    SplitsAt offset [] v [] (l :: rest) where
  leads := leads_nil offset v
  cut := h
  offset := by simp [hoffset]
  ends := nofun

theorem layout {c : CodeUnit} (hc : c.isLayout = true) (h : SplitsAt (offset + 1) u v ls rest) :
    SplitsAt offset (c :: u) v ls rest := by
  have hlength : offset + 1 + u.length = offset + (c :: u).length := by
    rw [List.length_cons]
    omega
  refine ⟨?_, hlength ▸ h.cut, hlength ▸ h.offset, h.ends⟩
  intro v' rest hstop hcut
  exact .layout hc (h.leads v' rest hstop (hlength ▸ hcut))

theorem lexeme {l : Lexeme} {w : Text} (hw : l.Spells w) (hword : l.isWord = true → StopsWord (u ++ v))
    (h : SplitsAt (offset + w.length) u v ls rest) :
    SplitsAt offset (w ++ u) v (⟨offset, l⟩ :: ls) rest := by
  have hlength : offset + w.length + u.length = offset + (w ++ u).length := by
    rw [List.length_append, Nat.add_assoc]
  refine ⟨?_, hlength ▸ h.cut, hlength ▸ h.offset, h.ends⟩
  intro v' rest hstop hcut
  rw [List.append_assoc]
  refine .lexeme hw ?_ (h.leads v' rest hstop (hlength ▸ hcut))
  intro hisWord
  cases u with
  | nil => exact hstop (hword hisWord)
  | cons d u => exact hword hisWord

end SplitsAt

/-- A text is cut in two where its first lexemes end; the layout behind them goes with them. -/
theorem Cut.split {offset : Nat} {t : Text} {ls rest : List Placed} (h : Cut offset t (ls ++ rest))
    (hls : ∀ l ∈ ls, l.lexeme.isComplete = true) :
    ∃ u v, t = u ++ v ∧ SplitsAt offset u v ls rest := by
  generalize hall : ls ++ rest = all at h
  induction h generalizing ls with
  | nil offset =>
    obtain ⟨rfl, rfl⟩ := List.append_eq_nil_iff.mp hall
    exact ⟨[], [], rfl, leads_nil offset [], .nil offset, by simp, fun _ => rfl⟩
  | layout hc _ ih =>
    obtain ⟨u, v, rfl, hsplits⟩ := ih hls hall
    exact ⟨_, v, rfl, hsplits.layout hc⟩
  | @lexeme offset l w t all hw hword hrest ih =>
    cases ls with
    | nil =>
      obtain rfl : rest = _ := hall
      exact ⟨[], w ++ t, rfl, .start (.lexeme hw hword hrest) rfl⟩
    | cons l' ls =>
      obtain ⟨rfl, rfl⟩ := List.cons.inj hall
      obtain ⟨u, v, rfl, hsplits⟩ := ih (fun l hl => hls l (List.mem_cons_of_mem _ hl)) rfl
      exact ⟨w ++ u, v, (List.append_assoc w u v).symm, hsplits.lexeme hw hword⟩
  | @openQuote offset quote t =>
    cases ls with
    | nil =>
      obtain rfl : rest = _ := hall
      exact ⟨[], _, rfl, .start (.openQuote quote t) rfl⟩
    | cons l' ls =>
      obtain ⟨rfl, -⟩ := List.cons.inj hall
      exact absurd (hls _ List.mem_cons_self) (by simp [Lexeme.isComplete])
  | @openGroup offset c w t _ hrun heq =>
    cases ls with
    | nil =>
      obtain rfl : rest = _ := hall
      exact ⟨[], _, rfl, .start (.openGroup hrun heq) rfl⟩
    | cons l' ls =>
      obtain ⟨rfl, -⟩ := List.cons.inj hall
      exact absurd (hls _ List.mem_cons_self) (by simp [Lexeme.isComplete])

end QueryLint.Payload
