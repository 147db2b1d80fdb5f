import QueryLint.Proofs.Payload.Nesting
import QueryLint.Proofs.Payload.Notes
import QueryLint.Proofs.Payload.Runs

/-!
What the notes of an accepted payload say, and that their advice is safe.

The notes on bare keys list the bare keys of the value, an object before what it holds. Each note
stands where the payload has what it complains of. Without a comma that a note complains of, the
payload has the same value and the other notes.
-/

namespace QueryLint
set_option autoImplicit false

namespace Value

mutual

/-- The bare keys of a value: every key before those of the value behind it. -/
def bareKeys : Value → List Text
  | object entries => entriesBareKeys entries
  | array items => itemsBareKeys items
  | _ => []

def itemsBareKeys : List Value → List Text
  | [] => []
  | v :: items => bareKeys v ++ itemsBareKeys items

def entriesBareKeys : List (Key × Value) → List Text
  | [] => []
  | (key, v) :: entries =>
    (if key.style = .bare then [key.text] else []) ++ bareKeys v ++ entriesBareKeys entries

end

theorem itemsBareKeys_eq (items : List Value) : itemsBareKeys items = items.flatMap bareKeys := by
  induction items with
  | nil => rfl
  | cons v items ih => simp [itemsBareKeys, ih]

theorem entriesBareKeys_eq (entries : List (Key × Value)) :
    entriesBareKeys entries = entries.flatMap fun entry =>
      (if entry.1.style = .bare then [entry.1.text] else []) ++ bareKeys entry.2 := by
  induction entries with
  | nil => rfl
  | cons entry entries ih => simp [entriesBareKeys, ih]

end Value

namespace Payload

def keyDetails (notes : List Note) : List Text :=
  notes.filterMap fun n =>
    match n.kind with
    | .unquotedKey _ => some n.kind.detail
    | .trailingSeparator _ => none

/-- What the note complains of stands at its offset: the key, or a comma with only layout between it
and the closing bracket. -/
def Note.Stands (n : Note) (t : Text) : Prop :=
  match n.kind with
  | .unquotedKey _ => n.kind.detail <+: t.drop n.offset
  | .trailingSeparator _ => ∃ gap rest, IsLayout gap ∧
      t.drop n.offset = (',' : CodeUnit) :: (gap ++ (n.kind.detail ++ rest))

/-- The same note of a payload that lacks a unit before it. -/
def Note.lowered (n : Note) : Note := ⟨n.kind, n.offset - 1⟩

def keyWord? : Lexeme → Lexeme → Option Text
  | .word w, .mark .colon => some w
  | _, _ => none

def keyWords : List Lexeme → List Text
  | a :: b :: ls => (keyWord? a b).toList ++ keyWords (b :: ls)
  | _ => []

theorem keyDetails_remarks (ls : List Placed) :
    keyDetails (remarks ls) = keyWords (ls.map Placed.lexeme) := by
  induction ls with
  | nil => rfl
  | cons a ls ih =>
    cases ls with
    | nil => rfl
    | cons b ls =>
      have hpair : keyDetails (remark? a b).toList = (keyWord? a.lexeme b.lexeme).toList := by
        obtain ⟨offset, a⟩ := a
        obtain ⟨offset', b⟩ := b
        unfold remark? keyWord?
        dsimp only
        repeat' split
        all_goals simp_all [keyDetails, NoteKind.detail]
      rw [remarks, keyDetails, List.filterMap_append]
      rw [keyDetails] at ih hpair
      rw [hpair, ih]
      rfl

theorem keyWords_mark (m : Mark) (ls : List Lexeme) : keyWords (.mark m :: ls) = keyWords ls := by
  cases ls <;> rfl

theorem keyWords_quoted (quote : Quote) (text : Text) (ls : List Lexeme) :
    keyWords (.quoted quote text :: ls) = keyWords ls := by
  cases ls <;> rfl

theorem keyWords_word {ls : List Lexeme} (w : Text) (h : ls.head? ≠ some (.mark .colon)) :
    keyWords (.word w :: ls) = keyWords ls := by
  cases ls with
  | nil => rfl
  | cons l ls =>
    have hnone : keyWord? (.word w) l = none := by
      unfold keyWord?
      split
      · exact absurd rfl h
      · rfl
    rw [keyWords, hnone]
    rfl

theorem keyWords_key (key : Key) (ls : List Lexeme) :
    keyWords (key.lexeme :: .mark .colon :: ls) =
      (if key.style = .bare then [key.text] else []) ++ keyWords ls := by
  obtain ⟨text, style⟩ := key
  cases style with
  | bare =>
    rw [Key.lexeme, keyWords, keyWords_mark]
    rfl
  | quoted quote =>
    rw [Key.lexeme, keyWords, keyWords_mark]
    rfl

theorem continued_head_ne {close : Mark} (hclose : close ≠ .colon) (trailing : Bool)
    (parts : List (List Lexeme)) (rest : List Lexeme) :
    (continued close trailing parts ++ rest).head? ≠ some (.mark .colon) := by
  cases parts with
  | nil => cases trailing <;> simp [continued, hclose]
  | cons part parts => simp [continued]

section Parts
variable {α : Type} {write : α → List Lexeme} {keys : α → List Text}

/-- What is written of `a` has the keys of `a` as its bare keys, whatever stands behind it other than a
colon. -/
def HasKeys (write : α → List Lexeme) (keys : α → List Text) (a : α) : Prop :=
  ∀ rest : List Lexeme, rest.head? ≠ some (.mark .colon) →
    keyWords (write a ++ rest) = keys a ++ keyWords rest

theorem keyWords_continued {close : Mark} (hclose : close ≠ .colon) (trailing : Bool) {as : List α}
    (has : ∀ a ∈ as, HasKeys write keys a) (rest : List Lexeme) :
    keyWords (continued close trailing (as.map write) ++ rest) = as.flatMap keys ++ keyWords rest := by
  induction as with
  | nil => cases trailing <;> simp [continued, keyWords_mark]
  | cons a as ih =>
    have htail := ih fun b hb => has b (List.mem_cons_of_mem _ hb)
    have hhead := continued_head_ne hclose trailing (as.map write) rest
    rw [List.map_cons, continued, List.cons_append, keyWords_mark, List.append_assoc,
      has a List.mem_cons_self _ hhead, htail, List.flatMap_cons, List.append_assoc]

theorem keyWords_enclosed {close : Mark} (hclose : close ≠ .colon) (trailing : Bool) {as : List α}
    (has : ∀ a ∈ as, HasKeys write keys a) (rest : List Lexeme) :
    keyWords (enclosed close trailing (as.map write) ++ rest) = as.flatMap keys ++ keyWords rest := by
  cases as with
  | nil => simp [enclosed, keyWords_mark]
  | cons a as =>
    have htail := keyWords_continued hclose trailing (fun b hb => has b (List.mem_cons_of_mem _ hb)) rest
    have hhead := continued_head_ne hclose trailing (as.map write) rest
    rw [List.map_cons, enclosed, List.append_assoc, has a List.mem_cons_self _ hhead, htail,
      List.flatMap_cons, List.append_assoc]

end Parts

theorem WordValue.bareKeys {w : Text} {v : Value} (h : WordValue w v) : v.bareKeys = [] := by
  cases h <;> rfl

theorem hasKeys_tokens {d : Derivation} (h : d.WellFormed) :
    HasKeys Derivation.tokens (fun d => d.value.bareKeys) d := by
  induction h with
  | @object entries trailing _ _ _ ih =>
    intro rest hrest
    have hentries : ∀ entry ∈ entries, HasKeys entryTokens
        (fun entry => (if entry.1.style = .bare then [entry.1.text] else []) ++ entry.2.value.bareKeys)
        entry := by
      intro entry hentry rest hrest
      rw [entryTokens, List.cons_append, List.cons_append, keyWords_key, ih entry hentry rest hrest,
        List.append_assoc]
    have hclose : Mark.closeBrace ≠ .colon := by decide
    have hkeys := keyWords_enclosed hclose trailing hentries rest
    rw [Derivation.tokens, Derivation.entriesTokens_eq, List.cons_append, keyWords_mark]
    refine hkeys.trans ?_
    dsimp only
    rw [Derivation.value, Derivation.entriesValue_eq, Value.bareKeys, Value.entriesBareKeys_eq,
      List.flatMap_map]
  | @array items trailing _ _ ih =>
    intro rest hrest
    have hclose : Mark.closeSquare ≠ .colon := by decide
    have hkeys := keyWords_enclosed hclose trailing ih rest
    rw [Derivation.tokens, Derivation.itemsTokens_eq, List.cons_append, keyWords_mark, hkeys]
    dsimp only
    rw [Derivation.value, Derivation.itemsValue_eq, Value.bareKeys, Value.itemsBareKeys_eq,
      List.flatMap_map]
  | quoted quote text =>
    intro rest _
    rw [Derivation.tokens, List.singleton_append, keyWords_quoted]
    rfl
  | @word w meaning hw =>
    intro rest hrest
    rw [Derivation.tokens, List.singleton_append, keyWords_word w hrest]
    dsimp only
    rw [Derivation.value, hw.bareKeys]
    rfl

theorem keyDetails_notes {t : Text} {v : Value} {notes : List Note} (h : parse t = .ok ⟨v, notes⟩) :
    keyDetails notes = v.bareKeys := by
  obtain ⟨d, ⟨hd, hspelling⟩, rfl⟩ := exists_derives_of_parse h
  have hlexemes := lexemes_of_spelling hspelling (apart_tokens hd) 0
  have hnotes : notes = remarks (lexemes 0 t) := notes_eq_remarks h
  have hkeys := hasKeys_tokens hd [] (by simp)
  rw [List.append_nil] at hkeys
  rw [hnotes, keyDetails_remarks, hlexemes, hkeys]
  exact List.append_nil _

theorem remark?_offset {a b : Placed} {n : Note} (h : remark? a b = some n) : n.offset = a.offset := by
  unfold remark? at h
  split at h
  · cases h
    rfl
  · cases h
    rfl
  · cases h
    rfl
  · cases h

theorem remarks_sublist (ls : List Placed) :
    ((remarks ls).map Note.offset).Sublist (ls.map Placed.offset) := by
  induction ls with
  | nil => exact .slnil
  | cons a ls ih =>
    cases ls with
    | nil => exact List.nil_sublist _
    | cons b ls =>
      rw [remarks, List.map_append, List.map_cons]
      cases hremark : remark? a b with
      | none => exact ih.cons _
      | some n =>
        have hoffset := remark?_offset hremark
        rw [Option.toList_some, List.map_singleton, List.singleton_append, hoffset]
        exact ih.cons_cons _

theorem remarks_increasing {offset : Nat} {t : Text} {ls : List Placed} (h : Cut offset t ls) :
    (remarks ls).Pairwise fun m n => m.offset < n.offset := by
  have hoffsets := List.pairwise_map.mpr h.increasing
  exact List.pairwise_map.mp (hoffsets.sublist (remarks_sublist ls))

theorem mem_remarks {ls : List Placed} {n : Note} (h : n ∈ remarks ls) :
    ∃ before a b behind, ls = before ++ a :: b :: behind ∧ remark? a b = some n := by
  induction ls with
  | nil => cases h
  | cons a ls ih =>
    cases ls with
    | nil => cases h
    | cons b ls =>
      rw [remarks, List.mem_append, Option.mem_toList] at h
      rcases h with h | h
      · exact ⟨[], a, b, ls, rfl, h⟩
      · obtain ⟨before, a', b', behind, hls, hremark⟩ := ih h
        exact ⟨a :: before, a', b', behind, by rw [hls]; rfl, hremark⟩

theorem remark?_unquotedKey {a b : Placed} {key : Text} {offset : Nat}
    (h : remark? a b = some ⟨.unquotedKey key, offset⟩) : a = ⟨offset, .word key⟩ := by
  obtain ⟨offset', lexeme⟩ := a
  unfold remark? at h
  split at h
  · rename_i hword _
    dsimp only at hword
    cases h
    rw [hword]
  · cases h
  · cases h
  · cases h

theorem remark?_trailingSeparator {a b : Placed} {bracket : Bracket} {offset : Nat}
    (h : remark? a b = some ⟨.trailingSeparator bracket, offset⟩) :
    a = ⟨offset, .mark .comma⟩ ∧ b.lexeme = .mark (Mark.closing bracket) := by
  obtain ⟨offset', lexeme⟩ := a
  unfold remark? at h
  split at h
  · cases h
  · rename_i hcomma hclose
    dsimp only at hcomma
    cases h
    exact ⟨by rw [hcomma], hclose⟩
  · rename_i hcomma hclose
    dsimp only at hcomma
    cases h
    exact ⟨by rw [hcomma], hclose⟩
  · cases h

/-- The reader stands somewhere behind every part of the lexemes of an accepted payload. -/
theorem exists_reaches {t : Text} {v : Value} {notes : List Note} {before behind : List Placed}
    (h : parse t = .ok ⟨v, notes⟩) (hlexemes : lexemes 0 t = before ++ behind) :
    ∃ s first last, Reaches .start before s first ∧ Reaches s behind ⟨[], .separator v⟩ last ∧
      notes = first ++ last := by
  have hreaches := (run_eq_ok_iff _ _ _ _ _).mp h
  rw [hlexemes] at hreaches
  exact hreaches.append_inv

theorem stands_unquotedKey {t : Text} {v : Value} {notes : List Note} {key : Text} {offset : Nat}
    (h : parse t = .ok ⟨v, notes⟩) (hnote : ⟨.unquotedKey key, offset⟩ ∈ notes) :
    key <+: t.drop offset := by
  rw [show notes = remarks (lexemes 0 t) from notes_eq_remarks h] at hnote
  obtain ⟨before, a, b, behind, hlexemes, hremark⟩ := mem_remarks hnote
  obtain rfl := remark?_unquotedKey hremark
  obtain ⟨s, first, last, hbefore, -, -⟩ := exists_reaches h hlexemes
  obtain ⟨u, rest, rfl, -, hcut, hoffset, -⟩ := exists_leads hlexemes hbefore
  obtain rfl : offset = u.length := hoffset _ rfl
  obtain ⟨w, behind, rfl, hw, -, -⟩ := hcut.spelled rfl
  cases hw
  rw [List.drop_left]
  exact List.prefix_append _ _

/-- A payload cut at a comma that stands before a closing bracket. -/
structure TrailingComma (t : Text) (bracket : Bracket) (before : List Placed) (b : Placed)
    (behind : List Placed) (u v : Text) : Prop where
  text : t = u ++ (',' : CodeUnit) :: v
  lexemes : lexemes 0 t = before ++ ⟨u.length, .mark .comma⟩ :: b :: behind
  closes : b.lexeme = .mark (Mark.closing bracket)
  leads : Leads 0 u before ((',' : CodeUnit) :: v)
  cut : Cut (u.length + 1) v (b :: behind)

theorem exists_trailingComma {t : Text} {v : Value} {notes : List Note} {bracket : Bracket} {offset : Nat}
    (h : parse t = .ok ⟨v, notes⟩) (hnote : ⟨.trailingSeparator bracket, offset⟩ ∈ notes) :
    ∃ before b behind u v, TrailingComma t bracket before b behind u v ∧ offset = u.length := by
  rw [show notes = remarks (lexemes 0 t) from notes_eq_remarks h] at hnote
  obtain ⟨before, a, b, behind, hlexemes, hremark⟩ := mem_remarks hnote
  obtain ⟨rfl, hcloses⟩ := remark?_trailingSeparator hremark
  obtain ⟨s, first, last, hbefore, -, -⟩ := exists_reaches h hlexemes
  obtain ⟨u, rest, rfl, hleads, hcut, hoffset, -⟩ := exists_leads hlexemes hbefore
  obtain rfl : offset = u.length := hoffset _ rfl
  obtain ⟨w, rest, rfl, hw, -, hcut⟩ := hcut.spelled rfl
  cases hw
  exact ⟨before, b, behind, u, rest, ⟨rfl, hlexemes, hcloses, hleads, hcut⟩, rfl⟩

theorem stands_trailingSeparator {t : Text} {v : Value} {notes : List Note} {bracket : Bracket}
    {offset : Nat} (h : parse t = .ok ⟨v, notes⟩)
    (hnote : ⟨.trailingSeparator bracket, offset⟩ ∈ notes) :
    ∃ gap rest, IsLayout gap ∧ t.drop offset = (',' : CodeUnit) :: (gap ++ ([bracket.closing] ++ rest)) := by
  obtain ⟨before, ⟨place, lexeme⟩, behind, u, rest, ⟨rfl, -, hcloses, -, hcut⟩, rfl⟩ :=
    exists_trailingComma h hnote
  obtain ⟨gap, rest, rfl, hgap, -, hcut⟩ := hcut.gap
  dsimp only at hcloses hcut
  subst hcloses
  obtain ⟨w, rest, rfl, hw, -, -⟩ := hcut.spelled rfl
  cases hw
  refine ⟨gap, rest, hgap, ?_⟩
  rw [List.drop_left, Mark.unit_closing]

theorem stands_notes {t : Text} {v : Value} {notes : List Note} (h : parse t = .ok ⟨v, notes⟩) :
    ∀ n ∈ notes, n.Stands t := by
  rintro ⟨kind, offset⟩ hn
  cases kind with
  | unquotedKey key => exact stands_unquotedKey h hn
  | trailingSeparator bracket => exact stands_trailingSeparator h hn

theorem step_closing {s next last : State} {a b : Placed} {note note' : Option Note}
    {bracket : Bracket} (ha : a.lexeme = .mark .comma) (hb : b.lexeme = .mark (Mark.closing bracket))
    (hcomma : step s a = .ok (next, note)) (hclosing : step next b = .ok (last, note')) :
    note = none ∧ note' = some ⟨.trailingSeparator bracket, a.offset⟩ ∧ step s b = .ok (last, none) := by
  obtain ⟨stack, expecting⟩ := s
  obtain ⟨place, lexeme⟩ := a
  obtain ⟨place', lexeme'⟩ := b
  dsimp only at ha hb
  subst ha hb
  cases expecting with
  | value => cases hcomma
  | item => cases hcomma
  | key => cases hcomma
  | colon => cases hcomma
  | separator v =>
    cases stack with
    | nil => cases hcomma
    | cons frame stack =>
      cases frame with
      | object opened entries key =>
        cases hcomma
        cases bracket with
        | brace =>
          cases hclosing
          exact ⟨rfl, rfl, rfl⟩
        | square => cases hclosing
      | array opened items =>
        cases hcomma
        cases bracket with
        | brace => cases hclosing
        | square =>
          cases hclosing
          exact ⟨rfl, rfl, rfl⟩

/-- Taken without the comma, the lexemes leave the other notes. -/
theorem reaches_without_comma {v : Value} {notes : List Note} {before behind : List Placed}
    {a b : Placed} {bracket : Bracket} (ha : a.lexeme = .mark .comma)
    (hb : b.lexeme = .mark (Mark.closing bracket))
    (h : Reaches .start (before ++ a :: b :: behind) ⟨[], .separator v⟩ notes) :
    ∃ first last, notes = first ++ ⟨.trailingSeparator bracket, a.offset⟩ :: last ∧
      Reaches .start (before ++ b :: behind) ⟨[], .separator v⟩ (first ++ last) := by
  obtain ⟨s, first, rest, hbefore, hrest, rfl⟩ := h.append_inv
  cases hrest with
  | @cons _ next _ _ _ note notes hcomma hrest =>
    cases hrest with
    | @cons _ last' _ _ _ note' notes hclosing hrest =>
      obtain ⟨rfl, rfl, hstep⟩ := step_closing ha hb hcomma hclosing
      exact ⟨first, notes, by simp, hbefore.trans (.cons hstep hrest)⟩

def lower (o n : Nat) : Nat := if n ≤ o then n else n - 1

theorem map_relocate_lower {ls : List Placed} {o : Nat}
    (hls : ∀ l ∈ ls, l.lexeme.isComplete = true ∧ l.offset < o) :
    ls.map (Placed.relocate (lower o)) = ls := by
  rw [List.map_congr_left (g := id), List.map_id]
  intro l hl
  obtain ⟨hcomplete, hoffset⟩ := hls l hl
  rw [Placed.relocate, Lexeme.relocate_of_isComplete hcomplete, lower, if_pos (by omega)]
  rfl

/-- What stands behind the comma moves one unit to the front. -/
theorem TrailingComma.lexemes_erased {t : Text} {bracket : Bracket} {before behind : List Placed}
    {b : Placed} {u v : Text} (h : TrailingComma t bracket before b behind u v)
    (hcomplete : ∀ l ∈ before ++ b :: behind, l.lexeme.isComplete = true) :
    Payload.lexemes 0 (u ++ v) = (before ++ b :: behind).map (Placed.relocate (lower u.length)) := by
  have hcut : Cut u.length v ((b :: behind).map (Placed.relocate (lower u.length))) := by
    refine h.cut.relocate _ fun n => ?_
    rw [lower, if_neg (by omega)]
    omega
  have hstop : StopsWord v := h.cut.stopsWord h.closes
  have hincreasing := (Cut.of_lexemes 0 t).increasing
  rw [h.lexemes, List.pairwise_append] at hincreasing
  have hbefore : before.map (Placed.relocate (lower u.length)) = before := by
    apply map_relocate_lower
    intro l hl
    exact ⟨hcomplete l (List.mem_append_left _ hl), hincreasing.2.2 l hl _ List.mem_cons_self⟩
  have hmoved : ∀ l ∈ (b :: behind).map (Placed.relocate (lower u.length)),
      l.lexeme.isComplete = true := by
    intro l hl
    obtain ⟨l', hl', rfl⟩ := List.mem_map.mp hl
    have hcomplete' := hcomplete l' (List.mem_append_right _ hl')
    rwa [Placed.relocate, Lexeme.relocate_of_isComplete hcomplete']
  rw [List.map_append, hbefore]
  exact lexemes_leads h.leads (fun l hl => hcomplete l (List.mem_append_left _ hl)) (fun _ => hstop)
    hcut hmoved

theorem map_relocate_notes {first last : List Note} {n : Note}
    (h : (first ++ n :: last).Pairwise fun m n => m.offset < n.offset) :
    (first ++ last).map (Note.relocate (lower n.offset)) = first ++ last.map Note.lowered := by
  obtain ⟨-, hlast, hfirst⟩ := List.pairwise_append.mp h
  rw [List.map_append, List.map_congr_left (l := first) (g := id), List.map_id,
    List.map_congr_left (l := last) (g := Note.lowered)]
  · intro m hm
    have hbehind := (List.pairwise_cons.mp hlast).1 m hm
    rw [Note.relocate, lower, if_neg (by omega)]
    rfl
  · intro m hm
    have hbefore := hfirst m hm n List.mem_cons_self
    rw [Note.relocate, lower, if_pos (by omega)]
    rfl

/-- Without a comma that a note complains of, the payload has the same value, and the other notes
stay, with one unit less in front of those behind it. -/
theorem parse_erased {t : Text} {v : Value} {before behind : List Note} {bracket : Bracket} {o : Nat}
    (h : parse t = .ok ⟨v, before ++ ⟨.trailingSeparator bracket, o⟩ :: behind⟩) :
    parse (t.eraseIdx o) = .ok ⟨v, before ++ behind.map Note.lowered⟩ := by
  obtain ⟨ls, b, ms, u, w, hcomma, rfl⟩ :=
    exists_trailingComma h (List.mem_append_right _ List.mem_cons_self)
  have hincreasing := remarks_increasing (Cut.of_lexemes 0 t)
  rw [← notes_eq_remarks h] at hincreasing
  have hreaches := (run_eq_ok_iff _ _ _ _ _).mp h
  rw [hcomma.lexemes] at hreaches
  obtain ⟨first, last, hnotes, hothers⟩ := reaches_without_comma rfl hcomma.closes hreaches
  -- No other note has this offset, so the notes are cut at this note in one way only.
  obtain ⟨rfl, -, rfl⟩ : before = first ∧ _ ∧ behind = last := by
    obtain ⟨-, hbehind, hbefore⟩ := List.pairwise_append.mp hincreasing
    refine (List.append_cons_inj_of_notMem ?_ ?_).mp hnotes
    · intro hmem
      exact Nat.lt_irrefl _ (hbefore _ hmem _ List.mem_cons_self)
    · intro hmem
      exact Nat.lt_irrefl _ ((List.pairwise_cons.mp hbehind).1 _ hmem)
  have hmoved := hothers.relocate (lower u.length)
  rw [map_relocate_notes hincreasing] at hmoved
  have herase : t.eraseIdx u.length = u ++ w := by
    rw [hcomma.text, List.eraseIdx_append_of_length_le (Nat.le_refl _), Nat.sub_self,
      List.eraseIdx_cons_zero]
  rw [herase, parse, hcomma.lexemes_erased hothers.isComplete]
  exact (run_eq_ok_iff _ _ _ _ _).mpr hmoved

/-- `p.Noted t`: the notes of an accepted payload are about its bare keys and trailing commas, in the
order of their offsets, and each comma can be taken out. -/
structure Parsed.Noted (p : Parsed) (t : Text) : Prop where
  keys : keyDetails p.notes = p.value.bareKeys
  increasing : p.notes.Pairwise fun m n => m.offset < n.offset
  stands : ∀ n ∈ p.notes, n.Stands t
  erased : ∀ before bracket o behind, p.notes = before ++ ⟨.trailingSeparator bracket, o⟩ :: behind →
    parse (t.eraseIdx o) = .ok ⟨p.value, before ++ behind.map Note.lowered⟩

theorem parse_noted {t : Text} {p : Parsed} (h : parse t = .ok p) : p.Noted t := by
  obtain ⟨v, notes⟩ := p
  constructor
  · exact keyDetails_notes h
  · have hincreasing := remarks_increasing (Cut.of_lexemes 0 t)
    rwa [← notes_eq_remarks h] at hincreasing
  · exact stands_notes h
  · rintro before bracket o behind hnotes
    dsimp only at hnotes
    subst hnotes
    exact parse_erased h

/-- A payload with a bare key and two commas too many. -/
theorem parse_noted_commas :
    parse "\x7ba: ['x',] ,\x7d" = .ok ⟨.object [(⟨"a", .bare⟩, .array [.string "x" .single])],
        [⟨.unquotedKey "a", 1⟩, ⟨.trailingSeparator .square, 8⟩, ⟨.trailingSeparator .brace, 11⟩]⟩ ∧
      Parsed.Noted ⟨.object [(⟨"a", .bare⟩, .array [.string "x" .single])],
        [⟨.unquotedKey "a", 1⟩, ⟨.trailingSeparator .square, 8⟩, ⟨.trailingSeparator .brace, 11⟩]⟩
        "\x7ba: ['x',] ,\x7d" := by
  have hlexemes : lexemes 0 "\x7ba: ['x',] ,\x7d" =
      [⟨0, .mark .openBrace⟩, ⟨1, .word "a"⟩, ⟨2, .mark .colon⟩, ⟨4, .mark .openSquare⟩,
        ⟨5, .quoted .single "x"⟩, ⟨8, .mark .comma⟩, ⟨9, .mark .closeSquare⟩, ⟨11, .mark .comma⟩,
        ⟨12, .mark .closeBrace⟩] := by decide +kernel
  have hparse : parse "\x7ba: ['x',] ,\x7d" =
      .ok ⟨.object [(⟨"a", .bare⟩, .array [.string "x" .single])],
        [⟨.unquotedKey "a", 1⟩, ⟨.trailingSeparator .square, 8⟩, ⟨.trailingSeparator .brace, 11⟩]⟩ := by
    rw [parse, hlexemes]
    rfl
  exact ⟨hparse, parse_noted hparse⟩

end Payload
end QueryLint
