import Mathlib.Data.List.Chain
import QueryLint.Proofs.Payload.Grammar

/-!
Cutting a payload into lexemes, against the lexical part of the grammar.

Every text that is cut completely spells its lexemes. Conversely, the lexemes that a text spells are
the ones it is cut into, provided that no two words are neighbours: two words without layout between
them run together into one.
-/

namespace QueryLint
set_option autoImplicit false

namespace Quote

theorem isQuote_unit (q : Quote) : CodeUnit.isQuote q.unit = true := by cases q <;> decide

theorem quoteOf_unit (q : Quote) : Payload.quoteOf q.unit = q := by cases q <;> decide

theorem unit_quoteOf {c : CodeUnit} (h : c.isQuote = true) : (Payload.quoteOf c).unit = c := by
  simp only [CodeUnit.isQuote, Bool.or_eq_true, decide_eq_true_eq] at h
  rcases h with rfl | rfl <;> decide

end Quote

namespace Payload

namespace Mark

theorem ofUnit?_unit (m : Mark) : ofUnit? m.unit = some m := by cases m <;> decide

theorem unit_of_ofUnit? {c : CodeUnit} {m : Mark} (h : ofUnit? c = some m) : m.unit = c := by
  unfold ofUnit? at h
  repeat' split at h
  all_goals simp_all
  all_goals (subst h; rfl)

theorem ofUnit?_isSome_iff (c : CodeUnit) : (ofUnit? c).isSome = true ↔
    c = '\x7b' ∨ c = '\x7d' ∨ c = '[' ∨ c = ']' ∨ c = ',' ∨ c = ':' := by
  unfold ofUnit?
  repeat' split
  all_goals simp_all

end Mark

theorem mem_wordStops_iff (c : CodeUnit) : c ∈ wordStops ↔ c = ',' ∨ c = ':' ∨ c = '\x7b' ∨
    c = '\x7d' ∨ c = '[' ∨ c = ']' ∨ c = '\'' ∨ c = '"' ∨ c = '(' := by
  rw [show wordStops = [CodeUnit.ofChar ',', CodeUnit.ofChar ':', CodeUnit.ofChar '\x7b',
    CodeUnit.ofChar '\x7d', CodeUnit.ofChar '[', CodeUnit.ofChar ']', CodeUnit.ofChar '\'',
    CodeUnit.ofChar '"', CodeUnit.ofChar '('] from rfl]
  simp only [List.mem_cons, List.not_mem_nil, or_false]

theorem isWordUnit_iff (c : CodeUnit) : IsWordUnit c ↔ endsWord c = false ∧ c ≠ '(' := by
  have hm := Mark.ofUnit?_isSome_iff c
  unfold IsWordUnit endsWord CodeUnit.isQuote
  rw [mem_wordStops_iff]
  cases h : (Mark.ofUnit? c).isSome <;> grind

theorem endsWord_of_isLayout {c : CodeUnit} (h : c.isLayout = true) : endsWord c = true := by
  simp [endsWord, h]

theorem endsWord_markUnit (m : Mark) : endsWord m.unit = true := by cases m <;> decide

theorem endsWord_quoteUnit (q : Quote) : endsWord q.unit = true := by cases q <;> decide

theorem groupBody_balanced {s : Text} (hs : Balanced s) (depth : Nat) (u : Text) :
    groupBody depth (s ++ u) = (groupBody depth u).map (s ++ ·) := by
  induction hs generalizing depth u with
  | nil => simp
  | @unit c t hn ho hc _ ih => simp [groupBody, hn, ho, hc, ih, Function.comp_def]
  | @group s t _ _ ihs iht =>
    have hopen : (CodeUnit.ofChar '(') ≠ CodeUnit.ofChar '\n' := by decide
    have hclose : (CodeUnit.ofChar ')') ≠ CodeUnit.ofChar '\n' := by decide
    have hdiff : (CodeUnit.ofChar ')') ≠ CodeUnit.ofChar '(' := by decide
    simp [groupBody, hopen, hclose, hdiff, ihs, iht, Function.comp_def]

theorem groupBody_closed {s : Text} (hs : Balanced s) (u : Text) :
    groupBody 0 (s ++ (')' : CodeUnit) :: u) = some (s ++ [(')' : CodeUnit)]) := by
  have hclose : (CodeUnit.ofChar ')') ≠ CodeUnit.ofChar '\n' := by decide
  have hdiff : (CodeUnit.ofChar ')') ≠ CodeUnit.ofChar '(' := by decide
  simp [groupBody_balanced hs, groupBody, hclose, hdiff]

/-- `ClosedAt depth t`: balanced texts, each with a closing parenthesis behind it, one more of them
than `depth`. -/
inductive ClosedAt : Nat → Text → Prop where
  | last {s : Text} : Balanced s → ClosedAt 0 (s ++ [(')' : CodeUnit)])
  | cons {depth : Nat} {s t : Text} : Balanced s → ClosedAt depth t →
      ClosedAt (depth + 1) (s ++ (')' : CodeUnit) :: t)

namespace ClosedAt
variable {depth : Nat} {t : Text}

theorem unit {c : CodeUnit} (hn : c ≠ '\n') (ho : c ≠ '(') (hc : c ≠ ')') (h : ClosedAt depth t) :
    ClosedAt depth (c :: t) := by
  cases h with
  | last hs => exact .last (.unit hn ho hc hs)
  | cons hs ht => exact .cons (.unit hn ho hc hs) ht

/-- The group that is opened is closed by the first of the parentheses. -/
theorem opening (h : ClosedAt (depth + 1) t) : ClosedAt depth (('(' : CodeUnit) :: t) := by
  cases h with
  | @cons _ s _ hs ht =>
    cases ht with
    | @last r hr =>
      have hgroup := ClosedAt.last (.group hs hr)
      simpa using hgroup
    | @cons _ r _ hr ht =>
      have hgroup := ClosedAt.cons (.group hs hr) ht
      simpa using hgroup

theorem closing (h : ClosedAt depth t) : ClosedAt (depth + 1) ((')' : CodeUnit) :: t) :=
  .cons .nil h

end ClosedAt

/-- What is read of a group closes the parentheses that are open, and the group itself. -/
theorem closedAt_of_groupBody {depth : Nat} {t group : Text} (h : groupBody depth t = some group) :
    ClosedAt depth group ∧ ∃ u, t = group ++ u := by
  fun_induction groupBody depth t generalizing group with
  | case1 => cases h
  | case2 => cases h
  | case3 depth rest _ ih =>
    obtain ⟨g, hg, rfl⟩ := Option.map_eq_some_iff.1 h
    obtain ⟨hclosed, u, rfl⟩ := ih hg
    exact ⟨hclosed.opening, u, rfl⟩
  | case4 rest =>
    cases h
    exact ⟨.last .nil, rest, rfl⟩
  | case5 rest depth _ _ ih =>
    obtain ⟨g, hg, rfl⟩ := Option.map_eq_some_iff.1 h
    obtain ⟨hclosed, u, rfl⟩ := ih hg
    exact ⟨hclosed.closing, u, rfl⟩
  | case6 depth c rest hn ho hc ih =>
    obtain ⟨g, hg, rfl⟩ := Option.map_eq_some_iff.1 h
    obtain ⟨hclosed, u, rfl⟩ := ih hg
    exact ⟨hclosed.unit hn ho hc, u, rfl⟩

theorem balanced_of_groupBody {t group : Text} (h : groupBody 0 t = some group) :
    ∃ s u, Balanced s ∧ group = s ++ [(')' : CodeUnit)] ∧ t = group ++ u := by
  obtain ⟨hclosed, u, ht⟩ := closedAt_of_groupBody h
  cases hclosed with
  | @last s hs => exact ⟨s, u, hs, rfl, ht⟩

def StopsWord (u : Text) : Prop := ∀ c ∈ u.head?, endsWord c = true

theorem wordBody_run {w u : Text} (hw : WordRun w) (hu : StopsWord u) : wordBody (w ++ u) = .ok w := by
  induction hw with
  | nil =>
    cases u with
    | nil => simp [wordBody]
    | cons c u =>
      have hc : endsWord c = true := hu c rfl
      simp [wordBody, hc]
  | @unit c t hc _ ih =>
    obtain ⟨hend, hopen⟩ := (isWordUnit_iff c).mp hc
    rw [List.cons_append, wordBody]
    simp [hend, hopen, ih]
  | @group s t hs _ ih =>
    have hend : endsWord (CodeUnit.ofChar '(') = false := by decide
    have hgroup := groupBody_closed hs (t ++ u)
    have hdrop : (s ++ (')' : CodeUnit) :: (t ++ u)).drop (s ++ [(')' : CodeUnit)]).length = t ++ u := by
      rw [show s ++ (')' : CodeUnit) :: (t ++ u) = (s ++ [(')' : CodeUnit)]) ++ (t ++ u) by simp]
      exact List.drop_left
    rw [List.cons_append, List.append_assoc, List.cons_append, wordBody]
    simp only [hend, hgroup, hdrop, ih, Bool.false_eq_true, if_false, if_true]
    simp

theorem stopsWord_nil : StopsWord [] := by simp [StopsWord]

theorem wordBody_ok {t w : Text} (h : wordBody t = .ok w) :
    ∃ u, t = w ++ u ∧ WordRun w ∧ StopsWord u := by
  fun_induction wordBody t generalizing w with
  | case1 =>
    cases h
    exact ⟨[], rfl, .nil, stopsWord_nil⟩
  | case2 c rest hend =>
    cases h
    refine ⟨c :: rest, rfl, .nil, ?_⟩
    intro d hd
    obtain rfl : c = d := by simpa using hd
    exact hend
  | case3 => cases h
  | case4 rest group hgroup word hword hend ih =>
    cases h
    obtain ⟨s, v, hs, rfl, rfl⟩ := balanced_of_groupBody hgroup
    obtain ⟨u, hu, hrun, hstop⟩ := ih hword
    rw [List.drop_left] at hu
    subst hu
    refine ⟨u, by simp, ?_, hstop⟩
    simpa using WordRun.group hs hrun
  | case5 => cases h
  | case6 c rest hend hopen word hword ih =>
    cases h
    obtain ⟨u, rfl, hrun, hstop⟩ := ih hword
    exact ⟨u, rfl, .unit ((isWordUnit_iff c).mpr ⟨by simpa using hend, hopen⟩) hrun, hstop⟩
  | case7 => cases h

/-- The group that is never closed stands behind a word, or behind nothing. -/
theorem wordBody_error {t : Text} {n : Nat} (h : wordBody t = .error n) :
    ∃ w u, t = w ++ ('(' : CodeUnit) :: u ∧ WordRun w ∧ w.length = n := by
  fun_induction wordBody t generalizing n with
  | case1 => cases h
  | case2 => cases h
  | case3 rest =>
    cases h
    exact ⟨[], rest, rfl, .nil, rfl⟩
  | case4 => cases h
  | case5 rest group hgroup m hword hend ih =>
    cases h
    obtain ⟨s, v, hs, rfl, rfl⟩ := balanced_of_groupBody hgroup
    obtain ⟨w, u, hu, hrun, rfl⟩ := ih hword
    rw [List.drop_left] at hu
    subst hu
    exact ⟨'(' :: (s ++ (')' : CodeUnit) :: w), u, by simp, .group hs hrun, by simp; omega⟩
  | case6 => cases h
  | case7 c rest hend hopen m hword ih =>
    cases h
    obtain ⟨w, u, rfl, hrun, rfl⟩ := ih hword
    exact ⟨c :: w, u, rfl, .unit ((isWordUnit_iff c).mpr ⟨by simpa using hend, hopen⟩) hrun, rfl⟩

theorem wordRun_of_wordBody {t w : Text} (h : wordBody t = .ok w) : WordRun w ∧ ∃ u, t = w ++ u := by
  obtain ⟨u, hu, hrun, -⟩ := wordBody_ok h
  exact ⟨hrun, u, hu⟩

theorem wordBody_ne_nil {c : CodeUnit} {t : Text} (h : endsWord c = false) :
    wordBody (c :: t) ≠ .ok [] := by
  rw [wordBody]
  simp only [h, Bool.false_eq_true, if_false]
  repeat' split
  all_goals simp

theorem quotedBody_run {q : Quote} {w t : Text} (h : QuotedRun q.unit w t) (u : Text) :
    quotedBody q.unit (w ++ q.unit :: u) = some (t, w.length + 1) := by
  have hline : q.unit ≠ CodeUnit.ofChar '\n' := by cases q <;> decide
  have hslash : q.unit ≠ CodeUnit.ofChar '\\' := by cases q <;> decide
  have hback : CodeUnit.ofChar '\\' ≠ CodeUnit.ofChar '\n' := by decide
  induction h with
  | nil =>
    rw [List.nil_append, quotedBody.eq_def]
    simp [hline]
  | plain hn hs hq _ ih =>
    rw [List.cons_append, quotedBody.eq_def]
    simp [hn, hs, hq, ih]
  | lineFeed _ ih => simp [quotedBody, hslash.symm, hback, ih, unescape]; rfl
  | carriageReturn _ ih => simp [quotedBody, hslash.symm, hback, ih, unescape]; decide
  | tab _ ih => simp [quotedBody, hslash.symm, hback, ih, unescape]; decide
  | other hn hr ht _ ih => simp [quotedBody, hslash.symm, hback, ih, unescape, hn, hr, ht]

theorem quotedRun_escape {quote : CodeUnit} {w t : Text} (d : CodeUnit) (h : QuotedRun quote w t) :
    QuotedRun quote ('\\' :: d :: w) (unescape d :: t) := by
  unfold unescape
  split
  · subst d; exact .lineFeed h
  · split
    · subst d; exact .carriageReturn h
    · split
      · subst d; exact .tab h
      · exact .other ‹_› ‹_› ‹_› h

theorem quotedRun_of_quotedBody {quote : CodeUnit} {t text : Text} {n : Nat}
    (h : quotedBody quote t = some (text, n)) :
    ∃ w u, QuotedRun quote w text ∧ t = w ++ quote :: u ∧ n = w.length + 1 := by
  fun_induction quotedBody quote t generalizing text n with
  | case1 => simp at h
  | case2 => simp at h
  | case3 rest hn =>
    cases h
    exact ⟨[], rest, .nil, rfl, rfl⟩
  | case4 => simp at h
  | case5 d rest hn hq ih =>
    simp only [Option.map_eq_some_iff, Prod.mk.injEq, Prod.exists] at h
    obtain ⟨text, n, hbody, rfl, rfl⟩ := h
    obtain ⟨w, u, hw, rfl, rfl⟩ := ih hbody
    exact ⟨_, u, quotedRun_escape d hw, rfl, by simp⟩
  | case6 c rest hn hq hs ih =>
    simp only [Option.map_eq_some_iff, Prod.mk.injEq, Prod.exists] at h
    obtain ⟨text, n, hbody, rfl, rfl⟩ := h
    obtain ⟨w, u, hw, rfl, rfl⟩ := ih hbody
    exact ⟨_, u, .plain hn hs hq hw, rfl, by simp⟩

namespace Lexeme

def isWord : Lexeme → Bool
  | word _ => true
  | _ => false

def isComplete : Lexeme → Bool
  | mark _ => true
  | quoted _ _ => true
  | word _ => true
  | openQuote _ => false
  | openGroup _ _ => false

end Lexeme

def Apart (ls : List Lexeme) : Prop := ls.IsChain fun a b => ¬ (a.isWord = true ∧ b.isWord = true)

theorem head_endsWord {c : CodeUnit} {w : Text} (h : WordRun (c :: w)) : endsWord c = false := by
  cases h with
  | unit hc => exact ((isWordUnit_iff c).mp hc).1
  | group => decide

theorem lexemes_layout {gap : Text} (h : IsLayout gap) (offset : Nat) (t : Text) :
    lexemes offset (gap ++ t) = lexemes (offset + gap.length) t := by
  induction gap generalizing offset with
  | nil => rfl
  | cons c gap ih =>
    have hc : CodeUnit.isLayout c = true := h c List.mem_cons_self
    rw [List.cons_append, lexemes]
    simp only [hc, if_true]
    rw [ih (fun d hd => h d (List.mem_cons_of_mem c hd)), List.length_cons]
    congr 1
    omega

theorem lexemes_mark (m : Mark) (offset : Nat) (t : Text) :
    lexemes offset (m.unit :: t) = ⟨offset, .mark m⟩ :: lexemes (offset + 1) t := by
  have hl : CodeUnit.isLayout m.unit = false := by cases m <;> decide
  rw [lexemes]
  simp [hl, Mark.ofUnit?_unit]

theorem lexemes_quoted {q : Quote} {w text : Text} (h : QuotedRun q.unit w text) (offset : Nat)
    (t : Text) : lexemes offset (q.unit :: (w ++ [q.unit]) ++ t) =
      ⟨offset, .quoted q text⟩ :: lexemes (offset + 1 + (w.length + 1)) t := by
  have hl : CodeUnit.isLayout q.unit = false := by cases q <;> decide
  have hm : Mark.ofUnit? q.unit = none := by cases q <;> decide
  have hbody := quotedBody_run h t
  have hdrop : (w ++ q.unit :: t).drop (w.length + 1) = t := by
    rw [show w ++ q.unit :: t = (w ++ [q.unit]) ++ t by simp]
    exact List.drop_left' (by simp)
  rw [List.cons_append, List.append_assoc, List.singleton_append, lexemes]
  simp [hl, hm, Quote.isQuote_unit, Quote.quoteOf_unit, hbody, hdrop]

theorem lexemes_word {w u : Text} (hw : IsWord w) (hu : StopsWord u) (offset : Nat) :
    lexemes offset (w ++ u) = ⟨offset, .word w⟩ :: lexemes (offset + w.length) u := by
  obtain ⟨hne, hrun⟩ := hw
  cases w with
  | nil => exact absurd rfl hne
  | cons c w =>
    have hend := head_endsWord hrun
    have hbody := wordBody_run hrun hu
    simp only [endsWord, Bool.or_eq_false_iff] at hend
    obtain ⟨⟨hl, hq⟩, hm⟩ := hend
    have hm' : Mark.ofUnit? c = none := by simpa using hm
    rw [List.cons_append] at hbody ⊢
    rw [lexemes]
    simp [hl, hq, hm', hbody]

theorem stopsWord_of_spelling {ls : List Lexeme} {t : Text} (h : Spelling ls t)
    (hls : ∀ l ∈ ls.head?, l.isWord = false) : StopsWord t := by
  intro c hc
  cases h with
  | nil hgap => exact endsWord_of_isLayout (hgap c (List.mem_of_mem_head? hc))
  | @cons l ls gap w t hgap hl _ =>
    cases gap with
    | cons d gap =>
      obtain rfl : d = c := by simpa using hc
      exact endsWord_of_isLayout (hgap d List.mem_cons_self)
    | nil =>
      cases hl with
      | mark m =>
        obtain rfl : m.unit = c := by simpa using hc
        exact endsWord_markUnit m
      | @quoted q _ _ _ =>
        obtain rfl : q.unit = c := by simpa using hc
        exact endsWord_quoteUnit q
      | word => exact absurd (hls _ rfl) (by simp [Lexeme.isWord])

/-- A text is cut into the lexemes that it spells. -/
theorem lexemes_of_spelling {ls : List Lexeme} {t : Text} (h : Spelling ls t) (hls : Apart ls)
    (offset : Nat) : (lexemes offset t).map Placed.lexeme = ls := by
  induction h generalizing offset with
  | @nil gap hgap =>
    have hcut := lexemes_layout hgap offset []
    rw [List.append_nil] at hcut
    rw [hcut, lexemes]
    rfl
  | @cons l ls gap w t hgap hl ht ih =>
    have htail : Apart ls := hls.tail
    rw [lexemes_layout hgap]
    cases hl with
    | mark m => simp [lexemes_mark, ih htail]
    | quoted hrun => rw [lexemes_quoted hrun, List.map_cons, ih htail]
    | word hw =>
      have hstop : StopsWord t := by
        apply stopsWord_of_spelling ht
        intro l' hl'
        cases ls with
        | nil => simp at hl'
        | cons a ls =>
          obtain rfl : a = l' := by simpa using hl'
          have hpair := (List.isChain_cons_cons.mp hls).1
          simpa [Lexeme.isWord] using hpair
      rw [lexemes_word hw hstop, List.map_cons, ih htail]

theorem Spelling.adjoin {l : Lexeme} {ls : List Lexeme} {w t : Text} (hl : l.Spells w)
    (ht : Spelling ls t) : Spelling (l :: ls) (w ++ t) :=
  @Spelling.cons l ls [] w t (by simp [IsLayout]) hl ht

/-- `Cut offset t ls`: the text `t`, at the offset `offset`, is cut into the lexemes `ls`. A lexeme
that is broken is the last one. -/
inductive Cut : Nat → Text → List Placed → Prop where
  | nil (offset : Nat) : Cut offset [] []
  | layout {offset : Nat} {c : CodeUnit} {t : Text} {ls : List Placed} : c.isLayout = true →
      Cut (offset + 1) t ls → Cut offset (c :: t) ls
  | lexeme {offset : Nat} {l : Lexeme} {w t : Text} {ls : List Placed} : l.Spells w →
      (l.isWord = true → StopsWord t) → Cut (offset + w.length) t ls →
      Cut offset (w ++ t) (⟨offset, l⟩ :: ls)
  | openQuote {offset : Nat} (quote : Quote) (t : Text) :
      Cut offset (quote.unit :: t) [⟨offset, .openQuote quote⟩]
  | openGroup {offset : Nat} {c : CodeUnit} {w t rest : Text} : WordRun w →
      c :: rest = w ++ ('(' : CodeUnit) :: t →
      Cut offset (c :: rest) [⟨offset, .openGroup c (offset + w.length)⟩]

theorem Cut.of_lexemes (offset : Nat) (t : Text) : Cut offset t (lexemes offset t) := by
  fun_induction lexemes offset t with
  | case1 offset => exact .nil offset
  | case2 offset c rest hc ih => exact .layout hc ih
  | case3 offset c rest hc m hm ih =>
    obtain rfl := Mark.unit_of_ofUnit? hm
    exact .lexeme (.mark m) (by simp [Lexeme.isWord]) ih
  | case4 offset c rest hc hm hq hbody =>
    have hopen := @Cut.openQuote offset (quoteOf c) rest
    rwa [Quote.unit_quoteOf hq] at hopen
  | case5 offset c rest hc hm hq text n hbody ih =>
    obtain ⟨w, u, hrun, rfl, rfl⟩ := quotedRun_of_quotedBody hbody
    have hdrop : (w ++ c :: u).drop (w.length + 1) = u := by
      rw [show w ++ c :: u = (w ++ [c]) ++ u by simp]
      exact List.drop_left' (by simp)
    have hlength : offset + (c :: (w ++ [c])).length = offset + 1 + (w.length + 1) := by
      simp only [List.length_cons, List.length_append, List.length_nil]
      omega
    rw [hdrop, ← hlength] at ih
    rw [hdrop, ← hlength, show c :: (w ++ c :: u) = (c :: (w ++ [c])) ++ u by simp]
    rw [← Quote.unit_quoteOf hq] at hrun
    have hspells := Lexeme.Spells.quoted hrun
    rw [Quote.unit_quoteOf hq] at hspells
    exact .lexeme hspells (by simp [Lexeme.isWord]) ih
  | case6 offset c rest hc hm hq n hword =>
    obtain ⟨w, u, hu, hrun, rfl⟩ := wordBody_error hword
    exact .openGroup hrun hu
  | case7 offset c rest hc hm hq word hword ih =>
    obtain ⟨u, hu, hrun, hstop⟩ := wordBody_ok hword
    have hend : endsWord c = false := by
      simp only [endsWord, hm, Option.isSome_none, Bool.or_false, Bool.or_eq_false_iff]
      exact ⟨by simpa using hc, by simpa using hq⟩
    have hne : word ≠ [] := by
      rintro rfl
      exact absurd hword (wordBody_ne_nil hend)
    have hdrop : rest.drop (word.length - 1) = u := by
      obtain ⟨d, w, rfl⟩ := List.exists_cons_of_ne_nil hne
      obtain ⟨rfl, rfl⟩ := List.cons.inj hu
      exact List.drop_left
    rw [hdrop] at ih ⊢
    rw [hu]
    exact .lexeme (.word ⟨hne, hrun⟩) (fun _ => hstop) ih

theorem Spelling.layout {c : CodeUnit} {ls : List Lexeme} {t : Text} (hc : c.isLayout = true)
    (h : Spelling ls t) : Spelling ls (c :: t) := by
  cases h with
  | nil hgap => exact .nil (List.forall_mem_cons.mpr ⟨hc, hgap⟩)
  | @cons l ls gap w t hgap hl ht =>
    exact @Spelling.cons l ls (c :: gap) w t (List.forall_mem_cons.mpr ⟨hc, hgap⟩) hl ht

theorem Cut.spelling {offset : Nat} {t : Text} {ls : List Placed} (h : Cut offset t ls)
    (hls : ∀ l ∈ ls, l.lexeme.isComplete = true) : Spelling (ls.map Placed.lexeme) t := by
  induction h with
  | nil => exact .nil (by simp [IsLayout])
  | layout hc _ ih => exact (ih hls).layout hc
  | lexeme hw _ _ ih => exact .adjoin hw (ih fun l hl => hls l (List.mem_cons_of_mem _ hl))
  | openQuote => simp [Lexeme.isComplete] at hls
  | openGroup => simp [Lexeme.isComplete] at hls

theorem spelling_lexemes {offset : Nat} {t : Text}
    (h : ∀ l ∈ lexemes offset t, l.lexeme.isComplete = true) :
    Spelling ((lexemes offset t).map Placed.lexeme) t :=
  (Cut.of_lexemes offset t).spelling h

end Payload
end QueryLint
