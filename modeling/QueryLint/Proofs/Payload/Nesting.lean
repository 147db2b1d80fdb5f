import QueryLint.Proofs.ClauseLines
import QueryLint.Proofs.Payload.Acceptance

/-!
Where a payload ends, for the reader and for the scanner that cuts it from a query.

The reader takes values, and a word may hide any unit in parentheses. The scanner only counts
brackets outside of quotes and has no parentheses. The two agree on a payload if every word in it
closes the brackets and quotes that it opens. They differ on a word such as `f(])`, where the scanner
takes the bracket for the end of the payload.
-/

namespace QueryLint.Payload
set_option autoImplicit false

open Delimiter

/-- Texts that close every bracket they open, and every quote on its line. -/
inductive Nested : Text → Prop where
  | nil : Nested []
  | unit {c : CodeUnit} {t : Text} : c.isQuote = false → Bracket.ofOpening? c = none →
      Bracket.ofClosing? c = none → Nested t → Nested (c :: t)
  | literal {quote : Quote} {w text t : Text} : QuotedRun quote.unit w text → Nested t →
      Nested (quote.unit :: (w ++ [quote.unit]) ++ t)
  | around (bracket : Bracket) {s t : Text} : Nested s → Nested t → Nested (bracket.around s ++ t)

namespace Nested

theorem append {s t : Text} (hs : Nested s) (ht : Nested t) : Nested (s ++ t) := by
  induction hs with
  | nil => exact ht
  | unit hquote hopen hclose _ ih => exact .unit hquote hopen hclose ih
  | literal hrun _ ih =>
    rw [List.append_assoc]
    exact .literal hrun ih
  | around bracket hs _ _ ih =>
    rw [List.append_assoc]
    exact .around bracket hs ih

theorem of_plain {t : Text} (h : ∀ c ∈ t, CodeUnit.isQuote c = false ∧
    Bracket.ofOpening? c = none ∧ Bracket.ofClosing? c = none) : Nested t := by
  induction t with
  | nil => exact .nil
  | cons c t ih =>
    obtain ⟨hquote, hopen, hclose⟩ := h c List.mem_cons_self
    exact .unit hquote hopen hclose (ih fun d hd => h d (List.mem_cons_of_mem _ hd))

theorem of_layout {t : Text} (h : IsLayout t) : Nested t := by
  apply of_plain
  intro c hc
  have hlayout : c.isLayout = true := h c hc
  simp only [CodeUnit.isLayout, Bool.or_eq_true, decide_eq_true_eq] at hlayout
  rcases hlayout with ((rfl | rfl) | rfl) | rfl <;> decide

/-- The scanner comes out of a nested text as it went in. -/
theorem crosses {t : Text} (h : Nested t) : Scan.Crosses t := by
  induction h with
  | nil => exact Scan.passes_nil.crosses
  | @unit c t hquote hopen hclose _ ih =>
    have hunit : Scan.Crosses [c] := by
      by_cases hbreak : c = CodeUnit.ofChar '\n'
      · rw [hbreak]
        exact Scan.crosses_lineBreak
      · apply Scan.Passes.crosses
        apply Scan.passes_idle
        intro d hd
        rw [List.mem_singleton.mp hd]
        exact ⟨hbreak, hquote, hopen, hclose⟩
    exact hunit.append ih
  | literal hrun _ ih => exact (Scan.passes_literal hrun).crosses.append ih
  | around bracket _ _ ihs iht => exact (ihs.around bracket).append iht

end Nested

theorem Spelling.append_inv {xs ys : List Lexeme} {t : Text} (h : Spelling (xs ++ ys) t) :
    ∃ u v, t = u ++ v ∧ Spelling xs u ∧ Spelling ys v := by
  induction xs generalizing t with
  | nil => exact ⟨[], t, rfl, .nil (by simp [IsLayout]), h⟩
  | cons l xs ih =>
    cases h with
    | @cons _ _ gap w t hgap hl ht =>
      obtain ⟨u, v, rfl, hu, hv⟩ := ih ht
      exact ⟨gap ++ (w ++ u), v, by simp, .cons hgap hl hu, hv⟩

/-- However the lexemes are spelled, the text is nested. -/
def SpelledNested (ls : List Lexeme) : Prop := ∀ t, Spelling ls t → Nested t

namespace SpelledNested

theorem nil : SpelledNested [] := by
  intro t h
  cases h with
  | nil hgap => exact .of_layout hgap

theorem append {xs ys : List Lexeme} (hx : SpelledNested xs) (hy : SpelledNested ys) :
    SpelledNested (xs ++ ys) := by
  intro t h
  obtain ⟨u, v, rfl, hu, hv⟩ := h.append_inv
  exact (hx u hu).append (hy v hv)

theorem cons {l : Lexeme} {ls : List Lexeme} (hl : ∀ w, l.Spells w → Nested w)
    (hls : SpelledNested ls) : SpelledNested (l :: ls) := by
  intro t h
  cases h with
  | @cons _ _ gap w t hgap hw ht => exact (Nested.of_layout hgap).append ((hl w hw).append (hls t ht))

theorem cons_separator {m : Mark} (hm : m = .comma ∨ m = .colon) {ls : List Lexeme}
    (hls : SpelledNested ls) : SpelledNested (.mark m :: ls) := by
  refine cons ?_ hls
  intro w hw
  cases hw
  apply Nested.of_plain
  rcases hm with rfl | rfl <;> decide

end SpelledNested

section Parts
variable (stop : Mark) (trailing : Bool) {parts : List (List Lexeme)}

theorem mem_continued {part : List Lexeme} {l : Lexeme} (hpart : part ∈ parts) (hl : l ∈ part) :
    l ∈ continued stop trailing parts := by
  induction parts with
  | nil => cases hpart
  | cons p parts ih =>
    rw [continued]
    apply List.mem_cons_of_mem
    rcases List.mem_cons.mp hpart with rfl | hpart
    · exact List.mem_append_left _ hl
    · exact List.mem_append_right _ (ih hpart)

theorem mem_enclosed {part : List Lexeme} {l : Lexeme} (hpart : part ∈ parts) (hl : l ∈ part) :
    l ∈ enclosed stop trailing parts := by
  cases parts with
  | nil => cases hpart
  | cons p parts =>
    rw [enclosed]
    rcases List.mem_cons.mp hpart with rfl | hpart
    · exact List.mem_append_left _ hl
    · exact List.mem_append_right _ (mem_continued stop trailing hpart hl)

theorem continued_nested (h : ∀ part ∈ parts, SpelledNested part) :
    ∃ inner, continued stop trailing parts = inner ++ [.mark stop] ∧ SpelledNested inner := by
  induction parts with
  | nil =>
    cases trailing with
    | false => exact ⟨[], rfl, .nil⟩
    | true => exact ⟨[.mark .comma], rfl, .cons_separator (.inl rfl) .nil⟩
  | cons part parts ih =>
    obtain ⟨inner, heq, hinner⟩ := ih fun p hp => h p (List.mem_cons_of_mem _ hp)
    refine ⟨.mark .comma :: (part ++ inner), ?_, ?_⟩
    · rw [continued, heq, List.cons_append, List.append_assoc]
    · exact .cons_separator (.inl rfl) ((h part List.mem_cons_self).append hinner)

theorem enclosed_nested (h : ∀ part ∈ parts, SpelledNested part) :
    ∃ inner, enclosed stop trailing parts = inner ++ [.mark stop] ∧ SpelledNested inner := by
  cases parts with
  | nil => exact ⟨[], rfl, .nil⟩
  | cons part parts =>
    obtain ⟨inner, heq, hinner⟩ := continued_nested stop trailing
      fun p hp => h p (List.mem_cons_of_mem _ hp)
    refine ⟨part ++ inner, ?_, (h part List.mem_cons_self).append hinner⟩
    rw [enclosed, heq, List.append_assoc]

end Parts

def Mark.opening : Bracket → Mark
  | .brace => .openBrace
  | .square => .openSquare

def Mark.closing : Bracket → Mark
  | .brace => .closeBrace
  | .square => .closeSquare

theorem Mark.unit_opening (bracket : Bracket) : (opening bracket).unit = bracket.opening := by
  cases bracket <;> rfl

theorem Mark.unit_closing (bracket : Bracket) : (closing bracket).unit = bracket.closing := by
  cases bracket <;> rfl

/-- The lexemes of one value, nested however they are spelled: a container or a scalar. -/
inductive NestedValue : List Lexeme → Prop where
  | container (bracket : Bracket) {inner : List Lexeme} : SpelledNested inner →
      NestedValue (.mark (Mark.opening bracket) :: (inner ++ [.mark (Mark.closing bracket)]))
  | scalar {l : Lexeme} : (∀ m, l ≠ .mark m) → (∀ w, l.Spells w → Nested w) → NestedValue [l]

theorem container_text {bracket : Bracket} {inner : List Lexeme} {t : Text}
    (hinner : SpelledNested inner)
    (h : Spelling (.mark (Mark.opening bracket) :: (inner ++ [.mark (Mark.closing bracket)])) t) :
    ∃ gap body gap', IsLayout gap ∧ Nested body ∧ IsLayout gap' ∧
      t = gap ++ (bracket.around body ++ gap') := by
  cases h with
  | @cons _ _ gap w t hgap hw ht =>
    cases hw
    obtain ⟨u, v, rfl, hu, hv⟩ := ht.append_inv
    cases hv with
    | @cons _ _ before w t hbefore hw hend =>
      cases hw
      cases hend with
      | nil hbehind =>
        refine ⟨gap, u ++ before, t, hgap, (hinner u hu).append (.of_layout hbefore), hbehind, ?_⟩
        simp [Bracket.around, Mark.unit_opening, Mark.unit_closing]

theorem NestedValue.spelledNested {ls : List Lexeme} (h : NestedValue ls) : SpelledNested ls := by
  cases h with
  | container bracket hinner =>
    intro t ht
    obtain ⟨gap, body, gap', hgap, hbody, hgap', rfl⟩ := container_text hinner ht
    exact (Nested.of_layout hgap).append (.around bracket hbody (.of_layout hgap'))
  | scalar _ hl => exact .cons hl .nil

theorem nested_of_spells_quoted {quote : Quote} {text w : Text}
    (h : (Lexeme.quoted quote text).Spells w) : Nested w := by
  cases h with
  | quoted hrun =>
    have hliteral := Nested.literal hrun .nil
    rwa [List.append_nil] at hliteral

theorem spelledNested_entry {entry : Key × Derivation}
    (hwords : ∀ w, Lexeme.word w ∈ entryTokens entry → Nested w)
    (hvalue : SpelledNested entry.2.tokens) : SpelledNested (entryTokens entry) := by
  obtain ⟨⟨text, style⟩, d⟩ := entry
  refine .cons ?_ (.cons_separator (.inr rfl) hvalue)
  intro w hw
  cases style with
  | quoted quote => exact nested_of_spells_quoted hw
  | bare =>
    cases hw
    exact hwords _ (by simp [entryTokens, Key.lexeme])

theorem nestedValue_tokens {d : Derivation} (hd : d.WellFormed)
    (hwords : ∀ w, Lexeme.word w ∈ d.tokens → Nested w) : NestedValue d.tokens := by
  induction hd with
  | @object entries trailing _ _ _ ih =>
    rw [Derivation.tokens, Derivation.entriesTokens_eq] at hwords ⊢
    have hparts : ∀ part ∈ entries.map entryTokens, SpelledNested part := by
      intro part hpart
      obtain ⟨entry, hentry, rfl⟩ := List.mem_map.mp hpart
      have hentryWords : ∀ w, Lexeme.word w ∈ entryTokens entry → Nested w := fun w hw =>
        hwords w (List.mem_cons_of_mem _ (mem_enclosed _ _ hpart hw))
      refine spelledNested_entry hentryWords ?_
      apply NestedValue.spelledNested
      apply ih entry hentry
      intro w hw
      exact hentryWords w (List.mem_cons_of_mem _ (List.mem_cons_of_mem _ hw))
    obtain ⟨inner, heq, hinner⟩ := enclosed_nested .closeBrace trailing hparts
    exact heq ▸ .container .brace hinner
  | @array items trailing _ _ ih =>
    rw [Derivation.tokens, Derivation.itemsTokens_eq] at hwords ⊢
    have hparts : ∀ part ∈ items.map Derivation.tokens, SpelledNested part := by
      intro part hpart
      obtain ⟨item, hitem, rfl⟩ := List.mem_map.mp hpart
      apply NestedValue.spelledNested
      apply ih item hitem
      intro w hw
      exact hwords w (List.mem_cons_of_mem _ (mem_enclosed _ _ hpart hw))
    obtain ⟨inner, heq, hinner⟩ := enclosed_nested .closeSquare trailing hparts
    exact heq ▸ .container .square hinner
  | quoted quote text => exact .scalar (by simp) fun w hw => nested_of_spells_quoted hw
  | @word text meaning _ =>
    refine .scalar (by simp) ?_
    intro w hw
    cases hw
    exact hwords text (by simp [Derivation.tokens])

theorem exists_derives {s : Text} (h : (parse s).isOk = true) : ∃ d : Derivation, d.Derives s := by
  cases hparse : parse s with
  | error fault => simp [hparse, Except.isOk, Except.toBool] at h
  | ok parsed =>
    obtain ⟨d, hd, -⟩ := @exists_derives_of_parse s parsed.value parsed.notes hparse
    exact ⟨d, hd⟩

/-- An accepted payload with a bracket at its start, no white space at its end and nested words is
a nested text between two brackets. -/
theorem exists_around_of_parse {s : Text} (haccepted : (parse s).isOk = true)
    (hstart : ∃ bracket : Bracket, s.head? = some bracket.opening)
    (hend : ∀ c ∈ s.getLast?, CodeUnit.isSpace c = false)
    (hwords : ∀ w, Lexeme.word w ∈ (lexemes 0 s).map Placed.lexeme → Nested w) :
    ∃ (bracket : Bracket) (body : Text), Nested body ∧ s = bracket.around body := by
  obtain ⟨d, hd, hspelling⟩ := exists_derives haccepted
  have hlexemes := lexemes_of_spelling hspelling (apart_tokens hd) 0
  have hvalue := nestedValue_tokens hd (hlexemes ▸ hwords)
  obtain ⟨opened, hhead⟩ := hstart
  generalize d.tokens = ls at hspelling hlexemes hvalue
  cases hvalue with
  | container bracket hinner =>
    obtain ⟨gap, body, gap', hgap, hbody, hgap', rfl⟩ := container_text hinner hspelling
    have hfront : gap = [] := by
      cases gap with
      | nil => rfl
      | cons c gap =>
        obtain rfl : c = opened.opening := by simpa using hhead
        have hlayout := hgap _ List.mem_cons_self
        cases opened <;> exact absurd hlayout (by decide)
    have hback : gap' = [] := by
      rcases List.eq_nil_or_concat gap' with rfl | ⟨w, c, rfl⟩
      · rfl
      · rw [List.concat_eq_append] at hgap' hend
        have hspace := CodeUnit.isSpace_of_isLayout (hgap' c (by simp))
        rw [hend c (by simp)] at hspace
        cases hspace
    rw [hfront, hback]
    exact ⟨bracket, body, hbody, by simp⟩
  | @scalar l hscalar _ =>
    obtain ⟨rest, rfl⟩ := List.head?_eq_some_iff.mp hhead
    rw [← Mark.unit_opening, lexemes_mark, List.map_cons] at hlexemes
    exact absurd (List.cons.inj hlexemes).1.symm (hscalar _)

/-- The scanner cuts every accepted payload where the reader ends it, if its words are nested: behind
a name it is one token, without a fault and without strays. -/
theorem ofText_accepted {s : Text} (haccepted : (parse s).isOk = true)
    (hstart : ∃ bracket : Bracket, s.head? = some bracket.opening)
    (hend : ∀ c ∈ s.getLast?, CodeUnit.isSpace c = false)
    (hwords : ∀ w, Lexeme.word w ∈ (lexemes 0 s).map Placed.lexeme → Nested w)
    {name : Text} (hname : Chunk.IsName name) (isKeyword : Text → Bool) :
    Tokens.ofText isKeyword (Chunk.spaced name s) =
      ⟨[⟨name, .start, (Chunk.spaced name s).length,
        some ⟨s, Position.start.after (name ++ " "), true⟩, none⟩], []⟩ := by
  obtain ⟨bracket, body, hbody, rfl⟩ := exists_around_of_parse haccepted hstart hend hwords
  have hcut := Chunk.isClauseLine_around isKeyword hname hbody.crosses bracket [] .nil
  have hchunks := hcut.ofText_eq
  rw [List.append_nil, Chunk.ofText, List.append_nil] at hchunks
  have hunits : (Text.ofString " ").length = 1 := by decide
  rw [Tokens.ofText, hchunks]
  simp only [Tokens.ofChunks, Token.ofClause, ← Position.after_append, Position.offset_after]
  simp [Chunk.spaced, Position.start, hunits]
  omega

theorem ofText_accepted_group :
    Tokens.ofText (fun _ => true) "KW \x7btags: ['a\x7db'],\n  load: f([1])\x7d" =
      ⟨[⟨"KW", .start, 34, some ⟨"\x7btags: ['a\x7db'],\n  load: f([1])\x7d", ⟨3, 1, 4⟩, true⟩,
        none⟩], []⟩ := by
  have hlexemes : (lexemes 0 "\x7btags: ['a\x7db'],\n  load: f([1])\x7d").map Placed.lexeme =
      [.mark .openBrace, .word "tags", .mark .colon, .mark .openSquare, .quoted .single "a\x7db",
        .mark .closeSquare, .mark .comma, .word "load", .mark .colon, .word "f([1])",
        .mark .closeBrace] := by decide +kernel
  have hgroup : Nested (Text.ofString "f(" ++ (Bracket.square.around "1" ++ ")")) :=
    (Nested.of_plain (by decide)).append
      (.around .square (.of_plain (by decide)) (.of_plain (by decide)))
  have haccepted : (parse "\x7btags: ['a\x7db'],\n  load: f([1])\x7d").isOk = true := by decide +kernel
  have hname : Chunk.IsName "KW" := ⟨⟨_, _, rfl, by decide⟩, by decide⟩
  have hend : ∀ c ∈ (Text.ofString "\x7btags: ['a\x7db'],\n  load: f([1])\x7d").getLast?,
      CodeUnit.isSpace c = false := by
    intro c hc
    have hlast : (Text.ofString "\x7btags: ['a\x7db'],\n  load: f([1])\x7d").getLast? =
        some Bracket.brace.closing := by decide
    rw [hlast] at hc
    obtain rfl := Option.mem_some.1 hc
    decide
  refine (ofText_accepted haccepted ⟨.brace, by decide⟩ hend ?_ hname fun _ => true).trans (by decide)
  rw [hlexemes]
  intro w hw
  simp only [List.mem_cons, Lexeme.word.injEq, List.not_mem_nil, or_false, reduceCtorEq,
    false_or] at hw
  rcases hw with rfl | rfl | rfl
  · exact .of_plain (by decide)
  · exact .of_plain (by decide)
  · exact hgroup

/-- A bracket in parentheses is part of a word, but the scanner stops at it. -/
theorem ofText_ne_accepted :
    (parse "\x7ba: f(])\x7d").isOk = true ∧
      Tokens.ofText (fun _ => false) "KW \x7ba: f(])\x7d" ≠
        ⟨[⟨"KW", .start, 12, some ⟨"\x7ba: f(])\x7d", ⟨3, 1, 4⟩, true⟩, none⟩], []⟩ := by
  decide +kernel

end QueryLint.Payload
