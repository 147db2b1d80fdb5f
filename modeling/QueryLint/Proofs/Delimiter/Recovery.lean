import Mathlib.Data.Nat.Find
import QueryLint.Proofs.ClauseLines
import QueryLint.Proofs.Delimiter.Payloads
import QueryLint.Proofs.Delimiter.Scanning

/-!
Where tokens go on behind a payload that is never closed.

Such a payload is cut before the first line that is a command, unless a backslash in an open quote
hides the line break before it: then that line belongs to the payload like any other.
-/

namespace QueryLint
set_option autoImplicit false

namespace Chunk

/-- A line that is a command: a keyword behind blanks, which no colon or comma follows. -/
def CommandAt (isKeyword : Text → Bool) (line blanks word : Text) : Prop :=
  ∃ rest : Text, line = blanks ++ (word ++ rest) ∧ (∀ c ∈ blanks, CodeUnit.isBlank c = true) ∧
    IsName word ∧ (∀ c ∈ rest.head?, isNameUnit c = false) ∧ isKeyword word = true ∧
    ∀ c ∈ (rest.dropWhile CodeUnit.isBlank).head?, c ≠ ':' ∧ c ≠ ','

/-- The first command line of a text behind its first line, of those that `Counts` lets count. The
text `front` is what stands before its line break. -/
def FirstCommand (isKeyword : Text → Bool) (Counts : Text → Prop) (t front blanks word : Text) : Prop :=
  (∃ line : Text, t = front ++ ('\n' : CodeUnit) :: line ∧ Counts front ∧
    CommandAt isKeyword line blanks word) ∧
  ∀ front' line blanks' word' : Text, t = front' ++ ('\n' : CodeUnit) :: line → Counts front' →
    CommandAt isKeyword line blanks' word' → front.length ≤ front'.length

/-- The payload of token `i` stops before the first command line, and the next token is that command;
without such a line the payload is all that is left. -/
structure Resumes (isKeyword : Text → Bool) (Counts : Text → Prop) (text : Text) (i : Nat)
    (p : RawPayload) : Prop where
  command : ∀ front blanks word,
    FirstCommand isKeyword Counts (text.drop p.start.offset) front blanks word →
    p.text = Text.trimEnd front ∧ ∃ k, (Tokens.ofText isKeyword text).tokens[i + 1]? = some k ∧
      k.name = word ∧
      k.start = .ofOffset text (p.start.offset + (front.length + 1 + blanks.length))
  noCommand : (∀ front blanks word,
      ¬FirstCommand isKeyword Counts (text.drop p.start.offset) front blanks word) →
    p.text = Text.trimEnd (text.drop p.start.offset) ∧
      (Tokens.ofText isKeyword text).tokens.length = i + 1

theorem span_eq {p : CodeUnit → Bool} {w rest : Text} (hw : ∀ c ∈ w, p c = true)
    (hrest : ∀ c ∈ rest.head?, p c = false) :
    (w ++ rest).takeWhile p = w ∧ (w ++ rest).dropWhile p = rest := by
  rw [List.takeWhile_append_of_pos hw, List.dropWhile_append_of_pos hw]
  cases rest with
  | nil => simp
  | cons c rest => simp [hrest c rfl]

theorem isBlank_of_isNameStart {c : CodeUnit} (h : isNameStart c = true) : c.isBlank = false := by
  cases hb : c.isBlank with
  | false => rfl
  | true =>
    simp only [CodeUnit.isBlank, Bool.or_eq_true, decide_eq_true_eq] at hb
    obtain rfl | rfl := hb
    · exact absurd h (by decide)
    · exact absurd h (by decide)

theorem startsCommand_of_commandAt {isKeyword : Text → Bool} {line blanks word : Text}
    (h : CommandAt isKeyword line blanks word) : startsCommand isKeyword line = true := by
  obtain ⟨rest, rfl, hblanks, ⟨⟨c, u, rfl, hc⟩, hword⟩, hrest, hkeyword, hbehind⟩ := h
  have hstart : ∀ d ∈ (c :: u ++ rest).head?, CodeUnit.isBlank d = false := by
    rintro d ⟨⟩
    exact isBlank_of_isNameStart hc
  obtain ⟨-, hline⟩ := span_eq hblanks hstart
  obtain ⟨htake, hdrop⟩ := span_eq hword hrest
  unfold startsCommand
  dsimp only
  rw [hline, htake, hdrop]
  cases hb : rest.dropWhile CodeUnit.isBlank with
  | nil => simp [hc, hkeyword]
  | cons d v =>
    obtain ⟨hcolon, hcomma⟩ := hbehind d (by rw [hb]; rfl)
    simp [hc, hkeyword, hcolon, hcomma]

theorem not_of_mem_head?_dropWhile {p : CodeUnit → Bool} {t : Text} :
    ∀ c ∈ (t.dropWhile p).head?, p c = false := by
  intro c hc
  have hhead := List.head?_dropWhile_not p t
  rw [hc] at hhead
  exact hhead

theorem exists_commandAt {isKeyword : Text → Bool} {line : Text}
    (h : startsCommand isKeyword line = true) : ∃ blanks word, CommandAt isKeyword line blanks word := by
  unfold startsCommand at h
  dsimp only at h
  cases ht : line.dropWhile CodeUnit.isBlank with
  | nil => simp [ht] at h
  | cons c u =>
    have hc : isNameStart c = true := by
      by_contra hc
      simp [ht, hc] at h
    have hword : (c :: u).takeWhile isNameUnit = c :: u.takeWhile isNameUnit :=
      List.takeWhile_cons_of_pos (by simpa [isNameUnit, isNameStart] using .inl (.inl (.inl hc)))
    rw [ht] at h
    simp only [hc, Bool.not_true, Bool.false_eq_true, if_false] at h
    refine ⟨line.takeWhile CodeUnit.isBlank, (c :: u).takeWhile isNameUnit,
      (c :: u).dropWhile isNameUnit, ?_, fun d hd => List.mem_takeWhile_imp hd,
      ⟨⟨c, _, hword, hc⟩, fun d hd => List.mem_takeWhile_imp hd⟩, not_of_mem_head?_dropWhile, ?_, ?_⟩
    · rw [List.takeWhile_append_dropWhile, ← ht, List.takeWhile_append_dropWhile]
    · split at h
      · exact h
      · split at h
        · cases h
        · exact h
    · intro d hd
      split at h
      · rename_i hnil
        rw [hnil] at hd
        cases hd
      · rename_i e v hcons
        rw [hcons] at hd
        obtain rfl := Option.some.inj hd
        by_cases hstop : e = ':' ∨ e = ','
        · simp [hstop] at h
        · exact not_or.mp hstop

theorem commandBreak_iff_commandAt {isKeyword : Text → Bool} {t : Text} {offset : Nat} :
    Delimiter.CommandBreak (startsCommand isKeyword) t offset ↔ ∃ front line blanks word : Text,
      t = front ++ ('\n' : CodeUnit) :: line ∧ front.length = offset ∧
        ¬(Delimiter.shadeBehind front).Hides ∧ CommandAt isKeyword line blanks word := by
  constructor
  · rintro ⟨front, line, ht, hlength, hshade, hline⟩
    obtain ⟨blanks, word, hcommand⟩ := exists_commandAt hline
    exact ⟨front, line, blanks, word, ht, hlength, hshade, hcommand⟩
  · rintro ⟨front, line, blanks, word, ht, hlength, hshade, hcommand⟩
    exact ⟨front, line, ht, hlength, hshade, startsCommand_of_commandAt hcommand⟩

section FirstCommand
variable {isKeyword : Text → Bool} {t : Text}

theorem exists_firstCommand (Counts : Text → Prop) {front line blanks word : Text}
    (ht : t = front ++ ('\n' : CodeUnit) :: line) (hcounts : Counts front)
    (hcommand : CommandAt isKeyword line blanks word) :
    ∃ front' blanks' word', FirstCommand isKeyword Counts t front' blanks' word' := by
  classical
  let P : Nat → Prop := fun n => ∃ front line blanks word : Text, t = front ++ ('\n' : CodeUnit) :: line ∧
    front.length = n ∧ Counts front ∧ CommandAt isKeyword line blanks word
  have hP : ∃ n, P n := ⟨_, front, line, blanks, word, ht, rfl, hcounts, hcommand⟩
  obtain ⟨front', line', blanks', word', ht', hlength, hcounts', hcommand'⟩ := Nat.find_spec hP
  refine ⟨front', blanks', word', ⟨line', ht', hcounts', hcommand'⟩, ?_⟩
  intro front line blanks word ht hcounts hcommand
  rw [hlength]
  exact Nat.find_min' hP ⟨front, line, blanks, word, ht, rfl, hcounts, hcommand⟩

/-- A line break that no backslash hides. -/
def Visible (front : Text) : Prop := ¬(Delimiter.shadeBehind front).Hides

instance : DecidablePred Visible := fun _ => inferInstanceAs (Decidable (¬_))

theorem boundary_of_firstCommand {o : Option Nat} {front blanks word : Text}
    (ho : Delimiter.FirstBelow (Delimiter.CommandBreak (startsCommand isKeyword) t) t.length o)
    (h : FirstCommand isKeyword Visible t front blanks word) : o = some front.length := by
  obtain ⟨⟨line, ht, hvisible, hcommand⟩, hfirst⟩ := h
  have hbreak : Delimiter.CommandBreak (startsCommand isKeyword) t front.length :=
    commandBreak_iff_commandAt.mpr ⟨front, line, blanks, word, ht, rfl, hvisible, hcommand⟩
  cases o with
  | none => exact absurd hbreak (ho front.length (by rw [ht]; simp))
  | some n =>
    obtain ⟨-, hn, hbelow⟩ := ho
    obtain ⟨front', line', blanks', word', ht', hlength, hvisible', hcommand'⟩ :=
      commandBreak_iff_commandAt.mp hn
    have hle := hfirst front' line' blanks' word' ht' hvisible' hcommand'
    have hge : n ≤ front.length := Nat.le_of_not_lt fun hlt => hbelow front.length hlt hbreak
    exact congrArg some (by omega)

theorem boundary_of_noCommand {o : Option Nat}
    (ho : Delimiter.FirstBelow (Delimiter.CommandBreak (startsCommand isKeyword) t) t.length o)
    (h : ∀ front blanks word, ¬FirstCommand isKeyword Visible t front blanks word) : o = none := by
  cases o with
  | none => rfl
  | some n =>
    obtain ⟨front, line, blanks, word, ht, -, hvisible, hcommand⟩ :=
      commandBreak_iff_commandAt.mp ho.2.1
    obtain ⟨front', blanks', word', hfirst⟩ := exists_firstCommand Visible ht hvisible hcommand
    exact absurd hfirst (h front' blanks' word')

theorem getElem?_lineBreak {front line : Text} (ht : t = front ++ ('\n' : CodeUnit) :: line) :
    t[front.length]? = some ('\n' : CodeUnit) := by
  rw [ht, List.getElem?_append_right (Nat.le_refl _), Nat.sub_self]
  rfl

theorem front_eq_of_word_start {front front' line line' blanks blanks' word : Text}
    (ht : t = front ++ ('\n' : CodeUnit) :: line) (hcommand : CommandAt isKeyword line blanks word)
    (ht' : t = front' ++ ('\n' : CodeUnit) :: line') (hle : front.length ≤ front'.length)
    (hstart : front.length + 1 + blanks.length = front'.length + 1 + blanks'.length) :
    front' = front := by
  obtain ⟨rest, rfl, hblanks, -⟩ := hcommand
  obtain heq | hlt := Nat.eq_or_lt_of_le hle
  · exact ((List.append_inj (ht.symm.trans ht') heq).1).symm
  · exfalso
    obtain ⟨d, hd⟩ := Nat.exists_eq_add_of_lt hlt
    have hbreak := getElem?_lineBreak ht'
    have hblank : t[front'.length]? = blanks[d]? := by
      rw [ht, hd, List.getElem?_append_right (by omega),
        show front.length + d + 1 - front.length = d + 1 by omega, List.getElem?_cons_succ,
        List.getElem?_append_left (by omega)]
    rw [hbreak] at hblank
    exact absurd (hblanks _ (List.mem_of_getElem? hblank.symm)) (by decide)

end FirstCommand

section Resumes
variable {isKeyword : Text → Bool} {text : Text} {i : Nat} {p : RawPayload}

/-- The token that the first command line of all gives is the one that the first visible command line
gives, so the two lines are the same. -/
theorem Resumes.visible {front blanks word : Text} (h : Resumes isKeyword Visible text i p)
    (hall : Resumes isKeyword (fun _ => True) text i p)
    (hfirst : FirstCommand isKeyword (fun _ => True) (text.drop p.start.offset) front blanks word) :
    Visible front := by
  obtain ⟨-, k, hk, -, hstart⟩ := hall.command front blanks word hfirst
  obtain ⟨⟨line, ht, -, hcommand⟩, hleast⟩ := hfirst
  by_cases hnone : ∀ front blanks word,
      ¬FirstCommand isKeyword Visible (text.drop p.start.offset) front blanks word
  · have hlast := (h.noCommand hnone).2
    have hlt := (List.getElem?_eq_some_iff.mp hk).1
    omega
  · simp only [not_forall, not_not] at hnone
    obtain ⟨front', blanks', word', hfirst'⟩ := hnone
    obtain ⟨-, k', hk', -, hstart'⟩ := h.command front' blanks' word' hfirst'
    obtain ⟨⟨line', ht', hvisible, hcommand'⟩, -⟩ := hfirst'
    obtain rfl := Option.some.inj (hk.symm.trans hk')
    have hoffset := congrArg Position.offset (hstart.symm.trans hstart')
    have hle := hleast front' line' blanks' word' ht' trivial hcommand'
    rw [← front_eq_of_word_start ht hcommand ht' hle (Nat.add_left_cancel hoffset)]
    exact hvisible

theorem Resumes.of_visible (h : Resumes isKeyword Visible text i p)
    (hvisible : ∀ front blanks word, FirstCommand isKeyword (fun _ => True) (text.drop p.start.offset)
      front blanks word → Visible front) : Resumes isKeyword (fun _ => True) text i p where
  command := by
    intro front blanks word hfirst
    have hfront := hvisible front blanks word hfirst
    obtain ⟨⟨line, ht, -, hcommand⟩, hleast⟩ := hfirst
    exact h.command front blanks word ⟨⟨line, ht, hfront, hcommand⟩,
      fun front' line' blanks' word' ht' _ hcommand' =>
        hleast front' line' blanks' word' ht' trivial hcommand'⟩
  noCommand := by
    intro hnone
    apply h.noCommand
    rintro front blanks word ⟨⟨line, ht, -, hcommand⟩, -⟩
    obtain ⟨front', blanks', word', hfirst⟩ :=
      exists_firstCommand (fun _ => True) ht trivial hcommand
    exact hnone front' blanks' word' hfirst

end Resumes

theorem ofText_layout (isKeyword : Text → Bool) {c : CodeUnit} (hc : c.isLayout = true) (t : Text) :
    ofText isKeyword (c :: t) = skipped [c] :: ofText isKeyword t := by
  have hfirst : first isKeyword c t = skipped [c] := by simp [first, hc]
  rw [ofText_cons, hfirst]
  rfl

theorem tokens_layout (isKeyword : Text → Bool) {layout : Text}
    (h : ∀ c ∈ layout, CodeUnit.isLayout c = true) (t : Text) (p : Position) (count : Nat) :
    (Tokens.ofChunks p count (ofText isKeyword (layout ++ t))).tokens =
      (Tokens.ofChunks (p.after layout) count (ofText isKeyword t)).tokens := by
  induction layout generalizing p with
  | nil => rfl
  | cons c layout ih =>
    rw [List.cons_append, ofText_layout isKeyword (h c List.mem_cons_self), Tokens.ofChunks]
    exact ih (fun d hd => h d (List.mem_cons_of_mem _ hd)) (p.after [c])

theorem ClauseForm.name_eq {isKeyword : Text → Bool} {name blanks rest : Text} {cl : Clause}
    (h : ClauseForm isKeyword name blanks rest cl) : cl.name = name := by
  cases h with
  | ended => rfl
  | bare => rfl
  | bracketed => rfl
  | line => rfl

theorem tokens_commandAt {isKeyword : Text → Bool} {line blanks word : Text}
    (h : CommandAt isKeyword line blanks word) (p : Position) (count : Nat) :
    ∃ k ks, (Tokens.ofChunks p count (ofText isKeyword line)).tokens = k :: ks ∧ k.name = word ∧
      k.start = p.after blanks := by
  obtain ⟨rest, rfl, hblanks, ⟨⟨c, u, rfl, hc⟩, hword⟩, hrest, -⟩ := h
  have hlayout : ∀ d ∈ blanks, CodeUnit.isLayout d = true := by
    intro d hd
    have hblank := hblanks d hd
    simp only [CodeUnit.isBlank, Bool.or_eq_true, decide_eq_true_eq] at hblank
    obtain rfl | rfl := hblank
    · decide
    · decide
  rw [tokens_layout isKeyword hlayout, List.cons_append, ofText_cons, first_of_isNameStart _ hc,
    Tokens.ofChunks]
  refine ⟨_, _, rfl, ?_, Token.start_ofClause ..⟩
  have hname := (clauseAt_form isKeyword (c :: (u ++ rest))).name_eq
  rw [← List.cons_append, (span_eq hword hrest).1] at hname
  rw [Token.name_ofClause]
  exact hname

end Chunk

namespace Tokens
open Chunk Delimiter

/-- The tokens behind a payload that is never closed are those of the text behind its cut. -/
theorem exists_unclosed {isKeyword : Text → Bool} {text : Text} {i : Nat} {k : Token} {p : RawPayload}
    (hk : (ofText isKeyword text).tokens[i]? = some k) (hp : k.payload = some p)
    (hbracketed : p.bracketed = true) (hbusy : Busy (text.drop p.start.offset)) :
    ∃ (u t : Text) (s : Scan), text = u ++ t ∧ p.start.offset = u.length ∧
      Stands (startsCommand isKeyword) t t s ∧
      p.text = Text.trimEnd (t.take (s.boundary.getD t.length)) ∧
      (ofText isKeyword text).tokens.drop (i + 1) =
        (ofChunks (Position.start.after (u ++ t.take (s.boundary.getD t.length))) 0
          (Chunk.ofText isKeyword (t.drop (s.boundary.getD t.length)))).tokens := by
  obtain ⟨u, bracket, rest, rfl, hstart, hfault, hcut⟩ := exists_extent hk hp hbracketed
  rw [hstart, List.drop_left] at hbusy
  have houtcome := extent_outcome (startsCommand isKeyword) bracket rest
  generalize extent (startsCommand isKeyword) bracket rest = e at houtcome hfault hcut
  cases houtcome with
  | @closed w behind last noted hw _ _ hstack =>
    have hprefix : w ++ [last.closing] <+: bracket.opening :: rest := ⟨behind, by rw [hw]; simp⟩
    exact absurd hstack (hbusy _ hprefix (by simp))
  | @unclosed s stands =>
    have hfaulty : k.fault ≠ none := by
      rw [hfault]
      obtain h | ⟨offset, fault, -, h⟩ := s.unfinished_reports (bracket.opening :: rest).length
      · rw [h]
        apply Option.some_ne_none
      · rw [h]
        apply Option.some_ne_none
    obtain ⟨htext, hrest⟩ := hcut hfaulty
    rw [s.unfinished_length] at htext hrest
    exact ⟨u, bracket.opening :: rest, s, rfl, hstart, stands, htext, hrest⟩

/-- Behind a payload that is never closed the tokens go on with the first visible command line. -/
theorem resumes_visible {isKeyword : Text → Bool} {text : Text} {i : Nat} {k : Token} {p : RawPayload}
    (hk : (ofText isKeyword text).tokens[i]? = some k) (hp : k.payload = some p)
    (hbracketed : p.bracketed = true) (hbusy : Busy (text.drop p.start.offset)) :
    Resumes isKeyword Visible text i p := by
  obtain ⟨u, t, s, rfl, hstart, stands, hcut, hrest⟩ := exists_unclosed hk hp hbracketed hbusy
  constructor
  case command =>
    rw [hstart, List.drop_left]
    intro front blanks word hfirst
    rw [boundary_of_firstCommand stands.boundary hfirst, Option.getD_some] at hcut hrest
    obtain ⟨⟨line, rfl, -, hcommand⟩, -⟩ := hfirst
    rw [List.take_left] at hcut hrest
    refine ⟨hcut, ?_⟩
    rw [List.drop_left] at hrest
    have hlayout : ∀ c ∈ [('\n' : CodeUnit)], CodeUnit.isLayout c = true := by decide
    have hline := tokens_layout isKeyword hlayout line (Position.start.after (u ++ front)) 0
    obtain ⟨k', ks, htokens, hname, hplace⟩ := tokens_commandAt hcommand
      ((Position.start.after (u ++ front)).after [('\n' : CodeUnit)]) 0
    refine ⟨k', ?_, hname, ?_⟩
    · rw [← List.head?_drop, hrest]
      exact congrArg List.head? (hline.trans htokens)
    · obtain ⟨rest, rfl, -⟩ := hcommand
      have hlength : u.length + (front.length + 1 + blanks.length) =
          (u ++ front ++ [('\n' : CodeUnit)] ++ blanks).length := by
        simp only [List.length_append, List.length_singleton]
        omega
      have htext : u ++ (front ++ ('\n' : CodeUnit) :: (blanks ++ (word ++ rest))) =
          u ++ front ++ [('\n' : CodeUnit)] ++ blanks ++ (word ++ rest) := by simp
      rw [hplace, hlength, htext, Position.ofOffset_append]
      simp only [Position.after_append]
  case noCommand =>
    rw [hstart, List.drop_left]
    intro hnone
    rw [boundary_of_noCommand stands.boundary hnone, Option.getD_none] at hcut hrest
    rw [List.take_length] at hcut
    rw [List.drop_length, Chunk.ofText_nil] at hrest
    refine ⟨hcut, ?_⟩
    have hle := List.drop_eq_nil_iff.mp hrest
    have hlt := (List.getElem?_eq_some_iff.mp hk).1
    omega

/-- Behind a payload that is never closed the tokens go on with the first command line of all just
where no backslash hides the line break before it. -/
theorem resumes_iff_visible {isKeyword : Text → Bool} {text : Text} {i : Nat} {k : Token} {p : RawPayload}
    (hk : (ofText isKeyword text).tokens[i]? = some k) (hp : k.payload = some p)
    (hbracketed : p.bracketed = true) (hbusy : Busy (text.drop p.start.offset)) :
    Resumes isKeyword Visible text i p ∧ (Resumes isKeyword (fun _ => True) text i p ↔
      ∀ front blanks word, FirstCommand isKeyword (fun _ => True) (text.drop p.start.offset) front blanks
        word → Visible front) := by
  have hresumes := resumes_visible hk hp hbracketed hbusy
  refine ⟨hresumes, ?_, hresumes.of_visible⟩
  intro hall front blanks word hfirst
  exact hresumes.visible hall hfirst

theorem resumes_iff_visible_unquoted :
    Resumes (fun word => word = "B") (fun _ => True) "A \x7bx\nB 1" 0 ⟨"\x7bx", ⟨2, 1, 3⟩, true⟩ := by
  let k : Token := ⟨"A", ⟨0, 1, 1⟩, 4, some ⟨"\x7bx", ⟨2, 1, 3⟩, true⟩, some (.unclosed .brace)⟩
  have hk : (ofText (fun word => word = "B") "A \x7bx\nB 1").tokens[0]? = some k := by decide +kernel
  have hvisible : ∀ front ∈ (Text.ofString "\x7bx\nB 1").inits, Visible front := by decide +kernel
  apply (resumes_iff_visible hk rfl rfl (by decide +kernel)).2.mpr
  rintro front - - ⟨⟨line, ht, -⟩, -⟩
  exact hvisible front ((List.mem_inits ..).mpr ⟨_, ht.symm⟩)

/-- A backslash at the end of a line lets the payload run over the command below. -/
theorem not_resumes_escaped : ∃ k p,
    (ofText (fun word => word = "B") "A \x7bx: 'y\\\nB 1").tokens[0]? = some k ∧ k.payload = some p ∧
      p.bracketed = true ∧ Busy ((Text.ofString "A \x7bx: 'y\\\nB 1").drop p.start.offset) ∧
      ¬Resumes (fun word => word = "B") (fun _ => True) "A \x7bx: 'y\\\nB 1" 0 p := by
  let p : RawPayload := ⟨"\x7bx: 'y\\\nB 1", ⟨2, 1, 3⟩, true⟩
  refine ⟨⟨"A", ⟨0, 1, 1⟩, 13, some p, some (.unclosed .brace)⟩, p, by decide +kernel, rfl, rfl,
    by decide +kernel, ?_⟩
  intro hresumes
  have hleast : ∀ n < (Text.ofString "\x7bx: 'y\\\nB 1").length,
      (Text.ofString "\x7bx: 'y\\\nB 1")[n]? = some ('\n' : CodeUnit) →
        (Text.ofString "\x7bx: 'y\\").length ≤ n := by
    decide +kernel
  have hfirst : FirstCommand (fun word => word = "B") (fun _ => True) "\x7bx: 'y\\\nB 1" "\x7bx: 'y\\" "" "B" := by
    have hspace : ∀ c ∈ (Text.ofString " 1").head?, isNameUnit c = false := by
      rintro c ⟨⟩
      decide
    have hbehind : ∀ c ∈ ((Text.ofString " 1").dropWhile CodeUnit.isBlank).head?, c ≠ ':' ∧ c ≠ ',' := by
      rintro c ⟨⟩
      decide
    have hcommand : CommandAt (fun word => word = "B") "B 1" "" "B" :=
      ⟨" 1", by decide +kernel, by decide +kernel,
        ⟨⟨'B', [], by decide +kernel, by decide +kernel⟩, by decide +kernel⟩, hspace, by decide, hbehind⟩
    refine ⟨⟨"B 1", by decide +kernel, trivial, hcommand⟩, ?_⟩
    intro front line _ _ ht _ _
    have hbreak := getElem?_lineBreak ht
    exact hleast front.length (List.getElem?_eq_some_iff.mp hbreak).1 hbreak
  exact absurd (hresumes.command _ _ _ hfirst).1 (by decide +kernel)

end Tokens
end QueryLint
