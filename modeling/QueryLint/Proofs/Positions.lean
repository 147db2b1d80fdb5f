import Mathlib.Data.List.Count
import Mathlib.Data.List.Induction
import QueryLint.Proofs.Boundaries

/-!
Where the tokens and strays of a text stand.

Chunks concatenate to the text, so a token is found in the text at the offset that it reports, and
its line and column follow from what stands before that offset. Tokens and strays come in the order
of the text and share nothing.
-/

namespace QueryLint
set_option autoImplicit false

def Text.slice (t : Text) (i j : Nat) : Text := (t.take j).drop i

theorem Text.slice_middle (u v w : Text) :
    Text.slice (u ++ (v ++ w)) u.length (u.length + v.length) = v := by
  rw [Text.slice, List.take_length_add_append, List.drop_left, List.take_left]

theorem Text.getLast_trimEnd {t : Text} {c : CodeUnit} (h : c ∈ (Text.trimEnd t).getLast?) :
    c.isSpace = false := by
  rcases Text.trimEnd_end t with hnil | ⟨w, d, hw, hd⟩
  · rw [hnil] at h
    cases h
  · rw [hw, List.getLast?_concat, Option.mem_some] at h
    exact h ▸ hd

namespace Position

/-- The place at an offset of a text: its line is one more than the line breaks before it, and its
column is one more than the units behind the last of these. -/
def ofOffset (t : Text) (offset : Nat) : Position :=
  ⟨offset, 1 + (t.take offset).count ('\n' : CodeUnit),
    1 + ((t.take offset).reverse.takeWhile fun c : CodeUnit => c ≠ '\n').length⟩

@[simp] theorem offset_start : start.offset = 0 := rfl

theorem start_after (u : Text) : start.after u = ofOffset u u.length := by
  rw [ofOffset, List.take_length]
  induction u using List.reverseRecOn with
  | nil => rfl
  | append_singleton u c ih =>
    rw [after_append, ih]
    by_cases hc : c = CodeUnit.ofChar '\n'
    · simp [after, next, hc, Nat.add_assoc]
    · simp [after, next, hc]
      omega

theorem offset_start_after (u : Text) : (start.after u).offset = u.length := by simp

theorem ofOffset_append (u v : Text) : ofOffset (u ++ v) u.length = start.after u := by
  rw [start_after, ofOffset, ofOffset, List.take_left, List.take_length]

end Position

/-- A payload is found in the text where it says: only blanks stand between it and the end of the
name, it goes up to the end of the token, and it does not end in white space. -/
structure RawPayload.At (t : Text) (nameEnd stop : Nat) (p : RawPayload) : Prop where
  behind : nameEnd ≤ p.start.offset
  blanks : ∀ c ∈ t.slice nameEnd p.start.offset, CodeUnit.isBlank c = true
  text : p.text = t.slice p.start.offset stop
  trimmed : ∀ c ∈ p.text.getLast?, CodeUnit.isSpace c = false
  start : p.start = .ofOffset t p.start.offset

/-- A token is found in the text where it says; without a payload it ends with its name. -/
structure Token.At (t : Text) (k : Token) : Prop where
  named : ∃ c u, k.name = c :: u ∧ c.isLetter = true ∧ ∀ d ∈ u, Chunk.isNameUnit d = true
  name : k.name = t.slice k.start.offset (k.start.offset + k.name.length)
  start : k.start = .ofOffset t k.start.offset
  bare : k.payload = none → k.stop = k.start.offset + k.name.length
  payload : ∀ p ∈ k.payload, p.At t (k.start.offset + k.name.length) k.stop
  nonempty : k.start.offset < k.stop
  inside : k.stop ≤ t.length

namespace Stray

def tokensBefore (s : Stray) : Nat :=
  match s.after with
  | none => 0
  | some index => index + 1

def lastIndex (count : Nat) : Option Nat := if count = 0 then none else some (count - 1)

@[simp] theorem tokensBefore_lastIndex (text : Text) (start : Position) (count : Nat) :
    tokensBefore ⟨text, start, lastIndex count⟩ = count := by
  unfold tokensBefore lastIndex
  cases count <;> rfl

end Stray

structure Stray.At (t : Text) (s : Stray) : Prop where
  text : s.text = t.slice s.start.offset (s.start.offset + s.text.length)
  start : s.start = .ofOffset t s.start.offset

/-- Tokens and strays that stand in a text from an offset on, behind `count` other tokens. -/
structure Tokens.Laid (t : Text) (offset count : Nat) (ts : Tokens) : Prop where
  tokens : ∀ k ∈ ts.tokens, k.At t
  strays : ∀ s ∈ ts.strays, s.At t
  tokensBehind : ∀ k ∈ ts.tokens, offset ≤ k.start.offset
  straysBehind : ∀ s ∈ ts.strays, offset ≤ s.start.offset
  tokensOrdered : ts.tokens.Pairwise fun k k' => k.stop ≤ k'.start.offset
  straysOrdered : ts.strays.Pairwise fun s s' =>
    s.start.offset < s'.start.offset ∧ s.start.offset + s.text.length ≤ s'.start.offset
  apart : ∀ k ∈ ts.tokens, ∀ s ∈ ts.strays,
    k.stop ≤ s.start.offset ∨ s.start.offset + s.text.length ≤ k.start.offset
  counted : ∀ s ∈ ts.strays,
    s.tokensBefore = count + ts.tokens.countP fun k => k.start.offset < s.start.offset

/-- A clause as it is cut: a name, blanks, and a payload that does not end in white space. -/
structure Clause.Formed (cl : Clause) : Prop where
  name : ∃ c u, cl.name = c :: u ∧ c.isLetter = true ∧ ∀ d ∈ u, Chunk.isNameUnit d = true
  gap : ∀ c ∈ cl.gap, CodeUnit.isBlank c = true
  payload : ∀ p ∈ cl.payload, ∀ c ∈ p.text.getLast?, CodeUnit.isSpace c = false

namespace Chunk

theorem ClauseForm.formed {isKeyword : Text → Bool} {name blanks rest : Text} {cl : Clause}
    (h : ClauseForm isKeyword name blanks rest cl)
    (hname : ∃ c u, name = c :: u ∧ c.isLetter = true ∧ ∀ d ∈ u, isNameUnit d = true)
    (hblanks : ∀ c ∈ blanks, CodeUnit.isBlank c = true) : cl.Formed := by
  cases h with
  | ended => exact ⟨hname, by simp, by simp⟩
  | bare => exact ⟨hname, by simp, by simp⟩
  | bracketed =>
    refine ⟨hname, hblanks, ?_⟩
    rintro payload ⟨⟩ c hc
    exact Text.getLast_trimEnd hc
  | @line c u =>
    refine ⟨hname, hblanks, ?_⟩
    intro payload hpayload d hd
    simp only [lineClause] at hpayload
    split at hpayload
    · cases hpayload
    · cases hpayload
      exact Text.getLast_trimEnd hd

theorem exists_first {isKeyword : Text → Bool} {t : Text} {chunk : Chunk}
    (h : chunk ∈ ofText isKeyword t) : ∃ c u, chunk = first isKeyword c u := by
  obtain ⟨front, back, hsplit⟩ := List.append_of_mem h
  obtain ⟨v, -, hv⟩ := Cut.of_ofText hsplit
  cases v with
  | nil => simp at hv
  | cons c u =>
    rw [ofText_cons] at hv
    exact ⟨c, u, (List.cons.inj hv).1.symm⟩

theorem text_ne_nil {isKeyword : Text → Bool} {t : Text} {chunk : Chunk}
    (h : chunk ∈ ofText isKeyword t) : chunk.text ≠ [] := by
  obtain ⟨c, u, rfl⟩ := exists_first h
  exact first_ne_nil isKeyword c u

theorem exists_clauseForm {isKeyword : Text → Bool} {t : Text} {cl : Clause}
    (h : clause cl ∈ ofText isKeyword t) :
    ∃ name blanks rest, ClauseForm isKeyword name blanks rest cl ∧
      (∃ c u, name = c :: u ∧ c.isLetter = true ∧ ∀ d ∈ u, isNameUnit d = true) ∧
      ∀ c ∈ blanks, CodeUnit.isBlank c = true := by
  obtain ⟨c, u, hfirst⟩ := exists_first h
  have hform := first_form isKeyword c u
  rw [← hfirst] at hform
  cases hform with
  | clause hstart =>
    refine ⟨_, _, _, clauseAt_form isKeyword (c :: u), ?_, fun d hd => List.mem_takeWhile_imp hd⟩
    have hletter : c.isLetter = true := hstart
    have hunit : isNameUnit c = true := by simp [isNameUnit, hletter]
    rw [List.takeWhile_cons_of_pos hunit]
    exact ⟨c, _, rfl, hletter, fun d hd => List.mem_takeWhile_imp hd⟩

theorem formed_of_mem {isKeyword : Text → Bool} {t : Text} {cl : Clause}
    (h : clause cl ∈ ofText isKeyword t) : cl.Formed := by
  obtain ⟨name, blanks, rest, hform, hname, hblanks⟩ := exists_clauseForm h
  exact hform.formed hname hblanks

end Chunk

theorem RawPayload.at_behind {u gap text : Text} (v : Text) (bracketed : Bool)
    (hgap : ∀ c ∈ gap, CodeUnit.isBlank c = true)
    (htrimmed : ∀ c ∈ text.getLast?, CodeUnit.isSpace c = false) :
    RawPayload.At (u ++ (gap ++ (text ++ v))) u.length (u.length + gap.length + text.length)
      ⟨text, Position.start.after (u ++ gap), bracketed⟩ := by
  have hoffset : (Position.start.after (u ++ gap)).offset = u.length + gap.length := by
    rw [Position.offset_start_after, List.length_append]
  constructor
  case behind =>
    rw [hoffset]
    exact Nat.le_add_right _ _
  case blanks =>
    rw [hoffset, Text.slice_middle]
    exact hgap
  case text =>
    rw [hoffset, ← List.append_assoc, ← List.length_append, Text.slice_middle]
  case trimmed => exact htrimmed
  case start =>
    rw [hoffset, ← List.append_assoc, ← List.length_append, Position.ofOffset_append]

theorem Token.at_ofClause {cl : Clause} (h : cl.Formed) (u v : Text) :
    (Token.ofClause (Position.start.after u) cl).At (u ++ (cl.text ++ v)) := by
  have hoffset := Position.offset_start_after u
  have hinside := Token.stop_ofClause (Position.start.after u) cl
  obtain ⟨c, w, hname, hletter, hunits⟩ := h.name
  have hpos : 0 < cl.name.length := by rw [hname]; exact Nat.succ_pos _
  have hsplit : cl.text = cl.name ++ (cl.gap ++ ((cl.payload.map (·.text)).getD [] ++ cl.tail)) := by
    simp [Clause.text]
  have hnamed : (Token.ofClause (Position.start.after u) cl).name = cl.name := by
    unfold ofClause
    split <;> rfl
  constructor
  case named => exact ⟨c, w, hnamed.trans hname, hletter, hunits⟩
  case name =>
    rw [hnamed, start_ofClause, hoffset, hsplit, List.append_assoc, Text.slice_middle]
  case start => rw [start_ofClause, hoffset, Position.ofOffset_append]
  case bare =>
    intro hnone
    rw [hnamed, start_ofClause]
    unfold ofClause at hnone ⊢
    split at hnone
    · exact Position.offset_after _ _
    · cases hnone
  case payload =>
    intro p hp
    rw [hnamed, start_ofClause, hoffset, hsplit]
    unfold ofClause at hp ⊢
    split at hp
    · cases hp
    · rename_i payload hpayload
      cases hp
      have hat := RawPayload.at_behind (cl.tail ++ v) payload.bracketed h.gap (h.payload payload hpayload)
        (u := u ++ cl.name)
      simpa [hpayload, Position.after_append] using hat
  case nonempty =>
    rw [start_ofClause]
    unfold ofClause
    split
    · simp only [Position.offset_after]
      omega
    · simp only [Position.offset_after]
      omega
  case inside =>
    rw [hoffset] at hinside
    simp only [List.length_append]
    omega

theorem Stray.at_line (u line v : Text) (after : Option Nat) :
    Stray.At (u ++ (line ++ v)) ⟨Text.trimEnd line, Position.start.after u, after⟩ := by
  have hoffset := Position.offset_start_after u
  constructor
  case text =>
    obtain ⟨spaces, hline⟩ := Chunk.trimEnd_isPrefix line
    have hslice := Text.slice_middle u (Text.trimEnd line) (spaces ++ v)
    rw [← List.append_assoc (Text.trimEnd line), hline] at hslice
    dsimp only
    rw [hoffset, hslice]
  case start =>
    dsimp only
    rw [hoffset, Position.ofOffset_append]

namespace Tokens.Laid
variable {t : Text} {offset count : Nat} {ts : Tokens}

theorem mono {offset' : Nat} (h : Laid t offset' count ts) (hle : offset ≤ offset') :
    Laid t offset count ts :=
  { h with
    tokensBehind := fun k hk => hle.trans (h.tokensBehind k hk)
    straysBehind := fun s hs => hle.trans (h.straysBehind s hs) }

theorem stray {s : Stray} {stop : Nat} (h : Laid t stop count ts) (hat : s.At t)
    (hcount : s.tokensBefore = count) (hlt : s.start.offset < stop)
    (hle : s.start.offset + s.text.length ≤ stop) :
    Laid t s.start.offset count { ts with strays := s :: ts.strays } where
  tokens := h.tokens
  strays := List.forall_mem_cons.2 ⟨hat, h.strays⟩
  tokensBehind k hk := hlt.le.trans (h.tokensBehind k hk)
  straysBehind := List.forall_mem_cons.2 ⟨le_rfl, fun s' hs' => hlt.le.trans (h.straysBehind s' hs')⟩
  tokensOrdered := h.tokensOrdered
  straysOrdered := by
    refine List.pairwise_cons.2 ⟨?_, h.straysOrdered⟩
    intro s' hs'
    have hbehind := h.straysBehind s' hs'
    exact ⟨hlt.trans_le hbehind, hle.trans hbehind⟩
  apart k hk := by
    refine List.forall_mem_cons.2 ⟨?_, h.apart k hk⟩
    exact .inr (hle.trans (h.tokensBehind k hk))
  counted := by
    refine List.forall_mem_cons.2 ⟨?_, h.counted⟩
    -- the tokens of `ts` stand behind the stray, so they do not count for it
    have hnone : ts.tokens.countP (fun k => k.start.offset < s.start.offset) = 0 := by
      rw [List.countP_eq_zero]
      intro k hk
      have hbehind := h.tokensBehind k hk
      simp only [decide_eq_true_eq]
      omega
    rw [hcount, hnone, Nat.add_zero]

theorem token {k : Token} {stop : Nat} (h : Laid t stop (count + 1) ts) (hat : k.At t)
    (hle : k.stop ≤ stop) :
    Laid t k.start.offset count { ts with tokens := k :: ts.tokens } where
  tokens := List.forall_mem_cons.2 ⟨hat, h.tokens⟩
  strays := h.strays
  tokensBehind := by
    refine List.forall_mem_cons.2 ⟨le_rfl, fun k' hk' => ?_⟩
    exact (hat.nonempty.le.trans hle).trans (h.tokensBehind k' hk')
  straysBehind s hs := (hat.nonempty.le.trans hle).trans (h.straysBehind s hs)
  tokensOrdered := by
    refine List.pairwise_cons.2 ⟨?_, h.tokensOrdered⟩
    exact fun k' hk' => hle.trans (h.tokensBehind k' hk')
  straysOrdered := h.straysOrdered
  apart := List.forall_mem_cons.2 ⟨fun s hs => .inl (hle.trans (h.straysBehind s hs)), h.apart⟩
  counted s hs := by
    have hbefore : k.start.offset < s.start.offset :=
      (hat.nonempty.trans_le hle).trans_le (h.straysBehind s hs)
    rw [h.counted s hs, List.countP_cons_of_pos (by simpa using hbefore)]
    omega

end Tokens.Laid

/-- Chunks behind the text `u` give tokens and strays that stand there. -/
theorem Tokens.laid_ofChunks {cs : List Chunk} (u : Text) (count : Nat)
    (hclauses : ∀ cl, Chunk.clause cl ∈ cs → cl.Formed) (htexts : ∀ chunk ∈ cs, chunk.text ≠ []) :
    Laid (u ++ Chunk.texts cs) u.length count (ofChunks (Position.start.after u) count cs) := by
  induction cs generalizing u count with
  | nil => constructor <;> simp [ofChunks]
  | cons chunk cs ih =>
    -- what is behind the chunk is laid from its end on; no chunk is empty, so this is further on
    have hpos := List.length_pos_iff.2 (htexts chunk List.mem_cons_self)
    have hrest := fun count => ih (u ++ chunk.text) count
      (fun cl hcl => hclauses cl (List.mem_cons_of_mem _ hcl))
      (fun chunk' hchunk => htexts chunk' (List.mem_cons_of_mem _ hchunk))
    simp only [List.append_assoc, List.length_append, Position.after_append] at hrest
    rw [Chunk.texts_cons]
    cases chunk with
    | skipped text => exact (hrest count).mono (Nat.le_add_right _ _)
    | stray line =>
      have hat := Stray.at_line u line (Chunk.texts cs) (Stray.lastIndex count)
      have hstray := (hrest count).stray hat (Stray.tokensBefore_lastIndex _ _ _) ?_ ?_
      · rwa [Position.offset_start_after] at hstray
      · rw [Position.offset_start_after]
        exact Nat.lt_add_of_pos_right hpos
      · rw [Position.offset_start_after]
        exact Nat.add_le_add_left (Chunk.trimEnd_isPrefix line).length_le _
    | clause cl =>
      have htoken := (hrest (count + 1)).token
        (Token.at_ofClause (hclauses cl List.mem_cons_self) u (Chunk.texts cs)) ?_
      · rwa [Token.start_ofClause, Position.offset_start_after] at htoken
      · have hstop := Token.stop_ofClause (Position.start.after u) cl
        rw [Position.offset_start_after] at hstop
        exact Nat.le_of_add_right_le hstop.le

/-- The tokens and strays of a text stand where they say, in order and apart from one another. -/
theorem Tokens.laid_ofText (isKeyword : Text → Bool) (t : Text) :
    (Tokens.ofText isKeyword t).Laid t 0 0 := by
  have hlaid := Tokens.laid_ofChunks [] 0 (fun cl => @Chunk.formed_of_mem isKeyword t cl)
    (fun chunk => @Chunk.text_ne_nil isKeyword t chunk)
  rwa [Chunk.texts_ofText] at hlaid

end QueryLint
