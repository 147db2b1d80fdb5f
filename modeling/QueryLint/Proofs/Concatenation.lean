import QueryLint.Proofs.Positions

/-!
Texts put together line by line.

When the brackets of a text are balanced and its comments are closed, nothing in it reaches beyond
its last line. So the tokens and strays of two texts, the second on lines of its own, are those of
the first and then those of the second, moved down.
-/

namespace QueryLint
set_option autoImplicit false

namespace Position

/-- The place in a longer text: so many units and lines more stand before it. -/
def moved (units lines : Nat) (p : Position) : Position :=
  ⟨p.offset + units, p.line + lines, p.column⟩

@[simp] theorem offset_moved (units lines : Nat) (p : Position) :
    (p.moved units lines).offset = p.offset + units := rfl

theorem moved_next (units lines : Nat) (p : Position) (c : CodeUnit) :
    (p.moved units lines).next c = (p.next c).moved units lines := by
  unfold next
  split <;> simp [moved, Nat.add_right_comm]

theorem moved_after (units lines : Nat) (p : Position) (t : Text) :
    (p.moved units lines).after t = (p.after t).moved units lines := by
  induction t generalizing p with
  | nil => rfl
  | cons c t ih =>
    have hstep : ∀ q : Position, q.after (c :: t) = (q.next c).after t := fun _ => rfl
    rw [hstep, hstep, moved_next, ih]

theorem start_after_line (t : Text) : start.after (t ++ [('\n' : CodeUnit)]) =
    start.moved (t.length + 1) (t.count ('\n' : CodeUnit) + 1) := by
  rw [after_append, start_after]
  simp [after, next, ofOffset, moved, start]
  omega

end Position

def Token.moved (units lines : Nat) (k : Token) : Token :=
  { k with
    start := k.start.moved units lines
    stop := k.stop + units
    payload := k.payload.map fun p => { p with start := p.start.moved units lines } }

/-- The stray in a longer text with more tokens before it. -/
def Stray.moved (units lines tokens : Nat) (s : Stray) : Stray :=
  { s with start := s.start.moved units lines, after := lastIndex (s.tokensBefore + tokens) }

namespace Tokens

def moved (units lines tokens : Nat) (ts : Tokens) : Tokens :=
  ⟨ts.tokens.map (Token.moved units lines), ts.strays.map (Stray.moved units lines tokens)⟩

instance : Append Tokens := ⟨fun ts us => ⟨ts.tokens ++ us.tokens, ts.strays ++ us.strays⟩⟩

theorem append_def (ts us : Tokens) : ts ++ us = ⟨ts.tokens ++ us.tokens, ts.strays ++ us.strays⟩ := rfl

theorem ofChunks_stray (p : Position) (count : Nat) (line : Text) (cs : List Chunk) :
    ofChunks p count (.stray line :: cs) = ⟨(ofChunks (p.after line) count cs).tokens,
      ⟨Text.trimEnd line, p, Stray.lastIndex count⟩ :: (ofChunks (p.after line) count cs).strays⟩ := rfl

theorem ofChunks_append (p : Position) (count : Nat) (xs ys : List Chunk) :
    ofChunks p count (xs ++ ys) = ofChunks p count xs ++
      ofChunks (p.after (Chunk.texts xs)) (count + (ofChunks p count xs).tokens.length) ys := by
  induction xs generalizing p count with
  | nil => rfl
  | cons chunk xs ih =>
    rw [Chunk.texts_cons, Position.after_append]
    cases chunk with
    | skipped text => exact ih (p.after text) count
    | stray line =>
      simp only [List.cons_append, ofChunks_stray, ih, append_def, Chunk.text]
    | clause cl =>
      simp only [List.cons_append, ofChunks, ih, append_def, Chunk.text, List.length_cons,
        Nat.add_assoc, Nat.add_comm 1]

theorem moved_ofClause (units lines : Nat) (p : Position) (cl : Clause) :
    Token.ofClause (p.moved units lines) cl = (Token.ofClause p cl).moved units lines := by
  unfold Token.ofClause
  rw [Position.moved_after]
  cases cl.payload with
  | none => rfl
  | some payload =>
    simp only [Token.moved, Position.moved_after, Position.offset_moved, Option.map_some]
    rw [Nat.add_right_comm]

theorem ofChunks_moved (units lines tokens : Nat) (p : Position) (count : Nat) (cs : List Chunk) :
    ofChunks (p.moved units lines) (count + tokens) cs =
      (ofChunks p count cs).moved units lines tokens := by
  induction cs generalizing p count with
  | nil => rfl
  | cons chunk cs ih =>
    cases chunk with
    | skipped text =>
      rw [ofChunks, ofChunks, Position.moved_after, ih]
    | stray line =>
      have hrest := ih (p.after line) count
      rw [← Position.moved_after] at hrest
      simp only [ofChunks_stray, hrest, moved, List.map_cons, Stray.moved, Stray.tokensBefore_lastIndex]
    | clause cl =>
      have hrest := ih (p.after cl.text) (count + 1)
      rw [← Position.moved_after, Nat.add_right_comm] at hrest
      simp only [ofChunks, hrest, moved_ofClause]
      rfl

theorem unfaulted_of_mem {p : Position} {count : Nat} {cs : List Chunk}
    (h : ∀ k ∈ (ofChunks p count cs).tokens, k.fault = none) {cl : Clause}
    (hcl : Chunk.clause cl ∈ cs) : ∀ payload ∈ cl.payload, payload.fault = none := by
  obtain ⟨front, back, rfl⟩ := List.append_of_mem hcl
  rw [ofChunks_append, append_def] at h
  have hfault := h _ (List.mem_append_right _ List.mem_cons_self)
  intro payload hpayload
  rw [Option.mem_def] at hpayload
  simpa [Token.ofClause, hpayload] using hfault

/-- The chunks of a text stay as they are when more lines follow. -/
theorem chunks_append {isKeyword : Text → Bool} {a : Text}
    (hsettled : ∀ chunk ∈ Chunk.ofText isKeyword a, chunk.Settled) (b : Text) :
    Chunk.ofText isKeyword (a ++ ('\n' : CodeUnit) :: b) =
      Chunk.ofText isKeyword a ++ (.skipped ['\n'] :: Chunk.ofText isKeyword b) := by
  have hall : Chunk.Cut isKeyword (a ++ []) (Chunk.ofText isKeyword a) [] := by
    rw [List.append_nil]
    exact .all a
  have hfirst := hall.stable hsettled .nil (.lineBreak b)
  have hbreak : Chunk.Cut isKeyword (('\n' : CodeUnit) :: b) [.skipped ['\n']] b := Chunk.cut_first rfl
  rw [hfirst.ofText_eq, hbreak.ofText_eq]
  rfl

/-- The tokens and strays of two texts, the second on lines of its own. -/
theorem ofText_lines (isKeyword : Text → Bool) (a b : Text)
    (hfaults : ∀ k ∈ (ofText isKeyword a).tokens, k.fault = none)
    (hcomments : ∀ comment, .skipped comment ∈ Chunk.ofText isKeyword a →
      Chunk.startsBlockComment comment = true → Text.contains (comment.drop 2) "*/" = true) :
    ofText isKeyword (a ++ ('\n' : CodeUnit) :: b) = ofText isKeyword a ++
      (ofText isKeyword b).moved (a.length + 1) (a.count ('\n' : CodeUnit) + 1)
        (ofText isKeyword a).tokens.length := by
  -- a chunk reaches over the end of its text only through an open comment or an open bracket
  have hsettled : ∀ chunk ∈ Chunk.ofText isKeyword a, chunk.Settled := by
    intro chunk hchunk
    cases chunk with
    | skipped comment => exact hcomments comment hchunk
    | stray line => trivial
    | clause cl => exact unfaulted_of_mem hfaults hchunk
  have hchunks := chunks_append hsettled b
  have htexts := Chunk.texts_ofText isKeyword a
  have hmoved := ofChunks_moved (a.length + 1) (a.count ('\n' : CodeUnit) + 1)
    (ofText isKeyword a).tokens.length .start 0 (Chunk.ofText isKeyword b)
  rw [Nat.zero_add, ← Position.start_after_line, Position.after_append] at hmoved
  unfold ofText at hmoved ⊢
  rw [hchunks, ofChunks_append, htexts, Nat.zero_add, ofChunks]
  exact congrArg _ hmoved

/-- A comment over two lines, a stray and a payload over two lines, with a bracket and the end of a
comment behind them. -/
theorem ofText_lines_bracket :
    ofText (fun _ => false) (Text.ofString "/* a\n*/ ? b\nPROJECT [c,\n d]" ++
        ('\n' : CodeUnit) :: Text.ofString "] */\nEND") =
      ofText (fun _ => false) "/* a\n*/ ? b\nPROJECT [c,\n d]" ++
        (ofText (fun _ => false) "] */\nEND").moved 28 4 1 := by
  have hchunks : Chunk.ofText (fun _ => false) "/* a\n*/ ? b\nPROJECT [c,\n d]" =
      [.skipped "/* a\n*/", .skipped " ", .stray "? b", .skipped "\n",
        .clause ⟨"PROJECT", " ", some ⟨"[c,\n d]", true, none⟩, []⟩] := by decide +kernel
  have hclosed : ∀ comment, .skipped comment ∈ Chunk.ofText (fun _ => false)
      (Text.ofString "/* a\n*/ ? b\nPROJECT [c,\n d]") →
      Chunk.startsBlockComment comment = true → Text.contains (comment.drop 2) "*/" = true := by
    rw [hchunks]
    intro comment hmem hstart
    simp only [List.mem_cons, Chunk.skipped.injEq, reduceCtorEq, List.not_mem_nil, or_false,
      false_or] at hmem
    rcases hmem with rfl | rfl | rfl
    · decide +kernel
    · exact absurd hstart (by decide +kernel)
    · exact absurd hstart (by decide +kernel)
  have hlines := ofText_lines (fun _ => false) "/* a\n*/ ? b\nPROJECT [c,\n d]" "] */\nEND"
    (by decide +kernel) hclosed
  have hlength : (Text.ofString "/* a\n*/ ? b\nPROJECT [c,\n d]").length = 27 := by decide +kernel
  have hbreaks : (Text.ofString "/* a\n*/ ? b\nPROJECT [c,\n d]").count ('\n' : CodeUnit) = 3 := by
    decide +kernel
  have hcount : (ofText (fun _ => false) "/* a\n*/ ? b\nPROJECT [c,\n d]").tokens.length = 1 := by
    decide +kernel
  rwa [hlength, hbreaks, hcount] at hlines

end Tokens
end QueryLint
