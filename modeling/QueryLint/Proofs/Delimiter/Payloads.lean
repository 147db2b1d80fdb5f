import QueryLint.Proofs.Delimiter.Depth
import QueryLint.Proofs.Positions

/-!
Where the bracketed payload of a token stands, and what is cut from the text behind it.
-/

namespace QueryLint
set_option autoImplicit false

namespace Chunk

theorem exists_clauseForm_at {isKeyword : Text → Bool} {text : Text} {pre post : List Chunk}
    {cl : Clause} (h : ofText isKeyword text = pre ++ clause cl :: post) :
    ∃ name blanks rest, ClauseForm isKeyword name blanks rest cl ∧
      text = texts pre ++ (name ++ (blanks ++ rest)) := by
  obtain ⟨v, hpre, hv⟩ := Cut.of_ofText h
  cases v with
  | nil => simp at hv
  | cons c u =>
    rw [ofText_cons] at hv
    have hform := first_form isKeyword c u
    rw [(List.cons.inj hv).1] at hform
    cases hform with
    | clause =>
      refine ⟨_, _, _, clauseAt_form isKeyword (c :: u), ?_⟩
      rw [List.takeWhile_append_dropWhile, List.takeWhile_append_dropWhile]
      exact hpre.text_eq

theorem exists_bracketed {isKeyword : Text → Bool} {text : Text} {pre post : List Chunk} {cl : Clause}
    (h : ofText isKeyword text = pre ++ clause cl :: post) {payload : PayloadText}
    (hpayload : cl.payload = some payload) (hbracketed : payload.bracketed = true) :
    ∃ (bracket : Bracket) (rest : Text),
      text = texts pre ++ (cl.name ++ (cl.gap ++ bracket.opening :: rest)) ∧
      cl = bracketedClause isKeyword cl.name cl.gap bracket (bracket.opening :: rest) := by
  obtain ⟨name, blanks, rest, hform, htext⟩ := exists_clauseForm_at h
  cases hform with
  | ended => cases hpayload
  | bare => cases hpayload
  | @bracketed c u bracket hopening =>
    obtain rfl := Bracket.eq_opening hopening
    exact ⟨bracket, u, htext, rfl⟩
  | line =>
    simp only [lineClause] at hpayload
    split at hpayload
    · cases hpayload
    · cases hpayload
      cases hbracketed

theorem bracketed_of_fault {isKeyword : Text → Bool} {text : Text} {pre post : List Chunk} {cl : Clause}
    (h : ofText isKeyword text = pre ++ clause cl :: post) {payload : PayloadText}
    (hpayload : cl.payload = some payload) (hfault : payload.fault ≠ none) : payload.bracketed = true := by
  obtain ⟨name, blanks, rest, hform, -⟩ := exists_clauseForm_at h
  cases hform with
  | ended => cases hpayload
  | bare => cases hpayload
  | bracketed =>
    cases hpayload
    rfl
  | line =>
    simp only [lineClause] at hpayload
    split at hpayload
    · cases hpayload
    · cases hpayload
      exact absurd rfl hfault

theorem bracketedLength_of_fault {isKeyword : Text → Bool} {bracket : Bracket} {rest : Text}
    (h : (Delimiter.extent (startsCommand isKeyword) bracket rest).fault ≠ none) :
    bracketedLength isKeyword bracket (bracket.opening :: rest) =
      (Delimiter.extent (startsCommand isKeyword) bracket rest).length := by
  unfold bracketedLength
  cases hextent : (Delimiter.extent (startsCommand isKeyword) bracket rest).fault with
  | none => exact absurd hextent h
  | some fault => simp only [List.drop_one, List.tail_cons, hextent]

/-- What is not balanced is cut where the scanner says. -/
theorem text_of_fault {isKeyword : Text → Bool} {name gap : Text} {bracket : Bracket} {rest : Text}
    {payload : PayloadText}
    (h : (bracketedClause isKeyword name gap bracket (bracket.opening :: rest)).payload = some payload) :
    payload.fault = (Delimiter.extent (startsCommand isKeyword) bracket rest).fault ∧
      (payload.fault ≠ none → payload.text = Text.trimEnd ((bracket.opening :: rest).take
        (Delimiter.extent (startsCommand isKeyword) bracket rest).length)) := by
  cases h
  refine ⟨rfl, fun hfault => ?_⟩
  exact congrArg (fun n => Text.trimEnd ((bracket.opening :: rest).take n))
    (bracketedLength_of_fault hfault)

end Chunk

theorem Token.name_ofClause (p : Position) (cl : Clause) : (Token.ofClause p cl).name = cl.name := by
  unfold ofClause
  split
  · rfl
  · rfl

theorem Token.payload_ofClause {p : Position} {cl : Clause} {payload : PayloadText}
    (h : cl.payload = some payload) : (Token.ofClause p cl).payload =
      some ⟨payload.text, p.after (cl.name ++ cl.gap), payload.bracketed⟩ := by
  unfold ofClause
  rw [h, Position.after_append]

theorem Token.exists_payload {q : Position} {cl : Clause} {p : RawPayload}
    (h : (Token.ofClause q cl).payload = some p) : ∃ payload, cl.payload = some payload ∧
      p = ⟨payload.text, q.after (cl.name ++ cl.gap), payload.bracketed⟩ := by
  cases hpayload : cl.payload with
  | none =>
    unfold ofClause at h
    rw [hpayload] at h
    cases h
  | some payload =>
    rw [payload_ofClause hpayload] at h
    exact ⟨payload, rfl, (Option.some.inj h).symm⟩

theorem Token.fault_ofClause {p : Position} {cl : Clause} :
    (Token.ofClause p cl).fault = cl.payload.bind (·.fault) := by
  unfold ofClause
  split
  · rename_i h
    rw [h]
    rfl
  · rename_i h
    rw [h]
    rfl

namespace Tokens
open Chunk

theorem ofChunks_count (p : Position) (count count' : Nat) (cs : List Chunk) :
    (ofChunks p count cs).tokens = (ofChunks p count' cs).tokens := by
  induction cs generalizing p count count' with
  | nil => rfl
  | cons chunk cs ih =>
    cases chunk with
    | skipped text => exact ih ..
    | stray line => exact ih ..
    | clause cl => exact congrArg (Token.ofClause p cl :: ·) (ih ..)

theorem exists_clause_of_getElem? {p : Position} {count : Nat} {cs : List Chunk} {i : Nat} {k : Token}
    (h : (ofChunks p count cs).tokens[i]? = some k) : ∃ pre cl post, cs = pre ++ clause cl :: post ∧
      k = .ofClause (p.after (texts pre)) cl ∧ (ofChunks p count cs).tokens.drop (i + 1) =
        (ofChunks (p.after (texts pre ++ cl.text)) 0 post).tokens := by
  induction cs generalizing p count i with
  | nil => cases h
  | cons chunk cs ih =>
    have hnext : ∀ (count : Nat) {i : Nat}, (ofChunks (p.after chunk.text) count cs).tokens[i]? = some k →
        ∃ pre cl post, chunk :: cs = pre ++ clause cl :: post ∧ k = .ofClause (p.after (texts pre)) cl ∧
          (ofChunks (p.after chunk.text) count cs).tokens.drop (i + 1) =
            (ofChunks (p.after (texts pre ++ cl.text)) 0 post).tokens := by
      intro count i h
      obtain ⟨pre, cl, post, rfl, rfl, hdrop⟩ := ih h
      refine ⟨chunk :: pre, cl, post, rfl, ?_, ?_⟩
      · rw [texts_cons, Position.after_append]
      · simp only [hdrop, texts_cons, Position.after_append]
    cases chunk with
    | skipped text => exact hnext _ h
    | stray line => exact hnext _ h
    | clause cl =>
      cases i with
      | zero =>
        obtain rfl := Option.some.inj h
        exact ⟨[], cl, cs, rfl, rfl, ofChunks_count ..⟩
      | succ i => exact hnext (count + 1) h

section
variable {isKeyword : Text → Bool} {text : Text} {i : Nat} {k : Token}

theorem exists_payload_of_fault (hk : (ofText isKeyword text).tokens[i]? = some k)
    (hf : k.fault ≠ none) : ∃ p, k.payload = some p ∧ p.bracketed = true := by
  obtain ⟨pre, cl, post, hcs, rfl, -⟩ := exists_clause_of_getElem? hk
  rw [Token.fault_ofClause] at hf
  cases hpayload : cl.payload with
  | none =>
    rw [hpayload] at hf
    exact absurd rfl hf
  | some payload =>
    rw [hpayload] at hf
    exact ⟨_, Token.payload_ofClause hpayload, bracketed_of_fault hcs hpayload hf⟩

/-- Where a bracketed payload stands in the text. If it has a fault, the payload and the tokens
behind it are what the scanner cuts. -/
theorem exists_extent {p : RawPayload} (hk : (ofText isKeyword text).tokens[i]? = some k)
    (hp : k.payload = some p) (hbracketed : p.bracketed = true) :
    ∃ (u : Text) (bracket : Bracket) (rest : Text), text = u ++ bracket.opening :: rest ∧
      p.start.offset = u.length ∧
      k.fault = (Delimiter.extent (startsCommand isKeyword) bracket rest).fault ∧
      (k.fault ≠ none → p.text = Text.trimEnd ((bracket.opening :: rest).take
          (Delimiter.extent (startsCommand isKeyword) bracket rest).length) ∧
        (ofText isKeyword text).tokens.drop (i + 1) =
          (ofChunks (Position.start.after (u ++ (bracket.opening :: rest).take
              (Delimiter.extent (startsCommand isKeyword) bracket rest).length)) 0
            (Chunk.ofText isKeyword ((bracket.opening :: rest).drop
              (Delimiter.extent (startsCommand isKeyword) bracket rest).length))).tokens) := by
  obtain ⟨pre, cl, post, hcs, rfl, hrest⟩ := exists_clause_of_getElem? hk
  obtain ⟨payload, hpayload, rfl⟩ := Token.exists_payload hp
  obtain ⟨bracket, rest, htext, hcl⟩ := Chunk.exists_bracketed hcs hpayload hbracketed
  have hfault : (Token.ofClause (Position.start.after (texts pre)) cl).fault = payload.fault := by
    rw [Token.fault_ofClause, hpayload]
    rfl
  rw [hcl] at hpayload
  obtain ⟨hextent, hcut⟩ := text_of_fault hpayload
  refine ⟨texts pre ++ (cl.name ++ cl.gap), bracket, rest, by simp [htext], ?_, hfault.trans hextent, ?_⟩
  · rw [← Position.after_append, Position.offset_start_after]
  · rw [hfault]
    intro hne
    refine ⟨hcut hne, ?_⟩
    rw [hextent] at hne
    have hlength := bracketedLength_of_fault hne
    generalize (Delimiter.extent (startsCommand isKeyword) bracket rest).length = n at hlength
    have hclause : cl.text = cl.name ++ cl.gap ++ (bracket.opening :: rest).take n := by
      rw [hcl, text_bracketedClause, hlength]
      rfl
    -- What the clause leaves of the text is what the scanner leaves of the payload.
    have hsplit : Chunk.ofText isKeyword text = (pre ++ [clause cl]) ++ post := by
      rw [hcs, List.append_cons]
    obtain ⟨v, hv, hpost⟩ := Cut.of_ofText hsplit
    have hbehind := hv.text_eq
    rw [texts_append, texts_cons, texts_nil, List.append_nil, Chunk.text, hclause] at hbehind
    have hdrop : (bracket.opening :: rest).drop n = v := by
      rw [hbehind] at htext
      simp only [List.append_assoc] at htext
      have hlast := List.append_cancel_left (List.append_cancel_left (List.append_cancel_left htext))
      exact List.append_cancel_left ((List.take_append_drop ..).trans hlast.symm)
    rw [hdrop, hpost, List.append_assoc, ← hclause]
    exact hrest

end

end Tokens

end QueryLint
