import QueryLint.Proofs.Concatenation
import QueryLint.Proofs.Delimiter.Balance
import QueryLint.Proofs.Delimiter.Payloads

/-!
Keywords matter only for recovery.

The scanner asks at every line break inside a payload whether a command follows, but it uses the
answers only where the text ends with a bracket open, and then it reports a fault. So the chunks
before the first fault are the same whatever counts as a keyword.
-/

namespace QueryLint
set_option autoImplicit false

/-- The answers about commands do not change where a payload is closed. -/
theorem Delimiter.extent_congr {startsCommand : Text → Bool} (startsCommand' : Text → Bool)
    {bracket : Bracket} {rest : Text} (h : (extent startsCommand bracket rest).fault = none) :
    extent startsCommand' bracket rest = extent startsCommand bracket rest := by
  generalize hextent : extent startsCommand bracket rest = e at h
  obtain ⟨n, fault⟩ := e
  dsimp only at h
  subst h
  obtain ⟨w, found, u, rfl, -, hrun⟩ := Scan.closes_of_run hextent
  exact hrun startsCommand' none u

namespace Chunk

def Unfaulted : Chunk → Prop
  | skipped _ => True
  | stray _ => True
  | clause c => ∀ payload ∈ c.payload, payload.fault = none

section
variable {isKeyword : Text → Bool} (isKeyword' : Text → Bool)

theorem bracketedClause_congr {name gap : Text} {bracket : Bracket} {t : Text}
    (h : ∀ payload ∈ (bracketedClause isKeyword name gap bracket t).payload, payload.fault = none) :
    bracketedClause isKeyword' name gap bracket t = bracketedClause isKeyword name gap bracket t := by
  have hextent : (Delimiter.extent (startsCommand isKeyword) bracket (t.drop 1)).fault = none := h _ rfl
  unfold bracketedClause
  rw [Delimiter.extent_congr (startsCommand isKeyword') hextent]

theorem clauseAt_congr {t : Text}
    (h : ∀ payload ∈ (clauseAt isKeyword t).payload, payload.fault = none) :
    clauseAt isKeyword' t = clauseAt isKeyword t := by
  unfold clauseAt at h ⊢
  dsimp only at h ⊢
  generalize (t.dropWhile isNameUnit).dropWhile CodeUnit.isBlank = rest at h ⊢
  cases rest with
  | nil => rfl
  | cons c u =>
    cases hopen : Bracket.ofOpening? c with
    | some bracket =>
      simp only [hopen] at h ⊢
      exact bracketedClause_congr isKeyword' h
    | none => simp only [hopen]

theorem first_congr {c : CodeUnit} {u : Text} (h : (first isKeyword c u).Unfaulted) :
    first isKeyword' c u = first isKeyword c u := by
  unfold first at h ⊢
  split
  · rfl
  · split
    · rfl
    · split
      · rfl
      · split
        · rfl
        · rename_i hlayout hline hblock hname
          simp only [hlayout, hline, hblock, hname, Bool.false_eq_true, if_false] at h
          rw [clauseAt_congr isKeyword' h]

theorem Cut.congr {t v : Text} {cs : List Chunk} (h : Cut isKeyword t cs v)
    (hcs : ∀ chunk ∈ cs, chunk.Unfaulted) : Cut isKeyword' t cs v := by
  induction h with
  | done t => exact .done t
  | @chunk c u cs v _ ih =>
    have hfirst := first_congr isKeyword' (hcs _ List.mem_cons_self)
    rw [← hfirst] at ih ⊢
    exact .chunk (ih fun chunk hchunk => hcs chunk (List.mem_cons_of_mem _ hchunk))

theorem ofText_congr {t : Text} (h : ∀ chunk ∈ ofText isKeyword t, chunk.Unfaulted) :
    ofText isKeyword' t = ofText isKeyword t := by
  have hcut := ((Cut.all t).congr isKeyword' h).ofText_eq
  rwa [ofText_nil, List.append_nil] at hcut

end

theorem exists_balanced {isKeyword : Text → Bool} {name gap : Text} {bracket : Bracket} {rest : Text}
    {payload : PayloadText}
    (hpayload : (bracketedClause isKeyword name gap bracket (bracket.opening :: rest)).payload = some payload)
    (hfault : payload.fault = none) :
    ∃ w, Delimiter.Balanced w ∧ w <+: payload.text ∧ w <+: bracket.opening :: rest := by
  have hnone : ∀ payload ∈ (bracketedClause isKeyword name gap bracket (bracket.opening :: rest)).payload,
      payload.fault = none := by
    rw [hpayload]
    rintro _ ⟨⟩
    exact hfault
  have hextent : (Delimiter.extent (startsCommand isKeyword) bracket rest).fault = none := hnone _ rfl
  have hrecognises := (Delimiter.extent_outcome (startsCommand isKeyword) bracket rest).recognises
  obtain ⟨w, hw, hbalanced⟩ := hrecognises.sound_iff.mp hextent
  refine ⟨w, hbalanced, ?_, hw⟩
  -- nothing is trimmed from a payload without a fault, and it is no shorter than the balanced text
  have hlength : w.length ≤ bracketedLength isKeyword bracket (bracket.opening :: rest) := by
    have hle := extent_le_bracketedLength isKeyword bracket bracket.opening rest
    rwa [hrecognises.ends w hw hbalanced] at hle
  rw [text_of_balanced hnone hpayload, List.prefix_iff_eq_take.mp hw]
  exact List.take_prefix_take_left hlength

end Chunk

namespace Tokens
open Chunk

/-- In a text without faults nothing depends on what counts as a keyword: a payload holds the
balanced text at its bracket, whatever the lines in it start with. -/
theorem ofText_keywords {isKeyword : Text → Bool} {t : Text}
    (h : ∀ k ∈ (ofText isKeyword t).tokens, k.fault = none) (isKeyword' : Text → Bool) :
    ofText isKeyword' t = ofText isKeyword t ∧
      ∀ k ∈ (ofText isKeyword' t).tokens, ∀ p ∈ k.payload, p.bracketed = true →
        ∃ w, Delimiter.Balanced w ∧ w <+: p.text ∧ w <+: t.drop p.start.offset := by
  have hunfaulted : ∀ chunk ∈ Chunk.ofText isKeyword t, chunk.Unfaulted := by
    intro chunk hchunk
    cases chunk with
    | skipped text => trivial
    | stray line => trivial
    | clause cl => exact unfaulted_of_mem h hchunk
  have hsame : ofText isKeyword' t = ofText isKeyword t :=
    congrArg (ofChunks .start 0) (Chunk.ofText_congr isKeyword' hunfaulted)
  refine ⟨hsame, ?_⟩
  rw [hsame]
  intro k hk p hp hbracketed
  have hfault := h k hk
  obtain ⟨i, hi⟩ := List.mem_iff_getElem?.mp hk
  obtain ⟨pre, cl, post, hcs, rfl, -⟩ := exists_clause_of_getElem? hi
  obtain ⟨payload, hpayload, rfl⟩ := Token.exists_payload hp
  obtain ⟨bracket, rest, htext, hcl⟩ := exists_bracketed hcs hpayload hbracketed
  rw [Token.fault_ofClause, hpayload] at hfault
  rw [hcl] at hpayload
  have hdrop : t.drop (texts pre ++ (cl.name ++ cl.gap)).length = bracket.opening :: rest := by
    have hsplit : t = texts pre ++ (cl.name ++ cl.gap) ++ bracket.opening :: rest := htext.trans (by simp)
    rw [hsplit, List.drop_left]
  rw [← Position.after_append, Position.offset_start_after, hdrop]
  exact exists_balanced hpayload hfault

/-- A list with a keyword on a line of its own. -/
theorem ofText_keywords_list :
    (∀ k ∈ (ofText (fun _ => false) "PROJECT [\n  name,\n  load\n]\nBOUND 5").tokens, k.fault = none) ∧
      ofText (fun word => word = "load") "PROJECT [\n  name,\n  load\n]\nBOUND 5" =
        ofText (fun _ => false) "PROJECT [\n  name,\n  load\n]\nBOUND 5" := by
  have hfaults : ∀ k ∈ (ofText (fun _ => false) "PROJECT [\n  name,\n  load\n]\nBOUND 5").tokens,
      k.fault = none := by decide +kernel
  exact ⟨hfaults, (ofText_keywords hfaults fun word => word = "load").1⟩

end Tokens
end QueryLint
