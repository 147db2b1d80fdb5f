import QueryLint.Proofs.Chunks
import QueryLint.Proofs.Grouping

/-!
Commands of chunks.

Every clause of a text gives one command, which depends on the clause but for its index and its
place. So the same chunks elsewhere give the same commands, moved.
-/

namespace QueryLint
set_option autoImplicit false

namespace Chunk

def IsClause : Chunk → Prop
  | clause _ => True
  | _ => False

def IsStray : Chunk → Prop
  | stray _ => True
  | _ => False

end Chunk

open Chunk

def Command.ofClause (dialect : Dialect) (index : Nat) (p : Position) (cl : Clause) : Command :=
  .ofToken dialect none index (.ofClause p cl)

def commandsOf (dialect : Dialect) (index : Nat) (p : Position) : List Chunk → List Command
  | [] => []
  | .clause cl :: cs =>
    .ofClause dialect index p cl :: commandsOf dialect (index + 1) (p.after cl.text) cs
  | .skipped t :: cs => commandsOf dialect index (p.after t) cs
  | .stray t :: cs => commandsOf dialect index (p.after t) cs

section Commands
variable (dialect : Dialect)

theorem ofTokens_ofChunks (index count : Nat) (p : Position) (cs : List Chunk) :
    Command.ofTokens dialect index (Tokens.ofChunks p count cs).tokens = commandsOf dialect index p cs := by
  induction cs generalizing index count p with
  | nil => rfl
  | cons chunk cs ih =>
    cases chunk with
    | skipped t => exact ih index count (p.after t)
    | stray t => exact ih index count (p.after t)
    | clause cl => exact congrArg (_ :: ·) (ih (index + 1) (count + 1) (p.after cl.text))

theorem commandsOf_append (index : Nat) (p : Position) (xs ys : List Chunk) :
    commandsOf dialect index p (xs ++ ys) = commandsOf dialect index p xs ++
      commandsOf dialect (index + (commandsOf dialect index p xs).length) (p.after (texts xs)) ys := by
  induction xs generalizing index p with
  | nil => rfl
  | cons chunk xs ih =>
    cases chunk with
    | skipped t => simp [commandsOf, ih, text, Position.after_append]
    | stray t => simp [commandsOf, ih, text, Position.after_append]
    | clause cl =>
      simp [commandsOf, ih, text, Position.after_append, Nat.add_assoc, Nat.add_comm 1]

theorem commandsOf_eq_nil {cs : List Chunk} (h : ∀ chunk ∈ cs, ¬chunk.IsClause) (index : Nat)
    (p : Position) : commandsOf dialect index p cs = [] := by
  induction cs generalizing p with
  | nil => rfl
  | cons chunk cs ih =>
    have hcs := ih fun chunk hchunk => h chunk (List.mem_cons_of_mem _ hchunk)
    cases chunk with
    | skipped t => exact hcs (p.after t)
    | stray t => exact hcs (p.after t)
    | clause cl => exact absurd trivial (h _ List.mem_cons_self)

theorem length_commandsOf (index index' : Nat) (p p' : Position) (cs : List Chunk) :
    (commandsOf dialect index p cs).length = (commandsOf dialect index' p' cs).length := by
  induction cs generalizing index index' p p' with
  | nil => rfl
  | cons chunk cs ih =>
    cases chunk with
    | skipped t => exact ih index index' _ _
    | stray t => exact ih index index' _ _
    | clause cl => exact congrArg (· + 1) (ih (index + 1) (index' + 1) _ _)

theorem ofClause_kept {σ : Nat → Nat} {index index' : Nat} (h : σ index = index') (p p' : Position)
    (cl : Clause) :
    (Command.ofClause dialect index p cl).Kept σ (Command.ofClause dialect index' p' cl) := by
  subst h
  obtain ⟨name, gap, payload, tail⟩ := cl
  unfold Command.Kept
  cases payload with
  | none => rfl
  | some payload =>
    obtain ⟨text, bracketed, fault⟩ := payload
    cases fault <;> rfl

theorem commandsOf_kept {σ : Nat → Nat} {index index' : Nat} {cs : List Chunk} {p : Position}
    (h : ∀ k < (commandsOf dialect index p cs).length, σ (index + k) = index' + k) (p' : Position) :
    List.Forall₂ (Command.Kept σ) (commandsOf dialect index p cs) (commandsOf dialect index' p' cs) := by
  induction cs generalizing index index' p p' with
  | nil => exact .nil
  | cons chunk cs ih =>
    cases chunk with
    | skipped t => exact ih h (p'.after t)
    | stray t => exact ih h (p'.after t)
    | clause cl =>
      refine .cons (ofClause_kept dialect (h 0 (by simp [commandsOf])) p p' cl) (ih ?_ (p'.after cl.text))
      intro k hk
      have hnext := h (k + 1) (by simpa [commandsOf] using hk)
      rw [Nat.add_right_comm, Nat.add_assoc, hnext]
      omega

/-- A command of the chunks comes from a clause among them. -/
theorem commandsOf_split {index : Nat} {p : Position} {cs : List Chunk} {front back : List Command}
    {c : Command} (h : commandsOf dialect index p cs = front ++ c :: back) :
    ∃ pre cl post, cs = pre ++ .clause cl :: post ∧ commandsOf dialect index p pre = front ∧
      c = .ofClause dialect (index + front.length) (p.after (texts pre)) cl ∧
      back = commandsOf dialect (index + front.length + 1) (p.after (texts pre ++ cl.text)) post := by
  induction cs generalizing index p front with
  | nil => simp [commandsOf] at h
  | cons chunk cs ih =>
    cases chunk with
    | skipped t =>
      obtain ⟨pre, cl, post, rfl, hfront, hc, hback⟩ := ih h
      refine ⟨.skipped t :: pre, cl, post, rfl, hfront, ?_, ?_⟩
      · simpa [text, Position.after_append] using hc
      · simpa [text, Position.after_append] using hback
    | stray t =>
      obtain ⟨pre, cl, post, rfl, hfront, hc, hback⟩ := ih h
      refine ⟨.stray t :: pre, cl, post, rfl, hfront, ?_, ?_⟩
      · simpa [text, Position.after_append] using hc
      · simpa [text, Position.after_append] using hback
    | clause cl =>
      cases front with
      | nil =>
        simp only [commandsOf, List.nil_append, List.cons.injEq] at h
        obtain ⟨rfl, rfl⟩ := h
        exact ⟨[], cl, cs, rfl, rfl, rfl, rfl⟩
      | cons d front =>
        simp only [commandsOf, List.cons_append, List.cons.injEq] at h
        obtain ⟨rfl, h⟩ := h
        obtain ⟨pre, cl', post, rfl, hfront, hc, hback⟩ := ih h
        refine ⟨.clause cl :: pre, cl', post, rfl, by rw [commandsOf, hfront], ?_, ?_⟩
        · simpa [text, Position.after_append, Nat.add_assoc, Nat.add_comm 1] using hc
        · simpa [text, Position.after_append, Nat.add_assoc, Nat.add_comm 1] using hback

theorem strays_ofChunks (p : Position) (count : Nat) (cs : List Chunk) :
    (Tokens.ofChunks p count cs).strays = [] ↔ ∀ chunk ∈ cs, ¬chunk.IsStray := by
  induction cs generalizing p count with
  | nil => simp [Tokens.ofChunks]
  | cons chunk cs ih =>
    cases chunk <;> simp [Tokens.ofChunks, ih, IsStray]

end Commands
end QueryLint
