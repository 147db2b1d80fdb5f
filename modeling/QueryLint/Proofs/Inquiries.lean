import QueryLint.Proofs.Histories
import QueryLint.Proofs.Records
import QueryLint.Rules.Fields

/-!
Lookups that are asked for one category after the other.

A lookup is asked for a category where it is mentioned first, and the answer is kept. So what is known
after some mentions is what the lookup says when it is asked for the categories without repetition, and
an answer does not depend on what is mentioned later.
-/

namespace QueryLint
set_option autoImplicit false

variable {σ : Type}

namespace Lookup
variable (lookup : Lookup σ) (s : σ)

/-- The state of a lookup that has been asked for some categories. -/
def after (categories : List Text) : σ := categories.foldl (fun s category => (lookup category s).2) s

def answer (categories : List Text) (category : Text) : Finding :=
  (lookup category (lookup.after s (categories.takeWhile fun name => name ≠ category))).1

theorem after_concat (categories : List Text) (category : Text) :
    lookup.after s (categories ++ [category]) = (lookup category (lookup.after s categories)).2 := by
  simp [after]

theorem answer_split {front : List Text} {category : Text} (h : category ∉ front) (back : List Text) :
    lookup.answer s (front ++ category :: back) category =
      (lookup category (lookup.after s front)).1 := by
  have hfront : ∀ name ∈ front, decide (name ≠ category) = true := fun name hname =>
    decide_eq_true fun heq => h (heq ▸ hname)
  rw [answer, List.takeWhile_append_of_pos hfront, List.takeWhile_cons_of_neg (by simp), List.append_nil]

theorem answer_append {categories : List Text} {category : Text} (h : category ∈ categories)
    (later : List Text) :
    lookup.answer s (categories ++ later) category = lookup.answer s categories category := by
  obtain ⟨front, back, rfl, hfront⟩ := List.eq_append_cons_of_mem h
  rw [List.append_assoc, List.cons_append, answer_split lookup s hfront, answer_split lookup s hfront]

/-- The answers after some mentions are those after all of them. -/
theorem answer_eraseDups {names : List Text} {category : Text} (h : category ∈ names) (later : List Text) :
    lookup.answer s (names ++ later).eraseDups category = lookup.answer s names.eraseDups category := by
  rw [List.eraseDups_append]
  exact lookup.answer_append s (List.mem_eraseDups.2 h) _

end Lookup

namespace Rules.Fields

def failures (answers : Text → Finding) (category : Text) : List Log.Entry :=
  ((failureReason? (answers category)).map (Log.lookupFailure category)).toList

structure Inquiry.Follows (lookup : Lookup σ) (s : σ) (names : List Text) (q : Inquiry σ) : Prop where
  source : q.source = lookup.after s names.eraseDups
  known : ∀ name, Record.get? q.known name =
    if name ∈ names then some (lookup.answer s names.eraseDups name) else none
  log : q.log = names.eraseDups.flatMap (failures (lookup.answer s names.eraseDups))

variable {lookup : Lookup σ} {s : σ} {names : List Text} {q : Inquiry σ}

theorem Inquiry.follows_start : Inquiry.Follows lookup s [] ⟨s, [], []⟩ := ⟨rfl, fun _ => rfl, rfl⟩

theorem ask_eq (h : q.Follows lookup s names) (category : Text) :
    (ask lookup category q).1 = lookup.answer s (names ++ [category]).eraseDups category ∧
      (ask lookup category q).2.Follows lookup s (names ++ [category]) := by
  have hknown := h.known category
  unfold ask
  by_cases hmem : category ∈ names
  · have hsame : (names ++ [category]).eraseDups = names.eraseDups := by
      rw [eraseDups_concat, if_pos hmem]
    rw [if_pos hmem] at hknown
    rw [hknown]
    refine ⟨by rw [hsame], by rw [hsame]; exact h.source, fun name => ?_, by rw [hsame]; exact h.log⟩
    rw [hsame, h.known name]
    by_cases hname : name = category <;> simp [hname, hmem]
  · have hnew : (names ++ [category]).eraseDups = names.eraseDups ++ [category] := by
      rw [eraseDups_concat, if_neg hmem]
    have hanswer : lookup.answer s (names ++ [category]).eraseDups category =
        (lookup category q.source).1 := by
      rw [hnew, h.source]
      exact lookup.answer_split s (fun hdup => hmem (List.mem_eraseDups.1 hdup)) []
    have hold : ∀ name ∈ names, lookup.answer s (names ++ [category]).eraseDups name =
        lookup.answer s names.eraseDups name := fun name hname => lookup.answer_eraseDups s hname _
    rw [if_neg hmem] at hknown
    rw [hknown]
    refine ⟨hanswer.symm, ?_, fun name => ?_, ?_⟩
    · rw [hnew, Lookup.after_concat, ← h.source]
    · dsimp only
      rw [Record.get?_set, h.known name]
      by_cases hname : name = category
      · simp [hname, ← hanswer]
      · by_cases hin : name ∈ names
        · simp [hname, hin, hold name hin]
        · simp [hname, hin]
    · have hsame : ∀ name ∈ names.eraseDups,
          failures (lookup.answer s (names ++ [category]).eraseDups) name =
            failures (lookup.answer s names.eraseDups) name := by
        intro name hname
        rw [failures, failures, hold name (List.mem_eraseDups.1 hname)]
      have hlast : failures (lookup.answer s (names ++ [category]).eraseDups) category =
          ((failureReason? (lookup category q.source).1).map (Log.lookupFailure category)).toList := by
        rw [failures, hanswer]
      rw [hnew, List.flatMap_append, List.flatMap_singleton, ← hnew, hlast, List.flatMap_congr hsame,
        h.log]

section Yields
variable (lookup s) (all : List Text)

/-- The inquiry mentions these names, and where all names of a document are `all` it finds these issues. -/
def Yields (m : StateM (Inquiry σ) (List Issue)) (names : List Text) (issues : List Issue) : Prop :=
  ∀ earlier later q, all = earlier ++ names ++ later → q.Follows lookup s earlier →
    (m q).1 = issues ∧ (m q).2.Follows lookup s (earlier ++ names)

theorem yields_pure (issues : List Issue) : Yields lookup s all (pure issues) [] issues := by
  intro earlier later q _ h
  exact ⟨rfl, by rwa [List.append_nil]⟩

variable {lookup s all}

theorem Yields.append {m m' : StateM (Inquiry σ) (List Issue)} {names names' : List Text}
    {issues issues' : List Issue} (hm : Yields lookup s all m names issues)
    (hm' : Yields lookup s all m' names' issues') :
    Yields lookup s all (do let found ← m; let more ← m'; return found ++ more) (names ++ names')
      (issues ++ issues') := by
  intro earlier later q hall h
  obtain ⟨hfound, hnext⟩ := hm earlier (names' ++ later) q (by simp [hall]) h
  obtain ⟨hmore, hend⟩ := hm' (earlier ++ names) later (m q).2 (by simp [hall]) hnext
  refine ⟨?_, by rw [← List.append_assoc]; exact hend⟩
  rw [← hfound, ← hmore]
  rfl

theorem yields_ask (category : Text) (f : Finding → List Issue) :
    Yields lookup s all (do let finding ← ask lookup category; return f finding) [category]
      (f (lookup.answer s all.eraseDups category)) := by
  intro earlier later q hall h
  obtain ⟨hanswer, hnext⟩ := ask_eq h category
  refine ⟨?_, hnext⟩
  rw [hall, lookup.answer_eraseDups s (by simp), ← hanswer]
  rfl

end Yields

end Rules.Fields
end QueryLint
