import Mathlib.Data.List.Induction
import QueryLint.Proofs.Delimiter.Units

/-!
The brackets of a text, without a scanner.

A quote hides what stands behind it up to its partner or to the end of the line, and a backslash
inside a quote hides one unit more. The brackets that are not hidden make up a word of opening and
closing signs, and reading the word leaves a stack of the brackets that are still open. A closing
sign takes the innermost bracket off the stack whether it is of its kind or not.
-/

namespace QueryLint
set_option autoImplicit false

namespace Delimiter

/-- What hides the next unit of a text. -/
inductive Shade where
  | bare
  | quoted (quote : CodeUnit)
  | escaped (quote : CodeUnit)
deriving DecidableEq

inductive Sign where
  | opening (bracket : Bracket)
  | closing (bracket : Bracket)
deriving DecidableEq

def Sign.ofUnit? (c : CodeUnit) : Option Sign :=
  match Bracket.ofOpening? c with
  | some bracket => some (opening bracket)
  | none => (Bracket.ofClosing? c).map closing

def Sign.act (stack : List Bracket) : Sign → List Bracket
  | opening bracket => bracket :: stack
  | closing _ => stack.tail

namespace Shade

def next : Shade → CodeUnit → Shade
  | bare, c => if c.isQuote then quoted c else bare
  | quoted q, c =>
    if c = '\n' then bare else if c = '\\' then escaped q else if c = q then bare else quoted q
  | escaped q, _ => quoted q

def after (m : Shade) (t : Text) : Shade := t.foldl next m

def Hides : Shade → Prop
  | bare => False
  | quoted _ => False
  | escaped _ => True

instance : DecidablePred Hides
  | bare => inferInstanceAs (Decidable False)
  | quoted _ => inferInstanceAs (Decidable False)
  | escaped _ => inferInstanceAs (Decidable True)

def sign? : Shade → CodeUnit → Option Sign
  | bare, c => Sign.ofUnit? c
  | quoted _, _ => none
  | escaped _, _ => none

end Shade

def signs (m : Shade) : Text → List Sign
  | [] => []
  | c :: t => (m.sign? c).toList ++ signs (m.next c) t

def shadeBehind (t : Text) : Shade := Shade.bare.after t

/-- The brackets left open by a text, innermost first. -/
def stackBehind (t : Text) : List Bracket := (signs .bare t).foldl Sign.act []

def depth (t : Text) : Nat := (stackBehind t).length

def Fits : List Bracket → List Sign → Prop
  | _, [] => True
  | stack, .opening bracket :: ss => Fits (bracket :: stack) ss
  | [], .closing _ :: _ => False
  | top :: stack, .closing bracket :: ss => bracket = top ∧ Fits stack ss

def Matched (t : Text) : Prop := Fits [] (signs .bare t)

/-- Words in which every bracket is closed by its own kind, and nothing else is closed. -/
inductive Nested : List Sign → Prop where
  | nil : Nested []
  | around (bracket : Bracket) {ss ts : List Sign} : Nested ss → Nested ts →
      Nested (.opening bracket :: (ss ++ .closing bracket :: ts))

/-- A text whose brackets are nested and that comes back to depth zero with its last unit only. -/
structure Balanced (t : Text) : Prop where
  nonempty : t ≠ []
  nested : Nested (signs .bare t)
  returns : ∀ u, u <+: t → (depth u = 0 ↔ u = [] ∨ u = t)

/-- The first closing bracket of the wrong kind, at the given offset. -/
def FirstMismatch (t : Text) (offset : Nat) (fault : Fault) : Prop :=
  ∃ (u v : Text) (expected found : Bracket) (below : List Bracket), t = u ++ found.closing :: v ∧
    u.length = offset ∧ shadeBehind u = .bare ∧ Matched u ∧ stackBehind u = expected :: below ∧
    found ≠ expected ∧ fault = .mismatched expected found

theorem Sign.ofUnit?_opening (bracket : Bracket) : ofUnit? bracket.opening = some (opening bracket) := by
  cases bracket <;> decide

theorem Sign.ofUnit?_closing (bracket : Bracket) : ofUnit? bracket.closing = some (closing bracket) := by
  cases bracket <;> decide

theorem Sign.ofUnit?_quote {c : CodeUnit} (h : c.isQuote = true) : ofUnit? c = none := by
  simp only [CodeUnit.isQuote, Bool.or_eq_true, decide_eq_true_eq] at h
  obtain rfl | rfl := h
  · decide
  · decide

theorem Shade.after_append (m : Shade) (t u : Text) : m.after (t ++ u) = (m.after t).after u :=
  List.foldl_append

theorem signs_append (m : Shade) (t u : Text) : signs m (t ++ u) = signs m t ++ signs (m.after t) u := by
  induction t generalizing m with
  | nil => rfl
  | cons c t ih =>
    rw [List.cons_append, signs, signs, ih, List.append_assoc]
    rfl

theorem shadeBehind_concat (t : Text) (c : CodeUnit) :
    shadeBehind (t ++ [c]) = (shadeBehind t).next c :=
  Shade.after_append _ t [c]

theorem signs_concat (t : Text) (c : CodeUnit) :
    signs .bare (t ++ [c]) = signs .bare t ++ ((shadeBehind t).sign? c).toList := by
  rw [signs_append]
  exact congrArg _ (List.append_nil _)

theorem stackBehind_concat_none {t : Text} {c : CodeUnit} (h : (shadeBehind t).sign? c = none) :
    stackBehind (t ++ [c]) = stackBehind t := by
  rw [stackBehind, signs_concat, h]
  simp [stackBehind]

theorem stackBehind_concat_some {t : Text} {c : CodeUnit} {s : Sign}
    (h : (shadeBehind t).sign? c = some s) : stackBehind (t ++ [c]) = s.act (stackBehind t) := by
  rw [stackBehind, signs_concat, h]
  simp [stackBehind]

theorem fits_append (stack : List Bracket) (ss ts : List Sign) :
    Fits stack (ss ++ ts) ↔ Fits stack ss ∧ Fits (ss.foldl Sign.act stack) ts := by
  induction ss generalizing stack with
  | nil => simp [Fits]
  | cons s ss ih =>
    cases s with
    | opening bracket => exact ih (bracket :: stack)
    | closing bracket =>
      cases stack with
      | nil => simp [Fits]
      | cons top stack => simp [Fits, ih, Sign.act, and_assoc]

theorem matched_concat_none {t : Text} {c : CodeUnit} (h : (shadeBehind t).sign? c = none) :
    Matched (t ++ [c]) ↔ Matched t := by
  rw [Matched, signs_concat, h]
  simp [Matched]

theorem matched_concat_some {t : Text} {c : CodeUnit} {s : Sign} (h : (shadeBehind t).sign? c = some s) :
    Matched (t ++ [c]) ↔ Matched t ∧ Fits (stackBehind t) [s] := by
  rw [Matched, signs_concat, h, Option.toList_some, fits_append]
  rfl

theorem fits_of_isPrefix {t u : Text} (h : t <+: u) (hu : Matched u) : Matched t := by
  obtain ⟨v, rfl⟩ := h
  rw [Matched, signs_append, fits_append] at hu
  exact hu.1

theorem signs_eq_nil {t : Text} (h : ∀ c ∈ t, Sign.ofUnit? c = none) (m : Shade) : signs m t = [] := by
  induction t generalizing m with
  | nil => rfl
  | cons c t ih =>
    have hc : m.sign? c = none := by
      cases m with
      | bare => exact h c List.mem_cons_self
      | quoted => rfl
      | escaped => rfl
    rw [signs, hc, ih fun d hd => h d (List.mem_cons_of_mem _ hd)]
    rfl

theorem signs_append_idle {u : Text} (h : ∀ c ∈ u, Sign.ofUnit? c = none) (t : Text) :
    signs .bare (t ++ u) = signs .bare t := by
  rw [signs_append, signs_eq_nil h, List.append_nil]

end Delimiter
end QueryLint
