import Mathlib.Data.List.Infix
import QueryLint.Proofs.Delimiter.Depth

/-!
What the scanner knows on its way through a text, and where it stops.

The stack of the scanner is the stack behind the units that it has passed, its mismatch is the
first one there, and its boundary is the first line break there that a command follows. One unit
keeps this true, whatever it is; so it is true at the end.
-/

namespace QueryLint
set_option autoImplicit false

namespace Delimiter

def FirstBelow (P : Nat → Prop) (n : Nat) : Option Nat → Prop
  | some k => k < n ∧ P k ∧ ∀ j < k, ¬P j
  | none => ∀ j < n, ¬P j

/-- A line break that no backslash hides, with a line behind it that starts a command. -/
def CommandBreak (startsCommand : Text → Bool) (t : Text) (offset : Nat) : Prop :=
  ∃ w line : Text, t = w ++ ('\n' : CodeUnit) :: line ∧ w.length = offset ∧ ¬(shadeBehind w).Hides ∧
    startsCommand line = true

/-- What a scanner notes about the closing brackets of a text. -/
def Noted (t : Text) : Option (Nat × Fault) → Prop
  | some (offset, fault) => FirstMismatch t offset fault
  | none => Matched t

/-- A text that leaves a bracket open from its first unit on. -/
def Busy (t : Text) : Prop := ∀ u, u <+: t → u ≠ [] → stackBehind u ≠ []

instance : DecidablePred Busy := fun t =>
  decidable_of_iff (∀ u ∈ t.inits, u ≠ [] → stackBehind u ≠ []) (by simp [Busy, List.mem_inits])

def Scan.shade (s : Scan) : Shade := s.quote.elim .bare .quoted

structure Stands (startsCommand : Text → Bool) (t u : Text) (s : Scan) : Prop where
  stack : stackBehind u = s.top :: s.below
  mismatch : Noted u s.mismatch
  boundary : FirstBelow (CommandBreak startsCommand t) u.length s.boundary
  busy : Busy u

/-- Besides, the quote of the scanner is what hides the next unit. -/
structure Follows (startsCommand : Text → Bool) (t u : Text) (s : Scan) : Prop
    extends Stands startsCommand t u s where
  shade : shadeBehind u = s.shade

/-- How the scan of a text ends: with the bracket that closes the last open one, or with the text. -/
inductive Outcome (startsCommand : Text → Bool) (t : Text) : Extent → Prop where
  | closed {u rest : Text} {bracket : Bracket} {noted : Option (Nat × Fault)}
      (text : t = u ++ bracket.closing :: rest) (nonempty : u ≠ []) (busy : Busy u)
      (stack : stackBehind (u ++ [bracket.closing]) = [])
      (mismatch : Noted (u ++ [bracket.closing]) noted) :
      Outcome startsCommand t ⟨u.length + 1, noted.map (·.2)⟩
  | unclosed {s : Scan} (stands : Stands startsCommand t t s) :
      Outcome startsCommand t (s.unfinished t.length)

theorem Scan.shade_none {s : Scan} (h : s.quote = none) : s.shade = .bare := by
  rw [shade, h]
  rfl

theorem Scan.shade_some {s : Scan} {quote : CodeUnit} (h : s.quote = some quote) :
    s.shade = .quoted quote := by
  rw [shade, h]
  rfl

section
variable {startsCommand : Text → Bool}

theorem FirstBelow.keep {P : Nat → Prop} {n : Nat} {o : Option Nat} (h : FirstBelow P n o)
    (hn : ¬P n) : FirstBelow P (n + 1) o := by
  cases o with
  | some k => exact ⟨Nat.lt_succ_of_lt h.1, h.2⟩
  | none =>
    intro j hj
    obtain hj | rfl := Nat.lt_succ_iff_lt_or_eq.mp hj
    · exact h j hj
    · exact hn

theorem FirstBelow.found {P : Nat → Prop} {n : Nat} (h : FirstBelow P n none) (hn : P n) :
    FirstBelow P (n + 1) (some n) :=
  ⟨Nat.lt_succ_self n, hn, h⟩

theorem commandBreak_iff {t u v : Text} {c : CodeUnit} (ht : t = u ++ c :: v) :
    CommandBreak startsCommand t u.length ↔
      c = '\n' ∧ ¬(shadeBehind u).Hides ∧ startsCommand v = true := by
  constructor
  · rintro ⟨w, line, hw, hn, hs, hl⟩
    obtain ⟨rfl, h⟩ := List.append_inj (ht.symm.trans hw) hn.symm
    obtain ⟨rfl, rfl⟩ := List.cons.inj h
    exact ⟨rfl, hs, hl⟩
  · rintro ⟨rfl, hs, hv⟩
    exact ⟨u, v, ht, rfl, hs, hv⟩

theorem not_commandBreak {t u v : Text} {c : CodeUnit} (ht : t = u ++ c :: v) (hc : c ≠ '\n') :
    ¬CommandBreak startsCommand t u.length :=
  fun hb => hc ((commandBreak_iff ht).mp hb).1

theorem FirstMismatch.append {t : Text} {offset : Nat} {fault : Fault} (h : FirstMismatch t offset fault)
    (u : Text) : FirstMismatch (t ++ u) offset fault := by
  obtain ⟨w, v, expected, found, below, rfl, hw⟩ := h
  exact ⟨w, v ++ u, expected, found, below, by simp, hw⟩

theorem Noted.idle {u : Text} {c : CodeUnit} {noted : Option (Nat × Fault)} (h : Noted u noted)
    (hc : (shadeBehind u).sign? c = none) : Noted (u ++ [c]) noted := by
  cases noted with
  | none => exact (matched_concat_none hc).mpr h
  | some seen => exact FirstMismatch.append h [c]

theorem Noted.open {u : Text} {bracket : Bracket} {noted : Option (Nat × Fault)} (h : Noted u noted)
    (hu : shadeBehind u = .bare) : Noted (u ++ [bracket.opening]) noted := by
  cases noted with
  | none =>
    have hc : (shadeBehind u).sign? bracket.opening = some (.opening bracket) := by
      rw [hu]
      exact Sign.ofUnit?_opening bracket
    exact (matched_concat_some hc).mpr ⟨h, trivial⟩
  | some seen => exact FirstMismatch.append h _

theorem sign?_closing {u : Text} (hu : shadeBehind u = .bare) (bracket : Bracket) :
    (shadeBehind u).sign? bracket.closing = some (.closing bracket) := by
  rw [hu]
  exact Sign.ofUnit?_closing bracket

theorem Noted.close {u : Text} {s : Scan} {found : Bracket} (h : Noted u s.mismatch)
    (hu : shadeBehind u = .bare) (hstack : stackBehind u = s.top :: s.below) :
    Noted (u ++ [found.closing]) (s.mismatchWith u.length found) := by
  unfold Scan.mismatchWith
  cases hs : s.mismatch with
  | some seen =>
    rw [hs] at h
    exact FirstMismatch.append h _
  | none =>
    rw [hs] at h
    by_cases hf : found = s.top
    · rw [if_pos hf]
      apply (matched_concat_some (sign?_closing hu found)).mpr
      rw [hstack]
      exact ⟨h, hf, trivial⟩
    · rw [if_neg hf]
      exact ⟨u, [], s.top, found, s.below, rfl, rfl, hu, h, hstack, hf, rfl⟩

theorem Busy.concat {u : Text} {c : CodeUnit} (h : Busy u) (hc : stackBehind (u ++ [c]) ≠ []) :
    Busy (u ++ [c]) := by
  intro w hw hne
  obtain rfl | hw := List.prefix_concat_iff.mp hw
  · exact hc
  · exact h w hw hne

section
variable {t u v : Text} {c : CodeUnit} {s : Scan}

theorem Stands.idle (h : Stands startsCommand t u s)
    (hc : (shadeBehind u).sign? c = none) (hb : ¬CommandBreak startsCommand t u.length)
    (quote : Option CodeUnit) : Stands startsCommand t (u ++ [c]) { s with quote } where
  stack := (stackBehind_concat_none hc).trans h.stack
  mismatch := h.mismatch.idle hc
  boundary := by
    rw [List.length_append]
    exact h.boundary.keep hb
  busy := h.busy.concat (by rw [stackBehind_concat_none hc, h.stack]; apply List.cons_ne_nil)

theorem Stands.open {bracket : Bracket} (h : Stands startsCommand t u s)
    (ht : t = u ++ bracket.opening :: v) (hu : shadeBehind u = .bare) (hn : bracket.opening ≠ '\n') :
    Stands startsCommand t (u ++ [bracket.opening]) { s with top := bracket, below := s.top :: s.below } := by
  have hc : (shadeBehind u).sign? bracket.opening = some (.opening bracket) := by
    rw [hu]
    exact Sign.ofUnit?_opening bracket
  have hstack : stackBehind (u ++ [bracket.opening]) = bracket :: s.top :: s.below := by
    rw [stackBehind_concat_some hc, h.stack]
    rfl
  exact
    { stack := hstack
      mismatch := h.mismatch.open hu
      boundary := by
        rw [List.length_append]
        exact h.boundary.keep (not_commandBreak ht hn)
      busy := h.busy.concat (by rw [hstack]; apply List.cons_ne_nil) }

theorem stackBehind_close {found : Bracket} (h : Stands startsCommand t u s)
    (hu : shadeBehind u = .bare) : stackBehind (u ++ [found.closing]) = s.below := by
  rw [stackBehind_concat_some (sign?_closing hu found), h.stack]
  rfl

theorem Stands.close {found top : Bracket} {below : List Bracket} (h : Stands startsCommand t u s)
    (ht : t = u ++ found.closing :: v) (hu : shadeBehind u = .bare) (hn : found.closing ≠ '\n')
    (hbelow : s.below = top :: below) :
    Stands startsCommand t (u ++ [found.closing])
      { s with top, below, mismatch := s.mismatchWith u.length found } where
  stack := (stackBehind_close h hu).trans hbelow
  mismatch := h.mismatch.close hu h.stack
  boundary := by
    rw [List.length_append]
    exact h.boundary.keep (not_commandBreak ht hn)
  busy := h.busy.concat (by rw [stackBehind_close h hu, hbelow]; apply List.cons_ne_nil)

theorem Stands.lineBreak (h : Stands startsCommand t u s) (ht : t = u ++ ('\n' : CodeUnit) :: v)
    (hc : (shadeBehind u).sign? '\n' = none) (hides : ¬(shadeBehind u).Hides) :
    Stands startsCommand t (u ++ [('\n' : CodeUnit)])
      { s with quote := none, boundary := s.boundaryWith u.length (startsCommand v) } := by
  have hstack : stackBehind (u ++ [('\n' : CodeUnit)]) = s.top :: s.below :=
    (stackBehind_concat_none hc).trans h.stack
  refine ⟨hstack, h.mismatch.idle hc, ?_, h.busy.concat (by rw [hstack]; apply List.cons_ne_nil)⟩
  rw [List.length_append]
  unfold Scan.boundaryWith
  have hb := h.boundary
  cases hs : s.boundary with
  | some offset =>
    rw [hs] at hb
    exact ⟨Nat.lt_succ_of_lt hb.1, hb.2⟩
  | none =>
    rw [hs] at hb
    by_cases hv : startsCommand v = true
    · simp only [hv, if_true]
      exact hb.found ((commandBreak_iff ht).mpr ⟨rfl, hides, hv⟩)
    · simp only [hv]
      exact hb.keep fun h => hv ((commandBreak_iff ht).mp h).2.2

theorem Follows.lineBreak (h : Follows startsCommand t u s) (ht : t = u ++ ('\n' : CodeUnit) :: v) :
    Follows startsCommand t (u ++ [('\n' : CodeUnit)])
      { s with quote := none, boundary := s.boundaryWith u.length (startsCommand v) } := by
  have hbreak : s.shade.sign? '\n' = none ∧ ¬s.shade.Hides ∧ s.shade.next '\n' = .bare := by
    cases hq : s.quote with
    | none =>
      rw [Scan.shade_none hq]
      exact ⟨rfl, id, rfl⟩
    | some quote =>
      rw [Scan.shade_some hq]
      exact ⟨rfl, id, rfl⟩
  rw [← h.shade] at hbreak
  obtain ⟨hc, hides, hnext⟩ := hbreak
  exact ⟨h.toStands.lineBreak ht hc hides, (shadeBehind_concat u _).trans hnext⟩

section Quoted
variable {quote : CodeUnit} (h : Follows startsCommand t u s) (hs : s.quote = some quote)
include h hs

theorem Follows.shade_quoted : shadeBehind u = .quoted quote := h.shade.trans (Scan.shade_some hs)

theorem Follows.backslash (ht : t = u ++ ('\\' : CodeUnit) :: v) :
    Stands startsCommand t (u ++ [('\\' : CodeUnit)]) s ∧
      shadeBehind (u ++ [('\\' : CodeUnit)]) = .escaped quote := by
  have hc : (shadeBehind u).sign? ('\\' : CodeUnit) = none := by
    rw [h.shade_quoted hs]
    rfl
  refine ⟨h.toStands.idle hc (not_commandBreak ht (by decide)) s.quote, ?_⟩
  rw [shadeBehind_concat, h.shade_quoted hs]
  rfl

theorem Follows.escape {d : CodeUnit} (ht : t = u ++ ('\\' : CodeUnit) :: d :: v) :
    Follows startsCommand t (u ++ [('\\' : CodeUnit)] ++ [d]) s := by
  obtain ⟨stands, hshade⟩ := h.backslash hs ht
  have hd : (shadeBehind (u ++ [('\\' : CodeUnit)])).sign? d = none := by
    rw [hshade]
    rfl
  -- The backslash hides a line break, so the scanner has not missed one.
  have hbreak : ¬CommandBreak startsCommand t (u ++ [('\\' : CodeUnit)]).length := by
    intro hb
    apply ((commandBreak_iff (ht.trans (List.append_cons ..))).mp hb).2.1
    rw [hshade]
    trivial
  refine ⟨stands.idle hd hbreak s.quote, ?_⟩
  rw [shadeBehind_concat, hshade, Scan.shade_some hs]
  rfl

theorem Follows.quoted (ht : t = u ++ c :: v) (hbreak : c ≠ '\n') (hescape : c ≠ '\\') :
    Follows startsCommand t (u ++ [c]) { s with quote := if c = quote then none else some quote } := by
  have hc : (shadeBehind u).sign? c = none := by
    rw [h.shade_quoted hs]
    rfl
  refine ⟨h.toStands.idle hc (not_commandBreak ht hbreak) _, ?_⟩
  rw [shadeBehind_concat, h.shade_quoted hs, Shade.next, if_neg hbreak, if_neg hescape, Scan.shade]
  split
  · rfl
  · rfl

end Quoted

section Bare
variable (h : Follows startsCommand t u s) (hs : s.quote = none)
include h hs

theorem Follows.shade_bare : shadeBehind u = .bare := h.shade.trans (Scan.shade_none hs)

theorem Follows.openQuote (ht : t = u ++ c :: v) (hbreak : c ≠ '\n') (hc : c.isQuote = true) :
    Follows startsCommand t (u ++ [c]) { s with quote := some c } := by
  have hsign : (shadeBehind u).sign? c = none := by
    rw [h.shade_bare hs]
    exact Sign.ofUnit?_quote hc
  refine ⟨h.toStands.idle hsign (not_commandBreak ht hbreak) _, ?_⟩
  rw [shadeBehind_concat, h.shade_bare hs, Shade.next, if_pos hc]
  rfl

theorem Follows.shade_concat (hc : ¬c.isQuote = true) : shadeBehind (u ++ [c]) = s.shade := by
  rw [shadeBehind_concat, h.shade_bare hs, Shade.next, if_neg hc, Scan.shade_none hs]

theorem Follows.idle (ht : t = u ++ c :: v) (hbreak : c ≠ '\n') (hc : ¬c.isQuote = true)
    (hopen : Bracket.ofOpening? c = none) (hclose : Bracket.ofClosing? c = none) :
    Follows startsCommand t (u ++ [c]) s := by
  have hsign : (shadeBehind u).sign? c = none := by
    rw [h.shade_bare hs, Shade.sign?, Sign.ofUnit?, hopen, hclose]
    rfl
  exact ⟨h.toStands.idle hsign (not_commandBreak ht hbreak) s.quote, h.shade_concat hs hc⟩

theorem Follows.open {bracket : Bracket} (ht : t = u ++ bracket.opening :: v)
    (hbreak : bracket.opening ≠ '\n') (hc : ¬bracket.opening.isQuote = true) :
    Follows startsCommand t (u ++ [bracket.opening])
      { s with top := bracket, below := s.top :: s.below } :=
  ⟨h.toStands.open ht (h.shade_bare hs) hbreak, h.shade_concat hs hc⟩

theorem Follows.close {found top : Bracket} {below : List Bracket} (ht : t = u ++ found.closing :: v)
    (hbreak : found.closing ≠ '\n') (hc : ¬found.closing.isQuote = true) (hbelow : s.below = top :: below) :
    Follows startsCommand t (u ++ [found.closing])
      { s with top, below, mismatch := s.mismatchWith u.length found } :=
  ⟨h.toStands.close ht (h.shade_bare hs) hbreak hbelow, h.shade_concat hs hc⟩

theorem Follows.closed {found : Bracket} (ht : t = u ++ found.closing :: v) (hbelow : s.below = []) :
    Outcome startsCommand t ⟨u.length + 1, (s.mismatchWith u.length found).map (·.2)⟩ := by
  have hu := h.shade_bare hs
  apply Outcome.closed ht
  · rintro rfl
    cases h.stack
  · exact h.busy
  · exact (stackBehind_close h.toStands hu).trans hbelow
  · exact h.mismatch.close hu h.stack

end Bare

/-- By induction along the scan: what the scanner knows it knows behind one unit more. -/
theorem Follows.outcome (h : Follows startsCommand t u s) (ht : t = u ++ v) :
    Outcome startsCommand t (s.run startsCommand u.length v) := by
  have hmore : ∀ {u w v : Text}, t = u ++ (w ++ v) → t = u ++ w ++ v := fun ht =>
    ht.trans (List.append_assoc ..).symm
  generalize hp : u.length = passed
  fun_induction Scan.run startsCommand passed s v generalizing u with
  | case1 passed s =>
    rw [List.append_nil] at ht
    subst ht hp
    exact .unclosed h.toStands
  | case2 passed s rest boundary =>
    rename_i ih
    subst hp
    exact ih (h.lineBreak ht) (hmore ht) List.length_append
  | case3 passed s quote hquote =>
    obtain ⟨stands, -⟩ := h.backslash hquote ht
    subst ht hp
    rw [← List.length_singleton (a := CodeUnit.ofChar '\\'), ← List.length_append]
    exact .unclosed stands
  | case4 passed s quote hquote d rest _ ih =>
    have htext : t = u ++ [CodeUnit.ofChar '\\'] ++ [d] ++ rest := hmore (hmore ht)
    exact ih (h.escape hquote ht) htext (by simp [hp])
  | case5 passed s c rest hbreak quote hquote hescape ih =>
    exact ih (h.quoted hquote ht hbreak hescape) (hmore ht) (by simp [hp])
  | case6 passed s c rest hbreak hnone hquote ih =>
    exact ih (h.openQuote hnone ht hbreak hquote) (hmore ht) (by simp [hp])
  | case7 passed s c rest hbreak hnone hquote bracket hopen ih =>
    obtain rfl := Bracket.eq_opening hopen
    exact ih (h.open hnone ht hbreak hquote) (hmore ht) (by simp [hp])
  | case8 passed s c rest hbreak hnone hquote hopen hclose ih =>
    exact ih (h.idle hnone ht hbreak hquote hopen hclose) (hmore ht) (by simp [hp])
  | case9 passed s c rest _ hnone _ _ found hfound mismatch =>
    rename_i hbelow
    obtain rfl := Bracket.eq_closing hfound
    subst hp
    exact h.closed hnone ht hbelow
  | case10 passed s c rest hbreak hnone hquote _ found hfound mismatch top below hbelow =>
    rename_i ih
    obtain rfl := Bracket.eq_closing hfound
    subst hp
    exact ih (h.close hnone ht hbreak hquote hbelow) (hmore ht) List.length_append

theorem Stands.start (bracket : Bracket) (rest : Text) :
    Stands startsCommand (bracket.opening :: rest) [bracket.opening] (.start bracket) := by
  have hsigns : signs .bare [bracket.opening] = [.opening bracket] := by
    rw [signs, Shade.sign?, Sign.ofUnit?_opening]
    rfl
  have hstack : stackBehind [bracket.opening] = [bracket] := by
    rw [stackBehind, hsigns]
    rfl
  refine ⟨hstack, ?_, ?_, ?_⟩
  · show Matched _
    rw [Matched, hsigns]
    trivial
  · intro j hj hbreak
    obtain rfl := Nat.lt_one_iff.mp hj
    obtain ⟨h, -⟩ := (commandBreak_iff (u := []) rfl).mp hbreak
    cases bracket with
    | brace => exact absurd h (by decide)
    | square => exact absurd h (by decide)
  · apply Busy.concat (u := [])
    · intro w hw hne
      exact absurd (List.prefix_nil.mp hw) hne
    · rw [List.nil_append, hstack]
      apply List.cons_ne_nil

theorem extent_outcome (startsCommand : Text → Bool) (bracket : Bracket) (rest : Text) :
    Outcome startsCommand (bracket.opening :: rest) (extent startsCommand bracket rest) := by
  have hshade : shadeBehind [bracket.opening] = .bare := by
    cases bracket with
    | brace => rfl
    | square => rfl
  exact Follows.outcome ⟨Stands.start bracket rest, hshade⟩ rfl

end
end

theorem Scan.unfinished_reports (s : Scan) (passed : Nat) :
    (s.unfinished passed).fault = some (.unclosed s.top) ∨
      ∃ offset fault, s.mismatch = some (offset, fault) ∧ (s.unfinished passed).fault = some fault := by
  unfold unfinished
  cases hs : s.mismatch with
  | none => exact .inl rfl
  | some seen =>
    obtain ⟨offset, fault⟩ := seen
    by_cases h : offset < s.boundary.getD passed
    · exact .inr ⟨offset, fault, rfl, congrArg some (if_pos h)⟩
    · exact .inl (congrArg some (if_neg h))

theorem Scan.unfinished_length (s : Scan) (passed : Nat) :
    (s.unfinished passed).length = s.boundary.getD passed := by
  unfold unfinished
  split
  · rfl
  · rfl

end Delimiter
end QueryLint
