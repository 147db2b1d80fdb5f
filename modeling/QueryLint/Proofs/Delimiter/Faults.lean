import QueryLint.Proofs.Delimiter.Balance
import QueryLint.Proofs.Delimiter.Payloads
import QueryLint.Proofs.LineEndings.Texts

/-!
What the fault of a payload is about.

A mismatch is reported where it lies in the payload, so the payload shows it. The bracket that is
reported as unclosed is read from the stack at the end of the text, and the payload may have been
cut before: the payload shows this bracket only where the two stacks agree.
-/

namespace QueryLint
set_option autoImplicit false

namespace Delimiter

/-- The fault of a payload: its first mismatch, or else the innermost bracket that a text leaves
open. -/
def FaultIn (payload text : Text) (fault : Fault) : Prop :=
  (∃ offset, FirstMismatch payload offset fault) ∨
    Matched payload ∧ ∃ bracket, (stackBehind text).head? = some bracket ∧ fault = .unclosed bracket

/-- What the scanner finds in a payload that nothing follows. -/
def scanAlone : Text → Option Fault
  | [] => none
  | c :: rest => (Bracket.ofOpening? c).bind fun bracket => (extent (fun _ => false) bracket rest).fault

theorem FirstMismatch.matched_take {t : Text} {offset : Nat} {fault : Fault}
    (h : FirstMismatch t offset fault) : Matched (t.take offset) := by
  obtain ⟨u, v, expected, found, below, rfl, rfl, -, hm, -⟩ := h
  rwa [List.take_left]

theorem FirstMismatch.lt {t : Text} {offset : Nat} {fault : Fault} (h : FirstMismatch t offset fault) :
    offset < t.length := by
  obtain ⟨u, v, expected, found, below, rfl, rfl, -⟩ := h
  simp

theorem FirstMismatch.of_isPrefix {t w : Text} {offset : Nat} {fault : Fault}
    (h : FirstMismatch t offset fault) (hw : w <+: t) (hlt : offset < w.length) :
    FirstMismatch w offset fault := by
  obtain ⟨u, v, expected, found, below, rfl, rfl, hrest⟩ := h
  have hu : u ++ [found.closing] <+: w :=
    List.prefix_of_prefix_length_le ⟨v, by simp⟩ hw (by rw [List.length_append]; exact hlt)
  obtain ⟨v', rfl⟩ := hu
  exact ⟨u, v', expected, found, below, by simp, rfl, hrest⟩

theorem FirstMismatch.unique {t : Text} {i j : Nat} {f g : Fault} (hf : FirstMismatch t i f)
    (hg : FirstMismatch t j g) : f = g := by
  have hle : ∀ {i j : Nat} {f g : Fault}, FirstMismatch t i f → FirstMismatch t j g → j ≤ i := by
    intro i j f g hf hg
    by_contra hlt
    have htake : i < (t.take j).length := by
      have := hf.lt
      rw [List.length_take]
      omega
    exact (hf.of_isPrefix (List.take_prefix j t) htake).not_matched hg.matched_take
  obtain rfl : i = j := Nat.le_antisymm (hle hg hf) (hle hf hg)
  obtain ⟨u, v, expected, found, below, rfl, hu, -, -, hstack, -, rfl⟩ := hf
  obtain ⟨u', v', expected', found', below', ht, hu', -, -, hstack', -, rfl⟩ := hg
  obtain ⟨rfl, hrest⟩ := List.append_inj ht (hu.trans hu'.symm)
  obtain ⟨rfl, -⟩ := List.cons.inj (hstack.symm.trans hstack')
  have hfound : found = found' := by
    have hsign := congrArg Sign.ofUnit? (List.cons.inj hrest).1
    rw [Sign.ofUnit?_closing, Sign.ofUnit?_closing] at hsign
    simpa using hsign
  rw [hfound]

theorem FaultIn.unique {payload text : Text} {f g : Fault} (hf : FaultIn payload text f)
    (hg : FaultIn payload text g) : f = g := by
  obtain ⟨i, hf⟩ | ⟨hm, b, hb, rfl⟩ := hf
  · obtain ⟨j, hg⟩ | ⟨hm, -⟩ := hg
    · exact hf.unique hg
    · exact absurd hm hf.not_matched
  · obtain ⟨j, hg⟩ | ⟨-, b', hb', rfl⟩ := hg
    · exact absurd hm hg.not_matched
    · rw [Option.some.inj (hb.symm.trans hb')]

theorem Sign.ofUnit?_space {c : CodeUnit} (h : c.isSpace = true) : ofUnit? c = none := by
  unfold ofUnit?
  cases hopening : Bracket.ofOpening? c with
  | some bracket =>
    obtain rfl := Bracket.eq_opening hopening
    rw [bracket.isSpace_opening] at h
    cases h
  | none =>
    cases hclosing : Bracket.ofClosing? c with
    | some bracket =>
      obtain rfl := Bracket.eq_closing hclosing
      rw [bracket.isSpace_closing] at h
      cases h
    | none => rfl

theorem signs_trimEnd (t : Text) : signs .bare (Text.trimEnd t) = signs .bare t := by
  obtain ⟨spaces, ht, hspaces⟩ := Text.trimEnd_append_rest t
  have hidle := signs_append_idle (fun c hc => Sign.ofUnit?_space (hspaces c hc)) (Text.trimEnd t)
  rw [← ht] at hidle
  exact hidle.symm

theorem matched_trimEnd {t : Text} : Matched (Text.trimEnd t) ↔ Matched t := by
  rw [Matched, signs_trimEnd, Matched]

theorem FirstMismatch.trimEnd {t : Text} {offset : Nat} {fault : Fault}
    (h : FirstMismatch t offset fault) : FirstMismatch (Text.trimEnd t) offset fault := by
  apply h.of_isPrefix (Chunk.trimEnd_isPrefix t)
  by_contra hle
  have hprefix : Text.trimEnd t <+: t.take offset :=
    List.prefix_of_prefix_length_le (Chunk.trimEnd_isPrefix t) (List.take_prefix ..)
      (by have := h.lt; rw [List.length_take]; omega)
  exact h.not_matched (matched_trimEnd.mp (fits_of_isPrefix hprefix h.matched_take))

theorem FaultIn.trimEnd {payload text : Text} {fault : Fault} (h : FaultIn payload text fault) :
    FaultIn (Text.trimEnd payload) text fault := by
  obtain ⟨offset, h⟩ | ⟨hm, hstack⟩ := h
  · exact .inl ⟨offset, h.trimEnd⟩
  · exact .inr ⟨matched_trimEnd.mpr hm, hstack⟩

section
variable {startsCommand : Text → Bool} {t : Text}

theorem Stands.faultIn {s : Scan} {fault : Fault} (h : Stands startsCommand t t s)
    (hf : (s.unfinished t.length).fault = some fault) :
    FaultIn (t.take (s.unfinished t.length).length) t fault := by
  rw [s.unfinished_length]
  have hstack : (stackBehind t).head? = some s.top := by rw [h.stack]; rfl
  have hm := h.mismatch
  unfold Scan.unfinished at hf
  cases hs : s.mismatch with
  | none =>
    rw [hs] at hf hm
    obtain rfl := Option.some.inj hf
    exact .inr ⟨fits_of_isPrefix (List.take_prefix ..) hm, s.top, hstack, rfl⟩
  | some seen =>
    obtain ⟨offset, noted⟩ := seen
    rw [hs] at hf hm
    by_cases hlt : offset < s.boundary.getD t.length
    · obtain rfl : noted = fault := by simpa [hlt] using hf
      refine .inl ⟨offset, FirstMismatch.of_isPrefix hm (List.take_prefix ..) ?_⟩
      have := FirstMismatch.lt hm
      rw [List.length_take]
      omega
    · obtain rfl : .unclosed s.top = fault := by simpa [hlt] using hf
      refine .inr ⟨?_, s.top, hstack, rfl⟩
      exact fits_of_isPrefix (List.take_prefix_take_left (by omega)) (FirstMismatch.matched_take hm)

theorem Outcome.faultIn {e : Extent} {fault : Fault} (h : Outcome startsCommand t e)
    (hf : e.fault = some fault) : FaultIn (t.take e.length) t fault := by
  cases h with
  | @closed u rest bracket noted text _ _ _ mismatch =>
    have htake : t.take (u.length + 1) = u ++ [bracket.closing] := by
      rw [text, List.append_cons u, ← List.length_concat, List.concat_eq_append, List.take_left]
    obtain ⟨⟨offset, noted⟩, rfl, rfl⟩ := Option.map_eq_some_iff.mp hf
    rw [htake]
    exact .inl ⟨offset, mismatch⟩
  | unclosed stands => exact stands.faultIn hf

end

/-- Without commands nothing is cut. -/
theorem Outcome.faultIn_alone {t : Text} {e : Extent} {fault : Fault}
    (h : Outcome (fun _ => false) t e) (hf : e.fault = some fault) : FaultIn t t fault := by
  cases h with
  | @closed u rest bracket noted text _ _ _ mismatch =>
    obtain ⟨⟨offset, noted⟩, rfl, rfl⟩ := Option.map_eq_some_iff.mp hf
    rw [text, List.append_cons]
    exact .inl ⟨offset, FirstMismatch.append mismatch rest⟩
  | @unclosed s stands =>
    have hfault := stands.faultIn hf
    have hb := stands.boundary
    cases hs : s.boundary with
    | none => rwa [s.unfinished_length, hs, Option.getD_none, List.take_length] at hfault
    | some offset =>
      rw [hs] at hb
      obtain ⟨-, ⟨w, line, -, -, -, hline⟩, -⟩ := hb
      cases hline

theorem scanAlone_opening (bracket : Bracket) (rest : Text) :
    scanAlone (bracket.opening :: rest) = (extent (fun _ => false) bracket rest).fault := by
  have hopening : Bracket.ofOpening? bracket.opening = some bracket := by cases bracket <;> decide
  rw [scanAlone, hopening]
  rfl

theorem scanAlone_eq_some_iff {bracket : Bracket} {rest : Text}
    (h : ∀ w, w <+: bracket.opening :: rest → ¬Balanced w) (fault : Fault) :
    scanAlone (bracket.opening :: rest) = some fault ↔
      FaultIn (bracket.opening :: rest) (bracket.opening :: rest) fault := by
  have houtcome := extent_outcome (fun _ => false) bracket rest
  rw [scanAlone_opening]
  cases hf : (extent (fun _ => false) bracket rest).fault with
  | none =>
    obtain ⟨w, hw, hb⟩ := houtcome.recognises.sound_iff.mp hf
    exact absurd hb (h w hw)
  | some found =>
    have hfound := houtcome.faultIn_alone hf
    constructor
    · intro heq
      rwa [← Option.some.inj heq]
    · intro hfault
      rw [hfound.unique hfault]

/-- Where a text is cut for a fault, what is left has no balanced part and shows its own fault. -/
theorem scanAlone_cut {startsCommand : Text → Bool} {bracket : Bracket} {rest cut : Text} {fault : Fault}
    (hf : (extent startsCommand bracket rest).fault = some fault)
    (hcut : cut = Text.trimEnd ((bracket.opening :: rest).take (extent startsCommand bracket rest).length))
    (own : Fault) : scanAlone cut = some own ↔ FaultIn cut cut own := by
  have hscan := (extent_outcome startsCommand bracket rest).recognises
  have hopening : bracket.opening.isSpace = false := by cases bracket <;> decide
  obtain ⟨inside, hinside⟩ : ∃ inside, cut = bracket.opening :: inside := by
    obtain ⟨n, hn⟩ := Nat.exists_eq_succ_of_ne_zero hscan.inside.1.ne'
    rw [hcut, hn, List.take_succ_cons, Text.trimEnd_cons (.inr hopening)]
    exact ⟨_, rfl⟩
  have hprefix : cut <+: bracket.opening :: rest := by
    rw [hcut]
    exact (Chunk.trimEnd_isPrefix _).trans (List.take_prefix ..)
  rw [hinside] at hprefix ⊢
  apply scanAlone_eq_some_iff
  intro w hw hb
  rw [hscan.sound_iff.mpr ⟨w, hw.trans hprefix, hb⟩] at hf
  cases hf

/-- The fault that another text gives is the payload's own if the payload has a mismatch or if both
texts leave the same bracket open last. -/
theorem FaultIn.own_iff {payload text : Text} {fault : Fault} (h : FaultIn payload text fault) :
    FaultIn payload payload fault ↔ (∃ offset fault, FirstMismatch payload offset fault) ∨
      (stackBehind text).head? = (stackBehind payload).head? := by
  constructor
  · rintro (⟨offset, hm⟩ | ⟨hm, bracket, hown, rfl⟩)
    · exact .inl ⟨offset, fault, hm⟩
    · obtain ⟨offset, hf⟩ | ⟨-, bracket', hstack, heq⟩ := h
      · exact absurd hm hf.not_matched
      · cases heq
        exact .inr (hstack.trans hown.symm)
  · rintro (⟨offset, seen, hm⟩ | heq)
    · obtain h | ⟨hmatched, -⟩ := h
      · exact .inl h
      · exact absurd hmatched hm.not_matched
    · rwa [FaultIn, heq] at h

end Delimiter

namespace Tokens
open Delimiter

/-- The fault of a token is its payload's first mismatch, or else it names the bracket that the text
from the payload on leaves open last. So scanning the payload alone finds it just where there is a
mismatch or the payload leaves the same bracket open. -/
theorem scanAlone_eq_fault_iff {isKeyword : Text → Bool} {text : Text} {k : Token} {fault : Fault}
    (hk : k ∈ (ofText isKeyword text).tokens) (hf : k.fault = some fault) :
    ∃ p, k.payload = some p ∧ FaultIn p.text (text.drop p.start.offset) fault ∧
      (∀ own, scanAlone p.text = some own ↔ FaultIn p.text p.text own) ∧
      (scanAlone p.text = some fault ↔ (∃ offset seen, FirstMismatch p.text offset seen) ∨
        (stackBehind (text.drop p.start.offset)).head? = (stackBehind p.text).head?) := by
  obtain ⟨i, hi⟩ := List.getElem?_of_mem hk
  obtain ⟨p, hp, hbracketed⟩ := exists_payload_of_fault hi (by simp [hf])
  obtain ⟨u, bracket, rest, rfl, hstart, hextent, hcut⟩ := exists_extent hi hp hbracketed
  obtain ⟨htext, -⟩ := hcut (by simp [hf])
  rw [hf] at hextent
  have hfault := ((extent_outcome (Chunk.startsCommand isKeyword) bracket rest).faultIn hextent.symm).trimEnd
  rw [← htext] at hfault
  have halone := scanAlone_cut hextent.symm htext
  refine ⟨p, hp, ?_⟩
  rw [hstart, List.drop_left]
  exact ⟨hfault, halone, (halone fault).trans hfault.own_iff⟩

theorem scanAlone_eq_fault_iff_braces : ∃ k ∈ (ofText (fun word => word = "B") "A \x7bx\nB \x7by").tokens,
    k.fault = some (.unclosed .brace) ∧
      ∃ p, k.payload = some p ∧ scanAlone p.text = some (.unclosed .brace) := by
  let k : Token := ⟨"A", ⟨0, 1, 1⟩, 4, some ⟨"\x7bx", ⟨2, 1, 3⟩, true⟩, some (.unclosed .brace)⟩
  have hk : k ∈ (ofText (fun word => word = "B") "A \x7bx\nB \x7by").tokens := by decide +kernel
  obtain ⟨p, hp, -, -, hiff⟩ := scanAlone_eq_fault_iff hk rfl
  obtain rfl := Option.some.inj hp
  exact ⟨k, hk, rfl, _, rfl, hiff.mpr (.inr (by decide +kernel))⟩

/-- A command behind the payload changes what its fault is about. -/
theorem fault_ne_scanAlone : ∃ k p, k ∈ (ofText (fun word => word = "B") "A \x7bx\nB [y").tokens ∧
    k.payload = some p ∧ stackBehind p.text = [.brace] ∧ scanAlone p.text = some (.unclosed .brace) ∧
    k.fault = some (.unclosed .square) :=
  ⟨⟨"A", ⟨0, 1, 1⟩, 4, some ⟨"\x7bx", ⟨2, 1, 3⟩, true⟩, some (.unclosed .square)⟩, _,
    by decide +kernel, rfl, by decide +kernel, by decide +kernel, rfl⟩

end Tokens
end QueryLint
