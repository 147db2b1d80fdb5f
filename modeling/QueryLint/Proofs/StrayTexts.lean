import QueryLint.Proofs.Concatenation
import QueryLint.Proofs.LineEndings.Texts
import QueryLint.Proofs.Options

/-!
What strays are about.

Between commands the units that are skipped are space, TAB, LF and CR, but a stray is trimmed of white
space in the wide sense. So a stray that starts with other white space, a no-break space say, does
not start with what can be seen, and it is empty if nothing else follows on its line. The blank rest
of a line makes a query invalid exactly when it has such a unit.
-/

namespace QueryLint
set_option autoImplicit false

/-- The first unit is no white space. -/
def Text.StartsVisibly (t : Text) : Prop := ∃ c u, t = c :: u ∧ c.isSpace = false

theorem Text.startsVisibly_trimEnd (c : CodeUnit) (t : Text) :
    (trimEnd (c :: t)).StartsVisibly ↔ c.isSpace = false := by
  constructor
  · rintro ⟨d, u, htrim, hd⟩
    obtain ⟨spaces, hprefix⟩ := Chunk.trimEnd_isPrefix (c :: t)
    rw [htrim, List.cons_append] at hprefix
    obtain ⟨rfl, -⟩ := List.cons.inj hprefix
    exact hd
  · intro hc
    exact ⟨c, trimEnd t, trimEnd_cons (.inr hc), hc⟩

namespace Chunk

theorem first_eq_stray {isKeyword : Text → Bool} {c : CodeUnit} {u line : Text}
    (h : first isKeyword c u = stray line) : c.isLayout = false ∧ line = Text.firstLine (c :: u) := by
  unfold first at h
  split at h
  · cases h
  · rename_i hlayout
    split at h
    · cases h
    · split at h
      · cases h
      · split at h
        · cases h
          exact ⟨by simpa using hlayout, rfl⟩
        · cases h

/-- White space that is not skipped starts a stray. -/
theorem first_of_isSpace (isKeyword : Text → Bool) {c : CodeUnit} (hspace : c.isSpace = true)
    (hlayout : c.isLayout = false) (u : Text) :
    first isKeyword c u = stray (Text.firstLine (c :: u)) := by
  have hform := first_form isKeyword c u
  generalize first isKeyword c u = chunk at hform ⊢
  cases hform with
  | layout h =>
    rw [hlayout] at h
    cases h
  | lineComment h =>
    rcases startsLineComment_iff.1 h with rfl | ⟨rfl, -⟩ | ⟨rfl, -⟩ <;> exact absurd hspace (by decide)
  | blockComment h =>
    subst h
    exact absurd hspace (by decide)
  | stray => rfl
  | clause h =>
    rw [isNameStart, CodeUnit.isLetter_of_isSpace hspace] at h
    cases h

theorem cut_blank (isKeyword : Text → Bool) {blank v : Text}
    (hspace : ∀ c ∈ blank, CodeUnit.isSpace c = true) (hline : CodeUnit.ofChar '\n' ∉ blank)
    (hv : EndsLine v) : ∃ cs, Cut isKeyword (blank ++ v) cs v ∧
      ((∃ chunk ∈ cs, chunk.IsStray) ↔ ∃ c ∈ blank, CodeUnit.isLayout c = false) := by
  induction blank with
  | nil => exact ⟨[], .done v, by simp⟩
  | cons c blank ih =>
    obtain ⟨cs, hcut, hiff⟩ := ih (fun d hd => hspace d (List.mem_cons_of_mem _ hd))
      (fun hmem => hline (List.mem_cons_of_mem _ hmem))
    cases hlayout : c.isLayout with
    | true =>
      have hfirst : first isKeyword c (blank ++ v) = skipped [c] := by simp [first, hlayout]
      have hskip : Cut isKeyword (c :: (blank ++ v)) [first isKeyword c (blank ++ v)] (blank ++ v) := by
        apply cut_first
        rw [hfirst]
        rfl
      rw [hfirst] at hskip
      exact ⟨skipped [c] :: cs, hskip.trans hcut, by simpa [IsStray, hlayout] using hiff⟩
    | false =>
      have hfirst : first isKeyword c (blank ++ v) = stray (c :: blank) := by
        rw [first_of_isSpace isKeyword (hspace c List.mem_cons_self) hlayout, ← List.cons_append,
          hv.firstLine_append, Text.firstLine_eq_self hline]
      have hstray : Cut isKeyword (c :: (blank ++ v)) [first isKeyword c (blank ++ v)] v := by
        apply cut_first
        rw [hfirst]
        rfl
      rw [hfirst] at hstray
      exact ⟨[stray (c :: blank)], hstray, by simp [IsStray, hlayout]⟩

end Chunk

namespace Tokens
open Chunk

theorem exists_stray {p : Position} {count : Nat} {cs : List Chunk} {s : Stray}
    (h : s ∈ (ofChunks p count cs).strays) : ∃ pre line post, cs = pre ++ stray line :: post ∧
      s.text = Text.trimEnd line ∧ s.start = p.after (texts pre) := by
  induction cs generalizing p count with
  | nil => cases h
  | cons chunk cs ih =>
    have hlater : ∀ count, s ∈ (ofChunks (p.after chunk.text) count cs).strays →
        ∃ pre line post, chunk :: cs = pre ++ stray line :: post ∧ s.text = Text.trimEnd line ∧
          s.start = p.after (texts pre) := by
      intro count h
      obtain ⟨pre, line, post, rfl, htext, hstart⟩ := ih h
      refine ⟨chunk :: pre, line, post, rfl, htext, ?_⟩
      rw [hstart, texts_cons, Position.after_append]
    cases chunk with
    | skipped t => exact hlater count h
    | stray line =>
      rw [ofChunks_stray] at h
      rcases List.mem_cons.mp h with rfl | h
      · exact ⟨[], line, cs, rfl, rfl, rfl⟩
      · exact hlater count h
    | clause cl => exact hlater (count + 1) h

theorem offset_of_mem_strays {p : Position} {count : Nat} {cs : List Chunk} {s : Stray}
    (hcs : ∀ chunk ∈ cs, chunk.text ≠ []) (h : s ∈ (ofChunks p count cs).strays) :
    p.offset ≤ s.start.offset ∧ s.start.offset < p.offset + (texts cs).length := by
  obtain ⟨pre, line, post, rfl, -, hstart⟩ := exists_stray h
  have hpos := List.length_pos_iff.mpr (hcs (stray line) (by simp))
  rw [text] at hpos
  rw [hstart, Position.offset_after, texts_append, texts_cons, text]
  simp only [List.length_append]
  omega

/-- A stray starts between two offsets of the text. -/
def HasStrayIn (ts : Tokens) (start stop : Nat) : Prop :=
  ∃ s ∈ ts.strays, start ≤ s.start.offset ∧ s.start.offset < stop

theorem hasStrayIn_iff {isKeyword : Text → Bool} {t w v : Text} {cs ds : List Chunk}
    (hcs : Cut isKeyword t cs (w ++ v)) (hds : Cut isKeyword (w ++ v) ds v) :
    (ofText isKeyword t).HasStrayIn (texts cs).length ((texts cs).length + w.length) ↔
      ∃ chunk ∈ ds, chunk.IsStray := by
  have hw : w = texts ds := List.append_cancel_right hds.text_eq
  have hsplit : Chunk.ofText isKeyword t = cs ++ (ds ++ Chunk.ofText isKeyword v) := by
    rw [hcs.ofText_eq, hds.ofText_eq]
  have hne : ∀ chunk ∈ cs ++ (ds ++ Chunk.ofText isKeyword v), chunk.text ≠ [] :=
    fun chunk hchunk => text_ne_nil (hsplit ▸ hchunk)
  simp only [List.forall_mem_append] at hne
  have hstray : ∀ p count, (ofChunks p count ds).strays ≠ [] ↔ ∃ chunk ∈ ds, chunk.IsStray := by
    intro p count
    rw [ne_eq, strays_ofChunks]
    simp only [not_forall, not_not, exists_prop]
  unfold HasStrayIn ofText
  rw [hsplit, ofChunks_append, ofChunks_append]
  simp only [append_def, List.mem_append]
  constructor
  · rintro ⟨s, hs | hs | hs, hstart, hstop⟩
    · have hbefore := (offset_of_mem_strays hne.1 hs).2
      rw [Position.start, Nat.zero_add] at hbefore
      omega
    · exact (hstray _ _).mp (List.ne_nil_of_mem hs)
    · have hbehind := (offset_of_mem_strays hne.2.2 hs).1
      rw [Position.offset_after, Position.offset_start_after, ← hw] at hbehind
      omega
  · intro hex
    obtain ⟨s, hs⟩ := List.exists_mem_of_ne_nil _ ((hstray _ _).mpr hex)
    have hbounds := offset_of_mem_strays hne.2.1 hs
    rw [Position.offset_start_after, ← hw] at hbounds
    exact ⟨s, .inr (.inl hs), hbounds⟩

/-- The text `front` is cut completely, and nothing but white space stands behind it on its line. -/
structure BlankRest (isKeyword : Text → Bool) (t front blank : Text) : Prop where
  cut : ∃ cs v, Cut isKeyword t cs (blank ++ v) ∧ texts cs = front ∧ EndsLine v
  space : ∀ c ∈ blank, CodeUnit.isSpace c = true
  line : CodeUnit.ofChar '\n' ∉ blank

theorem BlankRest.of_ofText {isKeyword : Text → Bool} {t blank : Text} (cs ds : List Chunk)
    (hcut : Chunk.ofText isKeyword t = cs ++ ds) (htext : texts ds = blank)
    (hspace : ∀ c ∈ blank, CodeUnit.isSpace c = true) (hline : CodeUnit.ofChar '\n' ∉ blank) :
    BlankRest isKeyword t (texts cs) blank := by
  obtain ⟨v, hv, hds⟩ := Cut.of_ofText hcut
  have hblank : v = blank := by rw [← htext, ← hds, texts_ofText]
  rw [hblank] at hv
  exact ⟨⟨cs, [], by rwa [List.append_nil], rfl, .nil⟩, hspace, hline⟩

theorem BlankRest.hasStrayIn_iff {isKeyword : Text → Bool} {t front blank : Text}
    (h : BlankRest isKeyword t front blank) :
    (ofText isKeyword t).HasStrayIn front.length (front.length + blank.length) ↔
      ∃ c ∈ blank, CodeUnit.isLayout c = false := by
  obtain ⟨cs, v, hcs, rfl, hv⟩ := h.cut
  obtain ⟨ds, hds, hiff⟩ := cut_blank isKeyword h.space h.line hv
  exact (Tokens.hasStrayIn_iff hcs hds).trans hiff

end Tokens

theorem Analysis.strays_of_valid {σ : Type} {dialect : Dialect} {options : Options} {elapsed : Elapsed}
    {lookup : Option (Lookup σ)} {s : σ} {text : Text}
    (henabled : Rule.code .strayText ∉ options.disabledRules)
    (hvalid : (run dialect options elapsed lookup s text).report.valid = true) :
    (Tokens.ofText dialect.isKeyword text).strays = [] := by
  rw [List.eq_nil_iff_forall_not_mem]
  intro stray hstray
  have hissue : Document.strayIssue (Document.parse dialect text).commands stray ∈
      Rules.Structure.issues (Document.parse dialect text) :=
    List.mem_append_left _ (List.mem_append_right _ (List.mem_map_of_mem hstray))
  have hgrave := (valid_run_grave dialect options elapsed lookup s text).mp hvalid
  exact henabled (hgrave _ (List.mem_append_left _ hissue) rfl)

namespace Tokens

/-- A stray starts visibly unless it starts with white space that is not skipped. The blank rest of a
line leaves a stray, and so makes the query invalid, exactly if it has such white space. -/
theorem stray_visible_iff (t : Text) :
    (∀ (isKeyword : Text → Bool), ∀ s ∈ (ofText isKeyword t).strays,
      ∃ c u, t.drop s.start.offset = c :: u ∧ c.isLayout = false ∧
        s.text = Text.trimEnd (Text.firstLine (c :: u)) ∧
        (s.text.StartsVisibly ↔ c.isSpace = false)) ∧
    (∀ (isKeyword : Text → Bool) (front blank : Text), BlankRest isKeyword t front blank →
      ((ofText isKeyword t).HasStrayIn front.length (front.length + blank.length) ↔
        ∃ c ∈ blank, CodeUnit.isLayout c = false)) ∧
    ∀ {σ : Type} (dialect : Dialect) (options : Options) (elapsed : Elapsed)
      (lookup : Option (Lookup σ)) (s : σ) (front blank : Text),
      Rule.code .strayText ∉ options.disabledRules → BlankRest dialect.isKeyword t front blank →
      (Analysis.run dialect options elapsed lookup s t).report.valid = true →
        ∀ c ∈ blank, CodeUnit.isLayout c = true := by
  refine ⟨?_, fun _ _ _ h => h.hasStrayIn_iff, ?_⟩
  · intro isKeyword s hs
    obtain ⟨pre, line, post, hcs, htext, hstart⟩ := exists_stray hs
    obtain ⟨v, hpre, hv⟩ := Chunk.Cut.of_ofText hcs
    cases v with
    | nil => simp at hv
    | cons c u =>
      rw [Chunk.ofText_cons] at hv
      obtain ⟨hlayout, rfl⟩ := Chunk.first_eq_stray (List.cons.inj hv).1
      have hne : c ≠ CodeUnit.ofChar '\n' := by
        rintro rfl
        exact absurd hlayout (by decide)
      have hline : Text.firstLine (c :: u) = c :: Text.firstLine u := by simp [Text.firstLine, hne]
      refine ⟨c, u, ?_, hlayout, htext, ?_⟩
      · rw [hstart, Position.offset_start_after, hpre.text_eq, List.drop_left]
      · rw [htext, hline]
        exact Text.startsVisibly_trimEnd c _
  · intro σ dialect options elapsed lookup s front blank henabled hblank hvalid c hc
    have hstrays := Analysis.strays_of_valid henabled hvalid
    by_contra hlayout
    obtain ⟨stray, hstray, -⟩ := hblank.hasStrayIn_iff.mpr ⟨c, hc, by simpa using hlayout⟩
    rw [hstrays] at hstray
    cases hstray

/-- A no-break space behind a balanced payload, and layout behind the last command. -/
theorem stray_visible_noBreak :
    ((⟨"", ⟨5, 1, 6⟩, some 0⟩ : Stray) ∈ (ofText (fun _ => false) "A [x]\u00a0").strays ∧
      ∃ c u, ("A [x]\u00a0" : Text).drop 5 = c :: u ∧ c.isLayout = false ∧
        ("" : Text) = Text.trimEnd (Text.firstLine (c :: u)) ∧
        (("" : Text).StartsVisibly ↔ c.isSpace = false)) ∧
    (BlankRest (fun _ => false) "A [x]\u00a0" "A [x]" "\u00a0" ∧
      (ofText (fun _ => false) "A [x]\u00a0").HasStrayIn 5 6) ∧
    (BlankRest Dialect.pipeline.isKeyword "SOURCE x\nLOAD\n \t" "SOURCE x\nLOAD\n" " \t" ∧
      (Analysis.run Dialect.pipeline {} ⟨0, 0, 0⟩ none () "SOURCE x\nLOAD\n \t").report.valid = true ∧
      ∀ c ∈ (" \t" : Text), CodeUnit.isLayout c = true) := by
  have hstray : (⟨"", ⟨5, 1, 6⟩, some 0⟩ : Stray) ∈ (ofText (fun _ => false) "A [x]\u00a0").strays := by
    decide +kernel
  have hbehind : BlankRest (fun _ => false) "A [x]\u00a0" "A [x]" "\u00a0" :=
    BlankRest.of_ofText [.clause ⟨"A", " ", some ⟨"[x]", true, none⟩, ""⟩] [.stray "\u00a0"]
      (by decide +kernel) (by decide) (by decide) (by decide)
  have hlast : BlankRest Dialect.pipeline.isKeyword "SOURCE x\nLOAD\n \t" "SOURCE x\nLOAD\n" " \t" :=
    BlankRest.of_ofText [.clause ⟨"SOURCE", " ", some ⟨"x", false, none⟩, ""⟩, .skipped "\n",
      .clause ⟨"LOAD", "", none, ""⟩, .skipped "\n"] [.skipped " ", .skipped "\t"]
      (by decide +kernel) (by decide) (by decide) (by decide)
  have hvalid : (Analysis.run Dialect.pipeline {} ⟨0, 0, 0⟩ none ()
      "SOURCE x\nLOAD\n \t").report.valid = true := by decide +kernel
  refine ⟨⟨hstray, ?_⟩, ⟨hbehind, ?_⟩, hlast, hvalid, ?_⟩
  · exact (stray_visible_iff "A [x]\u00a0").1 _ _ hstray
  · exact ((stray_visible_iff "A [x]\u00a0").2.1 _ _ _ hbehind).mpr (by decide)
  · exact (stray_visible_iff "SOURCE x\nLOAD\n \t").2.2 Dialect.pipeline {} ⟨0, 0, 0⟩ none () _ _
      (by simp) hlast hvalid

/-- A no-break space is a stray without a text, and on a line of its own it makes a query invalid. -/
theorem stray_not_visible :
    (∃ s ∈ (ofText (fun _ => false) "\u00a0").strays, s.text = [] ∧ ¬s.text.StartsVisibly) ∧
      (Analysis.run Dialect.pipeline {} ⟨0, 0, 0⟩ none () "SOURCE x\nLOAD").report.valid = true ∧
      (Analysis.run Dialect.pipeline {} ⟨0, 0, 0⟩ none () "SOURCE x\nLOAD\n\u00a0").report.valid = false := by
  refine ⟨⟨⟨"", .start, none⟩, by decide +kernel, rfl, ?_⟩, by decide +kernel, ?_⟩
  · rintro ⟨c, u, h, -⟩
    cases h
  · rw [Bool.eq_false_iff]
    intro hvalid
    exact absurd (Analysis.strays_of_valid (by simp) hvalid) (by decide +kernel)

end Tokens
end QueryLint
