import QueryLint.Proofs.BrokenRows
import QueryLint.Proofs.Fixtures
import QueryLint.Proofs.Licensing

/-!
When the fixture of a valid query is valid.

The block and the reference of a fixture break no critical rule, except that a sample row must not
be empty and must stand on one line. All else that the rules ask for was there before.
-/

namespace QueryLint
set_option autoImplicit false

open Chunk Document Issue

theorem Document.Part.Kept.orderly {σ : Nat → Nat} {part part' : Part} (h : Part.Kept σ part part')
    (hpart : part.Orderly) : part'.Orderly := by
  cases h with
  | single hc =>
    rw [Part.Orderly, hc.role_eq]
    exact hpart
  | block hc hb =>
    refine ⟨?_, ?_⟩
    · rw [Command.Named, hc.declaredName_eq, hc.payload_eq]
      exact hpart.1
    · rw [hb.closerIndex, Option.isSome_map]
      exact hpart.2

namespace Rules.Ordering
variable {dialect : Dialect} {p : Progress} {c : Command} {spec : Spec}

/-- A command without forbidden keys is reported for its role alone. -/
theorem mild_visit_spec (hspec : c.spec = some spec) (hkeys : spec.forbiddenKeys = [])
    (hrole : Mild (roleIssues p c spec.role)) : Mild (visit dialect p c).2 := by
  simpa [visit, hspec, forbiddenIssues, hkeys] using hrole

theorem mild_walk_idle {cs : List Command}
    (h : ∀ c ∈ cs, ∃ spec, c.spec = some spec ∧ spec.forbiddenKeys = [] ∧
      (spec.role = .literalRow ∨ spec.role = .blockClose)) (p : Progress) :
    Mild (walk dialect p cs).2 := by
  induction cs generalizing p with
  | nil => exact mild_nil
  | cons c cs ih =>
    obtain ⟨spec, hspec, hkeys, hrole⟩ := h c List.mem_cons_self
    simp only [walk, mild_append]
    refine ⟨mild_visit_spec hspec hkeys ?_, ih (fun d hd => h d (List.mem_cons_of_mem _ hd)) _⟩
    rcases hrole with hrole | hrole <;> rw [hrole] <;> exact mild_nil

theorem mild_walkParts_append (dialect : Dialect) (p : Progress) (xs ys : List Part) :
    Mild (walkParts dialect p (xs ++ ys)).2 ↔
      Mild (walkParts dialect p xs).2 ∧ Mild (walkParts dialect (p.throughParts xs) ys).2 := by
  rw [walkParts_append, mild_append]

theorem mild_walkParts_cons (dialect : Dialect) (p : Progress) (x : Part) (xs : List Part) :
    Mild (walkParts dialect p (x :: xs)).2 ↔
      Mild (walkParts dialect p [x]).2 ∧ Mild (walkParts dialect (p.throughParts [x]) xs).2 :=
  mild_walkParts_append dialect p [x] xs

end Rules.Ordering

namespace Fixture
open Dialect Rules.Ordering Rules.Structure

section Commands
variable (b : Builtin) (index : Nat) (p : Position) {name : Text}

theorem commandIssues_opener (h : IsBlockName name) :
    commandIssues (.ofClause b.dialect index p (openerClause name b)) = [] := by
  obtain ⟨hpayload, htext, hfault, hdelimiter⟩ := reads_opener b index p h
  rw [commandIssues_eq_nil, spec_opener, hpayload]
  refine ⟨hdelimiter, hfault, ?_⟩
  cases b <;>
    simpa [Meets, openerSpec, openerPayload, Value.isEmpty, Value.shape] using htext

theorem commandIssues_closer : commandIssues (.ofClause b.dialect index p closerClause) = [] := by
  obtain ⟨hpayload, htext, hfault, hdelimiter⟩ := reads_closer b index p
  rw [commandIssues_eq_nil, spec_closer, hpayload]
  refine ⟨hdelimiter, hfault, ?_⟩
  simpa [Meets, closerSpec] using htext

theorem commandIssues_reference (h : IsBlockName name) :
    commandIssues (.ofClause b.dialect index p (referenceClause name b)) = [] := by
  obtain ⟨hpayload, htext, hfault, hdelimiter⟩ := reads_reference b index p h
  rw [commandIssues_eq_nil, spec_reference, hpayload]
  refine ⟨hdelimiter, hfault, ?_⟩
  cases b <;>
    simpa [Meets, referenceSpec, referencePayload, Value.isEmpty, Value.shape] using htext

theorem commandIssues_row {row : SampleRow}
    (h : (Command.ofClause b.dialect index p (rowClause row b)).Reads (some row.value)) :
    commandIssues (.ofClause b.dialect index p (rowClause row b)) = [] ↔ row ≠ [] := by
  obtain ⟨hpayload, htext, hfault, hdelimiter⟩ := h
  rw [Option.isSome_some] at htext
  rw [commandIssues_eq_nil, spec_row, hpayload]
  simp [hdelimiter, hfault, htext, Meets, rowSpec, SampleRow.value, Value.isEmpty, Value.shape]

end Commands

theorem commandIssues_rows {b : Builtin} {rows : List SampleRow} {lines : List Command}
    (h : List.Forall₂ (fun row c => ∃ k p, c = .ofClause b.dialect k p (rowClause row b)) rows lines)
    (hreads : ∀ row ∈ rows, ∀ index p,
      (Command.ofClause b.dialect index p (rowClause row b)).Reads (some row.value)) :
    (∀ c ∈ lines, commandIssues c = []) ↔ ∀ row ∈ rows, row ≠ [] := by
  induction h with
  | nil => simp
  | cons hc _ ih =>
    obtain ⟨k, p, rfl⟩ := hc
    rw [List.forall_mem_cons, List.forall_mem_cons,
      commandIssues_row b k p (hreads _ List.mem_cons_self k p)]
    exact and_congr_right fun _ => ih fun row hrow => hreads row (List.mem_cons_of_mem _ hrow)

theorem Injected.not_stray {b : Builtin} {name : Text} {rows : List SampleRow} {text spliced : Text}
    {xs ys zs rs : List Chunk} (h : Injected b name rows text spliced xs ys zs rs)
    (htext : ∀ chunk ∈ ofText b.dialect.isKeyword text, ¬chunk.IsStray) :
    ∀ chunk ∈ ofText b.dialect.isKeyword spliced, ¬chunk.IsStray := by
  rw [h.before] at htext
  rw [h.behind]
  simp only [List.forall_mem_append] at htext ⊢
  refine ⟨htext.1, ?_, htext.2.1, ?_, htext.2.2⟩
  · intro chunk hchunk
    obtain ⟨cl, -, hchunk⟩ := List.mem_flatMap.1 hchunk
    simp only [List.mem_cons, List.not_mem_nil, or_false] at hchunk
    rcases hchunk with rfl | rfl <;> exact id
  · rcases h.reference with rfl | rfl <;> simp [IsStray]

namespace Insertion
variable {b : Builtin} {name : Text} {rows : List SampleRow} {text spliced : Text}
variable {front middle back : List Part}
variable (h : Insertion b name rows text spliced front middle back)

def block : Block :=
  ⟨name, (h.lines ++ [h.closer]).map (Command.within name), h.opener.index, some h.closer.index⟩

theorem parts_eq : parts b.dialect spliced =
    h.front' ++ (.block h.opener h.block :: (h.middle' ++ (.single h.reference :: h.back'))) :=
  h.parts_spliced

theorem mild_block (visible : List Text) : Mild (blockIssues b.dialect visible h.block) := by
  obtain ⟨k, p, hcloser⟩ := h.closer_eq
  have hrow : ∀ c ∈ h.lines, c.spec = some rowSpec := by
    intro c hc
    obtain ⟨row, -, k', p', rfl⟩ := exists_of_forall₂_right h.lines_eq hc
    exact spec_row b k' p' row
  simp only [blockIssues, block, mild_append, mild_missingLoader, walk_progress]
  refine ⟨mild_walk_idle ?_ _, ?_⟩
  · intro c' hc'
    obtain ⟨c, hc, rfl⟩ := List.mem_map.1 hc'
    rw [Command.spec_within]
    rcases List.mem_append.1 hc with hc | hc
    · exact ⟨rowSpec, hrow c hc, rfl, .inl rfl⟩
    · rw [List.mem_singleton.1 hc, hcloser]
      exact ⟨closerSpec, spec_closer b k p, rfl, .inr rfl⟩
  · cases hlines : h.lines with
    | nil =>
      have hrole := role_closer b k p
      refine .inl ?_
      simp [Progress.through, Progress.start, Command.isContent, Command.hasRole, hcloser, hrole]
    | cons c lines =>
      have hspec : c.spec = some rowSpec := hrow c (by simp [hlines])
      refine .inr ?_
      simp [Progress.through, Command.suppliesData, hspec, rowSpec]

variable (hname : IsBlockName name)
include h hname

theorem orderly (htext : ∀ part ∈ parts b.dialect text, part.Orderly) :
    ∀ part ∈ parts b.dialect spliced, part.Orderly := by
  have hkept : ∀ {σ : Nat → Nat} {ps ps' : List Part}, List.Forall₂ (Part.Kept σ) ps ps' →
      (∀ part ∈ ps, part.Orderly) → ∀ part ∈ ps', part.Orderly := by
    intro σ ps ps' hps hall part' hpart'
    obtain ⟨part, hpart, hsame⟩ := exists_of_forall₂_right hps hpart'
    exact hsame.orderly (hall part hpart)
  rw [h.parts_text] at htext
  rw [h.parts_eq]
  simp only [List.forall_mem_append, List.forall_mem_cons] at htext ⊢
  obtain ⟨hfront, hmiddle, hback⟩ := htext
  refine ⟨hkept h.front_kept hfront, ⟨?_, rfl⟩, hkept h.middle_kept hmiddle, ?_,
    hkept h.back_kept hback⟩
  · obtain ⟨k, p, hopener⟩ := h.opener_eq
    simp [hopener, Command.Named, declaredName_opener b k p hname]
  · obtain ⟨k, p, hreference⟩ := h.reference_eq
    rw [Part.Orderly, hreference, role_reference]
    decide

theorem mild_ordering (htext : Mild (Rules.Ordering.issues (parse b.dialect text))) :
    Mild (Rules.Ordering.issues (parse b.dialect spliced)) := by
  have hblocks : (parse b.dialect spliced).blocks.isEmpty = false := by
    rw [blocks_parse, h.parts_eq]
    simp [Part.block?, List.filterMap_cons]
  rw [issues_parse, mild_append, h.parts_text, mild_walkParts_append, mild_walkParts_append] at htext
  obtain ⟨⟨hfront, hmiddle, hback⟩, -⟩ := htext
  rw [issues_parse, hblocks, if_neg Bool.false_ne_true, List.append_nil, h.parts_eq,
    mild_walkParts_append, mild_walkParts_cons, mild_walkParts_append,
    mild_walkParts_cons _ _ (.single h.reference)]
  -- what licensed the commands of the text still does behind the block
  have hstart : (Progress.start []).Under (.start []) := .start (List.Subset.refl [])
  have hbehindBlock := (hstart.throughParts h.front_kept).trans
    (Progress.under_throughParts _ [.block h.opener h.block])
  have hbehindMiddle := hbehindBlock.throughParts h.middle_kept
  have hbehindReference := hbehindMiddle.trans (Progress.under_throughParts _ [.single h.reference])
  refine ⟨mild_walkParts _ h.front_kept hstart hfront, ?_,
    mild_walkParts _ h.middle_kept hbehindBlock hmiddle, ?_,
    mild_walkParts _ h.back_kept hbehindReference hback⟩
  · obtain ⟨k, p, hopener⟩ := h.opener_eq
    have hspec : h.opener.spec = some (openerSpec b) := by rw [hopener, spec_opener]
    simp only [walkParts, enterPart, Part.head, mild_append, mild_nil, and_true]
    refine ⟨mild_visit_spec hspec (by cases b <;> rfl) ?_, h.mild_block _⟩
    cases b <;> exact mild_nil
  · obtain ⟨k, p, hreference⟩ := h.reference_eq
    have hspec : h.reference.spec = some (referenceSpec b) := by rw [hreference, spec_reference]
    have hnamed : h.reference.referencedName? = some name := by
      rw [hreference, referencedName_reference b k p hname]
    obtain ⟨rest, hrest, -⟩ := hname
    have hne : name ≠ [] := by
      rw [hrest]
      exact List.append_ne_nil_of_left_ne_nil (by decide) _
    simp only [walkParts, enterPart, Part.head, mild_append, mild_nil, and_true]
    refine mild_visit_spec hspec (by cases b <;> rfl) ?_
    have hrole : (referenceSpec b).role = .subqueryRef := by cases b <;> rfl
    rw [hrole]
    simp [roleIssues, referenceIssues, hnamed, Progress.throughParts, visibleNames, Part.block?, block,
      hne]

/-- Nothing is found at a command that was put in, unless it is an empty row. -/
theorem commandIssues_added (hreads : ∀ row ∈ rows, ∀ index p,
      (Command.ofClause b.dialect index p (rowClause row b)).Reads (some row.value)) :
    (∀ c ∈ h.opener :: h.block.commands ++ [h.reference], commandIssues c = []) ↔
      ∀ row ∈ rows, row ≠ [] := by
  obtain ⟨k, p, hopener⟩ := h.opener_eq
  obtain ⟨k', p', hcloser⟩ := h.closer_eq
  obtain ⟨k'', p'', hreference⟩ := h.reference_eq
  have hlines := commandIssues_rows h.lines_eq hreads
  simp only [block, List.cons_append, List.forall_mem_cons, List.forall_mem_append, List.map_append,
    List.forall_mem_map, commandIssues_within, hlines]
  simp [hopener, hcloser, hreference, commandIssues_opener b k p hname, commandIssues_closer b k' p',
    commandIssues_reference b k'' p'' hname]

/-- A fixture breaks no critical rule if none of its rows is empty. -/
theorem mild_structure {xs ys zs rs : List Chunk}
    (hinjected : Injected b name rows text spliced xs ys zs rs)
    (hreads : ∀ row ∈ rows, ∀ index p,
      (Command.ofClause b.dialect index p (rowClause row b)).Reads (some row.value))
    (htext : Mild (Rules.Structure.issues (parse b.dialect text))) :
    Mild (Rules.Structure.issues (parse b.dialect spliced)) ↔ ∀ row ∈ rows, row ≠ [] := by
  rw [mild_issues, mild_issues_parse] at htext
  obtain ⟨⟨horderly, hstrays⟩, -, hcommands⟩ := htext
  have hne : parts b.dialect spliced ≠ [] := by
    rw [h.parts_eq]
    simp
  have hkept : ∀ {σ : Nat → Nat} {ps ps' : List Part}, List.Forall₂ (Part.Kept σ) ps ps' →
      (∀ c ∈ ps.flatMap Part.commands, commandIssues c = []) →
      ∀ c ∈ ps'.flatMap Part.commands, commandIssues c = [] := by
    intro σ ps ps' hps hall c' hc'
    obtain ⟨c, hc, hsame⟩ := exists_of_forall₂_right (commands_kept hps) hc'
    exact hsame.commandIssues_eq_nil.2 (hall c hc)
  rw [mild_issues, mild_issues_parse, ← h.commandIssues_added hname hreads]
  rw [commands_parse, h.parts_text] at hcommands
  simp only [List.flatMap_append, List.forall_mem_append] at hcommands
  obtain ⟨hfront, hmiddle, hback⟩ := hcommands
  have hadded : (∀ c ∈ (parse b.dialect spliced).commands, commandIssues c = []) ↔
      ∀ c ∈ h.opener :: h.block.commands ++ [h.reference], commandIssues c = [] := by
    rw [commands_parse, h.parts_eq]
    simp only [List.flatMap_append, List.flatMap_cons, Part.commands, List.forall_mem_append]
    rw [and_iff_right (hkept h.front_kept hfront), and_iff_right (hkept h.middle_kept hmiddle),
      and_iff_left (hkept h.back_kept hback)]
  rw [hadded]
  exact ⟨fun hall => hall.2.2, fun hall =>
    ⟨⟨h.orderly hname horderly, hinjected.not_stray hstrays⟩, hne, hall⟩⟩

end Insertion

section Build
variable {b : Builtin} {text : Text} {rows : Option Number}

theorem exists_injected (hfaults : ∀ c ∈ raw b.dialect text, c.delimiterFault = none)
    (hfitting : Fitting b.dialect text)
    (hfields : ∀ f ∈ Field.ofDocument (parse b.dialect text), CodeUnit.ofChar '\n' ∉ f.name) :
    let f := build (parse b.dialect text) { rows }
    ∃ xs ys zs rs, Injected b f.blockName f.samples.rows text f.text xs ys zs rs := by
  intro f
  have hname : IsBlockName f.blockName := isBlockName_build
  have hrows : ∀ row ∈ f.samples.rows, SampleRow.OneLine row := oneLine_build hfields
  cases hanchors : anchors (parse b.dialect text).root with
  | none => exact ⟨_, _, _, _, injected_front hname hrows hanchors⟩
  | some places =>
    obtain ⟨source, anchor⟩ := places
    obtain ⟨xs, ys, u, v, hplaces⟩ := hfitting.exists_places hfaults hanchors
    exact ⟨_, _, _, _, injected_source hname hrows hanchors hplaces⟩

theorem exists_rows_eq {n : Nat} (hrows : (rows.getD Samples.defaultCount).countBelow? = some n)
    (hn : 0 < n) (d : Document) :
    ∃ later, (build d { rows }).samples.rows =
      Samples.row (Field.ofDocument d) (Field.types d) d.dialect.timeField (Samples.timeStep? d) 0 ::
        later := by
  obtain ⟨m, rfl⟩ := Nat.exists_eq_add_of_lt hn
  simp only [build, Samples.ofDocument, hrows, Option.getD_some, Nat.zero_add, List.range_succ_eq_map,
    List.map_cons]
  exact ⟨_, rfl⟩

theorem rows_ne_nil_iff {n : Nat} (hrows : (rows.getD Samples.defaultCount).countBelow? = some n)
    (hn : 0 < n) :
    (∀ row ∈ (build (parse b.dialect text) { rows }).samples.rows, row ≠ []) ↔
      (Samples.timeStep? (parse b.dialect text)).isSome = true ∨
        ∃ f ∈ Field.ofDocument (parse b.dialect text), f.name ≠ Record.reservedKey := by
  have htime : b.dialect.timeField ≠ Record.reservedKey := by cases b <;> decide
  constructor
  · intro hall
    obtain ⟨later, hlater⟩ := exists_rows_eq hrows hn (parse b.dialect text)
    rw [hlater] at hall
    exact (Samples.row_ne_nil_iff htime).1 (hall _ List.mem_cons_self)
  · intro hkey row hrow
    obtain ⟨i, -, rfl⟩ := List.mem_map.1 hrow
    exact (Samples.row_ne_nil_iff htime).2 hkey

/-- A line break in the name of a field breaks the first row. -/
theorem not_mild_build {n : Nat} (hrows : (rows.getD Samples.defaultCount).countBelow? = some n)
    (hn : 0 < n) (hfaults : ∀ c ∈ raw b.dialect text, c.delimiterFault = none)
    (hfitting : Fitting b.dialect text) {f : Field} (hf : f ∈ Field.ofDocument (parse b.dialect text))
    (hbreak : CodeUnit.ofChar '\n' ∈ f.name) :
    ¬Mild (Rules.Structure.issues
      (parse b.dialect (build (parse b.dialect text) { rows }).text)) := by
  obtain ⟨later, hlater⟩ := exists_rows_eq hrows hn (parse b.dialect text)
  generalize hfirst : Samples.row _ _ _ _ 0 = first at hlater
  have hvalues : ∀ pair ∈ first, pair.2.OneLine := by
    rw [← hfirst]
    intro pair hpair
    obtain ⟨-, ⟨s, -, rfl⟩ | ⟨g, -, rfl⟩⟩ := Samples.mem_row hpair
    · trivial
    · exact Samples.oneLine_ofField _ _ _
  have hkey : ∃ pair ∈ first, CodeUnit.ofChar '\n' ∈ pair.1 := by
    have hne : f.name ≠ Record.reservedKey := by
      intro heq
      rw [heq] at hbreak
      exact absurd hbreak (by decide)
    have hmem : f.name ∈ Record.keys first := by
      rw [← hfirst]
      exact Samples.mem_keys_row.2 ⟨hne, .inr ⟨f, hf, rfl⟩⟩
    obtain ⟨pair, hpair, hname⟩ := List.mem_map.1 hmem
    exact ⟨pair, hpair, by rwa [hname]⟩
  have htext : (build (parse b.dialect text) { rows }).text = splice text (parse b.dialect text).root
      (blockLines b.dialect (build (parse b.dialect text) { rows }).blockName none (first :: later))
      (b.dialect.reference (build (parse b.dialect text) { rows }).blockName) := by
    rw [← hlater]
    rfl
  rw [htext]
  exact not_mild_splice later hfaults hfitting isBlockName_build hvalues hkey

end Build

/-- The fixture of a valid query is valid exactly if its rows hold something and each of them stands on
one line. -/
theorem valid_build_iff (b : Builtin) (text : Text) (rows : Option Number) (n : Nat) {σ : Type}
    (elapsed elapsed' : Elapsed) (s : σ)
    (hvalid : (Analysis.run b.dialect {} elapsed none s text).report.valid = true)
    (hfitting : Fitting b.dialect text)
    (hrows : (rows.getD Samples.defaultCount).countBelow? = some n) (hn : 0 < n) :
    (Analysis.run b.dialect {} elapsed' none s
        (build (parse b.dialect text) { rows }).text).report.valid = true ↔
      ((Samples.timeStep? (parse b.dialect text)).isSome = true ∨
        ∃ f ∈ Field.ofDocument (parse b.dialect text), f.name ≠ Record.reservedKey) ∧
      ∀ f ∈ Field.ofDocument (parse b.dialect text), CodeUnit.ofChar '\n' ∉ f.name := by
  rw [Analysis.valid_run] at hvalid ⊢
  obtain ⟨hstructure, hordering⟩ := hvalid
  have hfaults : ∀ c ∈ raw b.dialect text, c.delimiterFault = none :=
    (forall_raw fun _ _ => Iff.rfl).1 fun c hc =>
      ((commandIssues_eq_nil c).1 (((mild_issues _ _).1 hstructure).2.2 c hc)).1
  by_cases hfields : ∀ f ∈ Field.ofDocument (parse b.dialect text), CodeUnit.ofChar '\n' ∉ f.name
  · obtain ⟨xs, ys, zs, rs, hinjected⟩ := @exists_injected b text rows hfaults hfitting hfields
    obtain ⟨index, p, ⟨h⟩⟩ := hinjected.insertion isBlockName_build rfl
    rw [h.mild_structure isBlockName_build hinjected (fun row hrow => reads_row hfields hrow) hstructure,
      rows_ne_nil_iff hrows hn]
    exact ⟨fun hall => ⟨hall.1, hfields⟩,
      fun hall => ⟨hall.1, h.mild_ordering isBlockName_build hordering⟩⟩
  · refine ⟨fun hall => ?_, fun hall => absurd hall.2 hfields⟩
    push Not at hfields
    obtain ⟨f, hf, hbreak⟩ := hfields
    exact absurd hall.1 (not_mild_build hrows hn hfaults hfitting hf hbreak)

theorem valid_build_grouped :
    (Analysis.run pipeline {} ⟨0, 0, 0⟩ none () "# all\nSOURCE x\n  LOAD\nGROUP \x7bby: h\x7d").report.valid =
        true ∧
      (Analysis.run pipeline {} ⟨0, 0, 0⟩ none () (build (parse pipeline
        "# all\nSOURCE x\n  LOAD\nGROUP \x7bby: h\x7d") { rows := some 2 }).text).report.valid = true := by
  have hvalid : (Analysis.run pipeline {} ⟨0, 0, 0⟩ none ()
      "# all\nSOURCE x\n  LOAD\nGROUP \x7bby: h\x7d").report.valid = true := by decide +kernel
  refine ⟨hvalid, (valid_build_iff .pipeline _ (some 2) 2 ⟨0, 0, 0⟩ ⟨0, 0, 0⟩ () hvalid ?_ ?_ ?_).2 ?_⟩
  · exact fitting_of_plain (by decide +kernel) (plain_of_free (by decide +kernel) (by decide +kernel))
  · decide +kernel
  · decide
  · decide +kernel

/-- A query without fields gets empty rows, and these are not valid. -/
theorem invalid_build_fieldless :
    (Analysis.run pipeline {} ⟨0, 0, 0⟩ none () "SOURCE x\nLOAD").report.valid = true ∧
      (Analysis.run pipeline {} ⟨0, 0, 0⟩ none ()
        (build (parse pipeline "SOURCE x\nLOAD") { rows := some 1 }).text).report.valid = false := by
  refine ⟨by decide +kernel, ?_⟩
  rw [Bool.eq_false_iff, ne_eq, Analysis.valid_run, mild_issues]
  rintro ⟨⟨-, -, hcommands⟩, -⟩
  exact absurd hcommands (by decide +kernel)

end Fixture
end QueryLint
