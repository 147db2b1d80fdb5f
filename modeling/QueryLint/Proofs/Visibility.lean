import QueryLint.Proofs.Ordering
import QueryLint.Proofs.Partition

/-!
Which subqueries a reference sees.

At the top level a reference sees the blocks that are opened before it, and inside a block those
that are opened before the block. How a block ends plays no part, and neither does a second block
of the same name.
-/

namespace QueryLint
set_option autoImplicit false

namespace Rules.Ordering
open Document

/-- A block of that name is opened before the command with the given index; an empty name is none. -/
def Sees (d : Document) (index : Nat) (name : Text) : Prop :=
  name ≠ [] ∧ ∃ b ∈ d.blocks, b.name = name ∧ b.openerIndex < index

/-- A reference with a payload that was read, and which names nothing that is seen at the index. -/
def Dangling (d : Document) (index : Nat) (c : Command) : Prop :=
  c.hasRole .subqueryRef ∧ c.payload ≠ none ∧
    ¬∃ name, c.referencedName? = some name ∧ Sees d index name

/-- The rule is reported at the command once if it is broken there and never otherwise. -/
structure ReportedIff (rule : Rule) (c : Command) (issues : List Issue) (broken : Prop) : Prop where
  once : broken → reported rule c issues = 1
  never : ¬broken → reported rule c issues = 0

/-- Whether a command is a reference to none of the names. -/
def dangles (visible : List Text) (c : Command) : Bool :=
  c.hasRole .subqueryRef && c.payload.isSome && !c.referencedName?.any visible.contains

theorem reported_referenceIssues (visible : List Text) (c : Command) :
    reported .undefinedSubquery c (referenceIssues visible c) =
      if c.payload.isSome && !c.referencedName?.any visible.contains then 1 else 0 := by
  unfold referenceIssues
  cases hpayload : c.payload with
  | none => simp
  | some payload =>
    cases hname : c.referencedName? with
    | none => simp
    | some name => by_cases hvisible : name ∈ visible <;> simp [hvisible]

theorem reported_visit_reference (dialect : Dialect) (p : Progress) (c : Command) :
    reported .undefinedSubquery c (visit dialect p c).2 = if dangles p.visible c then 1 else 0 := by
  unfold visit
  cases hspec : c.spec with
  | none => simp [unknownCommand, dangles, Command.hasRole, Command.role?, hspec]
  | some spec =>
    have hhas : c.hasRole .subqueryRef = decide (spec.role = .subqueryRef) := by
      simp [Command.hasRole, Command.role?, hspec]
    rw [reported_append, reported_forbidden (by decide), Nat.zero_add]
    unfold dangles
    rw [hhas]
    cases spec.role with
    | subqueryRef => simpa [roleIssues] using reported_referenceIssues p.visible c
    | loader | aggregate | bound | projection =>
      simp only [roleIssues]
      split <;> simp
    | _ => simp [roleIssues]

theorem reported_unfed {rule : Rule} (hne : ¬Rule.missingLoader = rule) (dialect : Dialect)
    (name : Option Text) (p : Progress) (c : Command) :
    reported rule c (missingLoader dialect name p) = 0 := by
  unfold missingLoader
  cases p.first with
  | none => rfl
  | some first =>
    dsimp only
    split
    · rfl
    · simp [reported, Issue.ofCommand, hne]

theorem mem_visibleNames {ps : List Part} {name : Text} :
    name ∈ visibleNames ps ↔ name ≠ [] ∧ ∃ b ∈ ps.filterMap Part.block?, b.name = name := by
  simp [visibleNames, and_comm]

theorem visible_throughParts (ps : List Part) :
    ((Progress.start []).throughParts ps).visible = visibleNames ps := by
  simp [Progress.throughParts, Progress.start]

theorem openerIndex_of_formed {part : Part} (hformed : part.Formed) {b : Block}
    (hb : part.block? = some b) : b.openerIndex = part.head.index := by
  cases part with
  | single c => cases hb
  | block opener b' =>
    cases hb
    exact hformed.2

section Parts
variable {dialect : Dialect} {text : Text} {front back : List Part} {part : Part}
variable (hparts : parts dialect text = front ++ part :: back)
include hparts

theorem sees_iff (name : Text) :
    Sees (parse dialect text) part.head.index name ↔ name ∈ visibleNames front := by
  have hsorted := ordered_scopes dialect text _ List.mem_cons_self
  change (parse dialect text).root.Pairwise _ at hsorted
  rw [root_parse, hparts, List.pairwise_map, List.pairwise_append] at hsorted
  obtain ⟨-, hback, hfront⟩ := hsorted
  have hformed := formed_parts dialect text
  rw [mem_visibleNames, Sees, blocks_parse]
  refine and_congr_right fun _ => ⟨?_, ?_⟩
  · rintro ⟨b, hb, hname, hlt⟩
    obtain ⟨own, hown, hblock⟩ := List.mem_filterMap.1 hb
    rw [openerIndex_of_formed (hformed own hown) hblock] at hlt
    rw [hparts] at hown
    rcases List.mem_append.1 hown with hown | hown
    · exact ⟨b, List.mem_filterMap.2 ⟨own, hown, hblock⟩, hname⟩
    · -- the part itself and those behind it come too late
      rcases List.mem_cons.1 hown with rfl | hown
      · exact absurd hlt (Nat.lt_irrefl _)
      · have hlater := (List.pairwise_cons.1 hback).1 own hown
        omega
  · rintro ⟨b, hb, hname⟩
    obtain ⟨own, hown, hblock⟩ := List.mem_filterMap.1 hb
    have hmem : own ∈ parts dialect text := by
      rw [hparts]
      exact List.mem_append_left _ hown
    refine ⟨b, List.mem_filterMap.2 ⟨own, hmem, hblock⟩, hname, ?_⟩
    rw [openerIndex_of_formed (hformed own hmem) hblock]
    exact hfront own hown part List.mem_cons_self

theorem dangles_iff (c : Command) : dangles (visibleNames front) c = true ↔
    Dangling (parse dialect text) part.head.index c := by
  have hsees := sees_iff hparts
  unfold Dangling
  simp only [hsees]
  cases hname : c.referencedName? <;>
    simp [dangles, hname, Option.isSome_iff_ne_none, and_assoc]

theorem reportedIff_of_dangles {c : Command} {issues : List Issue}
    (h : reported .undefinedSubquery c issues = if dangles (visibleNames front) c then 1 else 0) :
    ReportedIff .undefinedSubquery c issues (Dangling (parse dialect text) part.head.index c) where
  once hdangling := by rw [h, if_pos ((dangles_iff hparts c).2 hdangling)]
  never hseen := by rw [h, if_neg fun hdangles => hseen ((dangles_iff hparts c).1 hdangles)]

/-- The head of a part is judged by the blocks before it. -/
theorem reportedIff_head : ReportedIff .undefinedSubquery part.head (issues (parse dialect text))
    (Dangling (parse dialect text) part.head.index part.head) := by
  have hnodup := nodup_index_commands dialect text
  rw [hparts] at hnodup
  have hunfed : reported .undefinedSubquery part.head
      (if (parse dialect text).blocks.isEmpty then
        missingLoader dialect none (walkParts dialect (.start []) (parts dialect text)).1 else []) = 0 := by
    split
    · exact reported_unfed (by decide) dialect none _ part.head
    · rfl
  refine reportedIff_of_dangles hparts ?_
  rw [issues_parse, reported_append, hunfed, hparts, reported_head_visit dialect _ hnodup,
    reported_visit_reference, visible_throughParts, Nat.add_zero]

/-- The commands of a block are judged by the blocks before theirs. -/
theorem reportedIff_body {b : Block} (hb : part.block? = some b) {c : Command}
    (hc : c ∈ b.commands) : ReportedIff .undefinedSubquery c (issues (parse dialect text))
      (Dangling (parse dialect text) part.head.index c) := by
  have hnodup := nodup_index_commands dialect text
  have hpart : part ∈ parts dialect text := by simp [hparts]
  obtain ⟨before, after, hcommands⟩ := List.append_of_mem hc
  have hindices : ((before ++ c :: after).map Command.index).Nodup := by
    rw [← hcommands]
    exact ((block_sublist hpart hb).map Command.index).nodup hnodup
  have hblocks : (parse dialect text).blocks.isEmpty = false := by
    have hmem : b ∈ (parse dialect text).blocks := by
      rw [blocks_parse]
      exact List.mem_filterMap.2 ⟨part, hpart, hb⟩
    simpa using List.ne_nil_of_mem hmem
  rw [hparts] at hnodup
  refine reportedIff_of_dangles hparts ?_
  rw [issues_parse, reported_append, hblocks, hparts, reported_body dialect _ hnodup hb hc]
  simp only [Bool.false_eq_true, if_false, reported_nil, Nat.add_zero, blockIssues, reported_append,
    reported_unfed (show ¬Rule.missingLoader = .undefinedSubquery by decide)]
  rw [hcommands, reported_walk_visit dialect _ hindices, reported_visit_reference, visible_throughParts]
  rfl

end Parts

/-- A reference is reported as undefined exactly if nothing that is opened before it, or before the
block that it stands in, has the name that it gives. So a block sees neither itself nor a later one,
a block that the next opener ends is visible in the next block, and what is seen once is seen from
there on. -/
theorem undefined_iff_dangling (dialect : Dialect) (text : Text) :
    let d := Document.parse dialect text
    (∀ c ∈ d.root, ReportedIff .undefinedSubquery c (issues d) (Dangling d c.index c)) ∧
    (∀ b ∈ d.blocks, ∀ c ∈ b.commands,
      ReportedIff .undefinedSubquery c (issues d) (Dangling d b.openerIndex c)) ∧
    (∀ b ∈ d.blocks, ∀ name, (∀ b' ∈ d.blocks, b'.name = name → b.openerIndex ≤ b'.openerIndex) →
      ¬Sees d b.openerIndex name) ∧
    (∀ front b next back, d.blocks = front ++ b :: next :: back → b.closerIndex = none →
      b.name ≠ [] → Sees d next.openerIndex b.name) ∧
    ∀ name index later, index ≤ later → Sees d index name → Sees d later name := by
  intro d
  refine ⟨?_, ?_, ?_, ?_, ?_⟩
  · intro c hc
    rw [root_parse] at hc
    obtain ⟨part, hpart, rfl⟩ := List.mem_map.1 hc
    obtain ⟨front, back, hparts⟩ := List.append_of_mem hpart
    exact reportedIff_head hparts
  · intro b hb c hc
    have hblocks := hb
    rw [blocks_parse] at hblocks
    obtain ⟨part, hpart, hblock⟩ := List.mem_filterMap.1 hblocks
    obtain ⟨front, back, hparts⟩ := List.append_of_mem hpart
    rw [openerIndex_of_formed (formed_parts dialect text part hpart) hblock]
    exact reportedIff_body hparts hblock hc
  · rintro b hb name hfirst ⟨-, b', hb', hname, hlt⟩
    have hle := hfirst b' hb' hname
    omega
  · intro front b next back hblocks _ hname
    have hsorted := sorted_blocks dialect text
    rw [hblocks, List.pairwise_append] at hsorted
    refine ⟨hname, b, by simp [hblocks], rfl, ?_⟩
    exact (List.pairwise_cons.1 hsorted.2.1).1 next List.mem_cons_self
  · rintro name index later hle ⟨hname, b, hb, hb', hlt⟩
    exact ⟨hname, b, hb, hb', by omega⟩

/-- A block does not see itself. -/
theorem undefined_own_name :
    ∃ b c rest, (Document.parse Dialect.pipeline "BLOCK b\nUSE b\nEND").blocks = [b] ∧
      b.commands = c :: rest ∧ c.referencedName? = some b.name ∧
      reported .undefinedSubquery c
        (issues (Document.parse Dialect.pipeline "BLOCK b\nUSE b\nEND")) = 1 := by
  have hshape : (Document.parse Dialect.pipeline "BLOCK b\nUSE b\nEND").blocks.map (fun b =>
      (b.name, b.commands.map fun c => (c.hasRole .subqueryRef, c.payload.isSome, c.referencedName?))) =
      [(Text.ofString "b", [(true, true, some (Text.ofString "b")), (false, false, none)])] := by
    decide +kernel
  obtain ⟨b, hblocks, hb⟩ := List.map_eq_singleton_iff.1 hshape
  obtain ⟨hname, hcommands⟩ := Prod.mk.inj hb
  obtain ⟨c, rest, hcs, hc, -⟩ := List.map_eq_cons_iff.1 hcommands
  simp only [Prod.mk.injEq] at hc
  obtain ⟨hrole, hpayload, hreference⟩ := hc
  have hmem : b ∈ (Document.parse Dialect.pipeline "BLOCK b\nUSE b\nEND").blocks := by simp [hblocks]
  have hinside := (undefined_iff_dangling Dialect.pipeline "BLOCK b\nUSE b\nEND").2.1 b hmem c
    (by simp [hcs])
  refine ⟨b, c, rest, hblocks, hcs, hreference.trans (congrArg some hname.symm), hinside.once ?_⟩
  refine ⟨hrole, by simpa [Option.isSome_iff_ne_none] using hpayload, ?_⟩
  rintro ⟨name, -, -, b', hb', -, hlt⟩
  rw [hblocks, List.mem_singleton] at hb'
  subst hb'
  exact absurd hlt (Nat.lt_irrefl _)

end Rules.Ordering
end QueryLint
