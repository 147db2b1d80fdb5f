import QueryLint.Proofs.Injection
import QueryLint.Proofs.RowData

/-!
What a fixture does to a query: it adds one block of sample rows and one reference to it, and every
command of the query stays as it was.
-/

namespace QueryLint
set_option autoImplicit false

open Chunk Document

namespace Fixture
open Dialect

/-- The places of the block and of the reference among the commands: `before` is what stands before
the block and `between` what stands between the two. The block is directly before the first source of
the top level, the reference directly behind the first loader that follows it there, or else behind
the source; without a source both are at the front. -/
def Placed (root before between : List Command) : Prop :=
  match root.dropWhile fun c => !c.hasRole .source with
  | [] => before = [] ∧ between = []
  | source :: later => between.head? = some source ∧
      between.getLast? = some ((later.find? (·.hasRole .loader)).getD source)

theorem anchors_eq (root : List Command) : anchors root =
    match root.dropWhile fun c => !c.hasRole .source with
    | [] => none
    | source :: later => some (source, (later.find? (·.hasRole .loader)).getD source) := by
  induction root with
  | nil => rfl
  | cons c root ih =>
    rw [anchors, List.dropWhile_cons]
    by_cases hsource : c.hasRole .source = true
    · simp [hsource]
    · simp [hsource, ih]

theorem placed_front {root : List Command} (h : anchors root = none) : Placed root [] [] := by
  unfold Placed
  rw [anchors_eq] at h
  split
  · exact ⟨rfl, rfl⟩
  · rename_i heq
    rw [heq] at h
    cases h

theorem placed_source {root before between : List Command} {source anchor : Command}
    (h : anchors root = some (source, anchor)) (hhead : between.head? = some source)
    (hlast : between.getLast? = some anchor) : Placed root before between := by
  unfold Placed
  rw [anchors_eq] at h
  split
  · rename_i heq
    rw [heq] at h
    cases h
  · rename_i heq
    rw [heq, Option.some.injEq, Prod.mk.injEq] at h
    obtain ⟨rfl, rfl⟩ := h
    exact ⟨hhead, hlast⟩

theorem commands_between {middle : List Command} {source anchor : Command}
    (hmiddle : openAt none middle = none) (hhead : (middle ++ [anchor]).head? = some source)
    (hsource : source.role? ≠ some .blockOpen) (hanchor : anchor.role? ≠ some .blockOpen) :
    ((group none (middle ++ [anchor])).flatMap Part.commands).head? = some source ∧
      ((group none (middle ++ [anchor])).flatMap Part.commands).getLast? = some anchor := by
  constructor
  · cases hlist : middle ++ [anchor] with
    | nil => simp at hlist
    | cons c rest =>
      rw [hlist, List.head?_cons, Option.some.injEq] at hhead
      subst hhead
      simp [group, hsource, Part.commands]
  · rw [group_append _ hmiddle]
    simp [group, hanchor, Part.commands]

section Build
variable {b : Builtin} {text : Text} {rows : Option Number}

theorem isBlockName_build :
    IsBlockName (build (parse b.dialect text) { rows }).blockName :=
  isBlockName_freeName _

theorem oneLine_build
    (hfields : ∀ f ∈ Field.ofDocument (parse b.dialect text), CodeUnit.ofChar '\n' ∉ f.name) :
    ∀ row ∈ (build (parse b.dialect text) { rows }).samples.rows, SampleRow.OneLine row := by
  have htime : CodeUnit.ofChar '\n' ∉ b.dialect.timeField := by cases b <;> decide
  intro row hrow
  obtain ⟨i, -, rfl⟩ := List.mem_map.1 hrow
  exact Samples.oneLine_row htime hfields

/-- The rows of a fixture are read back from their payloads. -/
theorem reads_row
    (hfields : ∀ f ∈ Field.ofDocument (parse b.dialect text), CodeUnit.ofChar '\n' ∉ f.name)
    {row : SampleRow} (hrow : row ∈ (build (parse b.dialect text) { rows }).samples.rows)
    (index : Nat) (p : Position) :
    (Command.ofClause b.dialect index p (rowClause row b)).Reads (some row.value) := by
  have htime : CodeUnit.ofChar '\n' ∉ b.dialect.timeField := by cases b <;> decide
  have hparse : ∃ notes, Payload.parse row.payload = .ok ⟨row.value, notes⟩ := by
    obtain ⟨i, -, rfl⟩ := List.mem_map.1 hrow
    exact Samples.parse_row htime hfields
  cases b with
  | mxql => exact Command.reads_ofClause rfl hparse
  | pipeline => exact Command.reads_ofClause rfl hparse

theorem plain_row {row : SampleRow} (hrow : row ∈ (build (parse b.dialect text) { rows }).samples.rows) :
    row.value.plain = .object (row.map fun pair => (pair.1, pair.2.readBack)) := by
  obtain ⟨i, -, rfl⟩ := List.mem_map.1 hrow
  refine SampleRow.plain_value (Samples.arranged_row ..) (Samples.nodup_keys_row ..) ?_ ?_
  · exact fun pair hpair => (Samples.mem_row hpair).1
  · intro pair hpair x hx
    exact Samples.positive_of_mem_row (fun s hs => Samples.unsigned_timeStep? hs) hpair hx

/-- A fixture of a text whose places are clean is an insertion. -/
theorem exists_insertion
    (hfaults : ∀ c ∈ raw b.dialect text, c.delimiterFault = none)
    (hclean : ∀ source anchor, anchors (parse b.dialect text).root = some (source, anchor) →
      Clean text source anchor)
    (hfields : ∀ f ∈ Field.ofDocument (parse b.dialect text), CodeUnit.ofChar '\n' ∉ f.name) :
    let f := build (parse b.dialect text) { rows }
    ∃ front middle back,
      Nonempty (Insertion b f.blockName f.samples.rows text f.text front middle back) ∧
      Placed (parse b.dialect text).root (front.flatMap Part.commands) (middle.flatMap Part.commands) := by
  intro f
  have hname : IsBlockName f.blockName := isBlockName_build
  have hrows : ∀ row ∈ f.samples.rows, SampleRow.OneLine row := oneLine_build hfields
  cases hanchors : anchors (parse b.dialect text).root with
  | none =>
    have hinjected := @injected_front b _ _ text _ hname hrows hanchors
    obtain ⟨index, p, hinsertion⟩ := hinjected.insertion hname rfl
    exact ⟨_, _, _, hinsertion, placed_front hanchors⟩
  | some places =>
    obtain ⟨source, anchor⟩ := places
    obtain ⟨xs, ys, u, v, hcuts⟩ := exists_cuts hanchors hfaults (hclean source anchor hanchors)
    have hinjected := injected_source hname hrows hanchors hcuts.toPlaces
    obtain ⟨index, p, hinsertion⟩ := hinjected.insertion hname hcuts.sourceIndex
    refine ⟨_, _, _, hinsertion, ?_⟩
    obtain ⟨middle, hmiddle, hhead, hcommands⟩ := hcuts.commands
    rw [hcommands]
    obtain ⟨hfirst, hlast⟩ := commands_between hmiddle hhead hcuts.sourceRole hcuts.anchorRole
    exact placed_source hanchors hfirst hlast

end Build

/-- A fixture with `n` rows extends a document: the commands are those of the document, of which
those `behind` follow the reference, with the block and the reference between them. -/
structure Extension (d : Document) (f : Fixture) (n : Nat) where
  before : List Command
  between : List Command
  behind : List Command
  before' : List Command
  between' : List Command
  behind' : List Command
  opener : Command
  rows : List Command
  closer : Command
  reference : Command
  move : Nat → Nat
  move_eq : move = moved before.length (before.length + between.length) n
  placed : Placed d.root before between
  commands_old : d.commands = before ++ (between ++ behind)
  commands_new : f.document.commands =
    before' ++ (opener :: (rows ++ [closer]) ++ (between' ++ (reference :: behind')))
  before_kept : List.Forall₂ (Command.Kept move) before before'
  between_kept : List.Forall₂ (Command.Kept move) between between'
  behind_kept : List.Forall₂ (Command.Kept move) behind behind'
  opener_role : opener.hasRole .blockOpen = true
  opener_scope : opener.scope = none
  rows_role : ∀ c ∈ rows, c.hasRole .literalRow = true ∧ c.scope = some f.blockName
  closer_role : closer.hasRole .blockClose = true
  closer_scope : closer.scope = some f.blockName
  reference_role : reference.hasRole .subqueryRef = true
  reference_scope : reference.scope = none
  reference_name : reference.referencedName? = some f.blockName
  count : rows.length = n
  payloads : List.Forall₂ (fun (row : SampleRow) c => c.payload.map Value.plain =
    some (.object (row.map fun pair => (pair.1, pair.2.readBack)))) f.samples.rows rows
  fresh : f.blockName ∉ d.blocks.map (·.name)
  blocks : ∃ front back front' back', d.blocks = front ++ back ∧
    f.document.blocks = front' ++ ⟨f.blockName, rows ++ [closer], opener.index, some closer.index⟩ :: back' ∧
    List.Forall₂ (Block.Kept move) front front' ∧ List.Forall₂ (Block.Kept move) back back'
  root : ∃ front middle back front' middle' back', d.root = front ++ (middle ++ back) ∧
    f.document.root = front' ++ (opener :: (middle' ++ (reference :: back'))) ∧
    List.Forall₂ (Command.Kept move) front front' ∧ List.Forall₂ (Command.Kept move) middle middle' ∧
    List.Forall₂ (Command.Kept move) back back'

/-- A fixture adds a block and a reference and leaves every command of the query as it was. -/
theorem build_extends (b : Builtin) (text : Text) (rows : Option Number) (n : Nat)
    (hplain : Plain text)
    (hfaults : ∀ c ∈ (parse b.dialect text).commands, c.delimiterFault = none)
    (hfields : ∀ f ∈ Field.ofDocument (parse b.dialect text), CodeUnit.ofChar '\n' ∉ f.name)
    (hrows : (rows.getD Samples.defaultCount).countBelow? = some n) :
    Nonempty (Extension (parse b.dialect text) (build (parse b.dialect text) { rows }) n) := by
  have hraw := (forall_raw fun _ _ => Iff.rfl).1 hfaults
  have hclean : ∀ source anchor, anchors (parse b.dialect text).root = some (source, anchor) →
      Clean text source anchor := by
    intro source anchor hanchors
    obtain ⟨pre, inner, cl, atSource, atAnchor, behind, hlocated⟩ := exists_located hanchors hraw
    exact hlocated.clean hplain
  obtain ⟨front, middle, back, ⟨h⟩, hplaced⟩ := @exists_insertion b text rows hraw hclean hfields
  have hname := @isBlockName_build b text rows
  have hcount : (build (parse b.dialect text) { rows }).samples.rows.length = n := by
    simp [build, Samples.ofDocument, hrows]
  have hpayloads : List.Forall₂ (fun (row : SampleRow) c => c.payload.map Value.plain =
      some (.object (row.map fun pair => (pair.1, pair.2.readBack))))
      (build (parse b.dialect text) { rows }).samples.rows h.lines := by
    refine ((List.forall₂_and_left _ _).2 ⟨fun row hrow => hrow, h.lines_eq⟩).imp ?_
    rintro row c ⟨hrow, k, p, rfl⟩
    rw [(reads_row hfields hrow k p).payload, Option.map_some, plain_row hrow]
  have hdocument : (build (parse b.dialect text) { rows }).document =
      parse b.dialect (build (parse b.dialect text) { rows }).text := rfl
  have hfresh : (build (parse b.dialect text) { rows }).blockName ∉
      (parse b.dialect text).blocks.map (·.name) := freeName_not_mem _ _
  generalize build (parse b.dialect text) { rows } = f at *
  obtain ⟨k, p, hopener⟩ := h.opener_eq
  obtain ⟨k', p', hcloser⟩ := h.closer_eq
  obtain ⟨k'', p'', hreference⟩ := h.reference_eq
  refine ⟨{
    before := front.flatMap Part.commands
    between := middle.flatMap Part.commands
    behind := back.flatMap Part.commands
    before' := h.front'.flatMap Part.commands
    between' := h.middle'.flatMap Part.commands
    behind' := h.back'.flatMap Part.commands
    opener := h.opener
    rows := h.lines.map (Command.within f.blockName)
    closer := h.closer.within f.blockName
    reference := h.reference
    move := h.move
    move_eq := by rw [h.move_eq, hcount]
    placed := hplaced
    commands_old := by rw [commands_parse, h.parts_text, List.flatMap_append, List.flatMap_append]
    commands_new := by
      rw [hdocument, commands_parse, h.parts_spliced]
      simp [Part.commands]
    before_kept := commands_kept h.front_kept
    between_kept := commands_kept h.middle_kept
    behind_kept := commands_kept h.back_kept
    opener_role := by simp [Command.hasRole, hopener, role_opener]
    opener_scope := by rw [hopener, Command.scope_ofClause]
    rows_role := ?_
    closer_role := by simp [Command.hasRole, hcloser, role_closer]
    closer_scope := rfl
    reference_role := by simp [Command.hasRole, hreference, role_reference]
    reference_scope := by rw [hreference, Command.scope_ofClause]
    reference_name := by rw [hreference, referencedName_reference b _ _ hname]
    count := by rw [List.length_map, ← h.lines_eq.length_eq, hcount]
    payloads := List.forall₂_map_right_iff.2 hpayloads
    fresh := hfresh
    blocks := ?_
    root := ?_ }⟩
  · intro c hc
    obtain ⟨line, hline, rfl⟩ := List.mem_map.1 hc
    obtain ⟨row, -, m, q, rfl⟩ := exists_of_forall₂_right h.lines_eq hline
    exact ⟨by simp [Command.hasRole, role_row], rfl⟩
  · refine ⟨front.filterMap Part.block?, (middle ++ back).filterMap Part.block?,
      h.front'.filterMap Part.block?, (h.middle' ++ h.back').filterMap Part.block?, ?_, ?_,
      blocks_kept h.front_kept, blocks_kept (List.rel_append h.middle_kept h.back_kept)⟩
    · rw [blocks_parse, h.parts_text, List.filterMap_append]
    · rw [hdocument, blocks_parse, h.parts_spliced]
      simp [Part.block?, List.filterMap_cons]
  · refine ⟨front.map Part.head, middle.map Part.head, back.map Part.head, h.front'.map Part.head,
      h.middle'.map Part.head, h.back'.map Part.head, ?_, ?_, heads_kept h.front_kept,
      heads_kept h.middle_kept, heads_kept h.back_kept⟩
    · rw [root_parse, h.parts_text, List.map_append, List.map_append]
    · rw [hdocument, root_parse, h.parts_spliced]
      simp [Part.head]

theorem build_extends_loaded : Nonempty (Extension
    (parse pipeline "# all\nSOURCE x\n  LOAD\nGROUP \x7bby: h, interval: 5m\x7d")
    (build (parse pipeline "# all\nSOURCE x\n  LOAD\nGROUP \x7bby: h, interval: 5m\x7d")
      { rows := some 2 }) 2) :=
  build_extends .pipeline _ (some 2) 2 (plain_of_free (by decide +kernel) (by decide +kernel))
    (by decide +kernel) (by decide +kernel) (by decide +kernel)

end Fixture
end QueryLint
