import QueryLint.Proofs.Splice
import QueryLint.Proofs.Templates

/-!
What a fixture puts into a document.

The chunks of a fixture are those of the text with the chunks of the block and of the reference
between them. So its parts are those of the document, moved, with one block and one reference more.
-/

namespace QueryLint
set_option autoImplicit false

open Chunk Document

def Chunk.ofClauses (cls : List Clause) : List Chunk :=
  cls.flatMap fun cl => [clause cl, skipped [('\n' : CodeUnit)]]

theorem Chunk.cut_lines {isKeyword : Text → Bool} {lines : List Text} {cls : List Clause}
    (h : List.Forall₂ (IsClauseLine isKeyword) lines cls) (v : Text) :
    Cut isKeyword (lines.flatMap (fun line => line ++ [('\n' : CodeUnit)]) ++ v) (ofClauses cls) v := by
  induction h with
  | nil => exact .done v
  | @cons line cl lines cls hline _ ih =>
    have hbreak := (cut_lineBreak isKeyword (lines.flatMap (fun line => line ++ [('\n' : CodeUnit)]) ++ v))
    have hfirst := hline _ (.lineBreak (lines.flatMap (fun line => line ++ [('\n' : CodeUnit)]) ++ v))
    have hcut := (hfirst.trans hbreak).trans ih
    simpa [ofClauses] using hcut

theorem Text.join_lines (line : Text) (lines : List Text) :
    Text.join "\n" (line :: lines) ++ "\n" =
      (line :: lines).flatMap fun line => line ++ [('\n' : CodeUnit)] := by
  have hbreak : Text.ofString "\n" = [CodeUnit.ofChar '\n'] := by decide
  rw [Text.join_cons, hbreak]
  induction lines generalizing line with
  | nil => simp
  | cons next lines ih =>
    have hrest := ih next
    simp only [List.flatMap_cons, List.append_assoc, List.cons_append] at hrest ⊢
    rw [hrest]

namespace Fixture
open Dialect

def blockClauses (b : Builtin) (name : Text) (rows : List SampleRow) : List Clause :=
  openerClause name b :: (rows.map (rowClause · b) ++ [closerClause])

theorem isClauseLine_block (isKeyword : Text → Bool) (b : Builtin) {name : Text} {rows : List SampleRow}
    (hname : IsBlockName name) (hrows : ∀ row ∈ rows, row.OneLine) :
    List.Forall₂ (IsClauseLine isKeyword) (blockLines b.dialect name none rows)
      (blockClauses b name rows) := by
  have hlast : List.Forall₂ (IsClauseLine isKeyword)
      (rows.map (fun row => b.dialect.row row.payload) ++ [b.dialect.closeBlock])
      (rows.map (rowClause · b) ++ [closerClause]) := by
    refine List.rel_append ?_ (.cons (isClauseLine_closer isKeyword b) .nil)
    rw [List.forall₂_map_left_iff, List.forall₂_map_right_iff, List.forall₂_same]
    exact fun row hrow => isClauseLine_row isKeyword b (hrows row hrow)
  exact .cons (isClauseLine_opener isKeyword b hname) hlast

theorem block_text (b : Builtin) (name : Text) (rows : List SampleRow) :
    Text.join "\n" (blockLines b.dialect name none rows) ++ "\n" =
      (blockLines b.dialect name none rows).flatMap fun line => line ++ [('\n' : CodeUnit)] :=
  Text.join_lines _ _

/-- The chunks of a text with those of a fixture put in at the two places between `xs`, `ys` and
`zs`; no block is open there. -/
structure Injected (b : Builtin) (name : Text) (rows : List SampleRow) (text spliced : Text)
    (xs ys zs rs : List Chunk) : Prop where
  before : ofText b.dialect.isKeyword text = xs ++ (ys ++ zs)
  behind : ofText b.dialect.isKeyword spliced =
    xs ++ (ofClauses (blockClauses b name rows) ++ (ys ++ (rs ++ zs)))
  reference : rs = [.skipped ['\n'], .clause (referenceClause name b)] ∨
    rs = [.clause (referenceClause name b), .skipped ['\n']]
  closedBefore : openAt none (commandsOf b.dialect 0 .start xs) = none
  closedBetween : openAt none (commandsOf b.dialect (commandsOf b.dialect 0 .start xs).length
    (Position.start.after (texts xs)) ys) = none

section Texts
variable {b : Builtin} {name : Text} {rows : List SampleRow} {text : Text} {root : List Command}
variable (hname : IsBlockName name) (hrows : ∀ row ∈ rows, row.OneLine)
include hname hrows

theorem injected_source {source anchor : Command} {xs ys : List Chunk} {u v : Text}
    (hanchors : anchors root = some (source, anchor))
    (h : Places b.dialect text source anchor xs ys u v) :
    Injected b name rows text
      (splice text root (blockLines b.dialect name none rows) (b.dialect.reference name)) xs ys
      (ofText b.dialect.isKeyword v) [.skipped ['\n'], .clause (referenceClause name b)] := by
  have hbreak : Text.ofString "\n" = [CodeUnit.ofChar '\n'] := by decide
  have htext : splice text root (blockLines b.dialect name none rows) (b.dialect.reference name) =
      texts xs ++ ((blockLines b.dialect name none rows).flatMap
        (fun line => line ++ [CodeUnit.ofChar '\n']) ++
          (texts ys ++ CodeUnit.ofChar '\n' :: (b.dialect.reference name ++ v))) := by
    have hbefore : text.take (texts xs).length = texts xs := by
      rw [h.text_eq, List.take_left]
    have hbetween : (text.take (texts xs ++ texts ys).length).drop (texts xs).length = texts ys := by
      rw [h.text_eq, ← List.append_assoc, List.take_left, List.drop_left]
    have hbehind : text.drop (texts xs ++ texts ys).length = v := by
      rw [h.text_eq, ← List.append_assoc, List.drop_left]
    unfold splice
    simp only [hanchors, h.blockAt, h.referenceAt, block_text, hbefore, hbetween, hbehind]
    simp [hbreak]
  have hcut : Cut b.dialect.isKeyword
      (splice text root (blockLines b.dialect name none rows) (b.dialect.reference name))
      (xs ++ (ofClauses (blockClauses b name rows) ++
        (ys ++ ([.skipped ['\n']] ++ [.clause (referenceClause name b)])))) v := by
    rw [htext]
    refine (h.first_stable _).trans ((cut_lines (isClauseLine_block _ b hname hrows) _).trans
      ((h.second_stable (.lineBreak _)).trans ((cut_lineBreak _ _).trans ?_)))
    exact isClauseLine_reference _ b hname v h.endsLine
  constructor
  case before => exact h.ofText_eq
  case behind =>
    rw [hcut.ofText_eq]
    simp
  case reference => exact .inl rfl
  case closedBefore => exact h.closedBefore
  case closedBetween => exact h.closedBetween

theorem injected_front (hanchors : anchors root = none) :
    Injected b name rows text
      (splice text root (blockLines b.dialect name none rows) (b.dialect.reference name)) [] []
      (ofText b.dialect.isKeyword text) [.clause (referenceClause name b), .skipped ['\n']] := by
  have hbreak : Text.ofString "\n" = [CodeUnit.ofChar '\n'] := by decide
  have htext : splice text root (blockLines b.dialect name none rows) (b.dialect.reference name) =
      (blockLines b.dialect name none rows).flatMap (fun line => line ++ [CodeUnit.ofChar '\n']) ++
        (b.dialect.reference name ++ CodeUnit.ofChar '\n' :: text) := by
    unfold splice
    simp only [hanchors, block_text]
    simp [hbreak]
  have hcut : Cut b.dialect.isKeyword
      (splice text root (blockLines b.dialect name none rows) (b.dialect.reference name))
      (ofClauses (blockClauses b name rows) ++
        ([.clause (referenceClause name b)] ++ [.skipped ['\n']])) text := by
    rw [htext]
    refine (cut_lines (isClauseLine_block _ b hname hrows) _).trans (.trans ?_ (cut_lineBreak _ text))
    exact isClauseLine_reference _ b hname _ (.lineBreak text)
  constructor
  case before => rfl
  case behind =>
    rw [hcut.ofText_eq]
    simp
  case reference => exact .inr rfl
  case closedBefore => rfl
  case closedBetween => rfl

end Texts

end Fixture

namespace Document

theorem group_lines {b : OpenBlock} {lines : List Command} {closer : Command}
    (hlines : ∀ c ∈ lines, c.role? ≠ some .blockOpen ∧ c.role? ≠ some .blockClose)
    (hcloser : closer.role? = some .blockClose) :
    group (some b) (lines ++ [closer]) =
        [.block b.opener ⟨b.name, b.commands ++ (lines ++ [closer]).map (Command.within b.name),
          b.opener.index, some closer.index⟩] ∧
      openAt (some b) (lines ++ [closer]) = none := by
  induction lines generalizing b with
  | nil => simp [group, openAt, hcloser, OpenBlock.add, OpenBlock.part]
  | cons c lines ih =>
    obtain ⟨hopen, hclose⟩ := hlines c List.mem_cons_self
    obtain ⟨hgroup, hopenAt⟩ := @ih (b.add c) fun d hd => hlines d (List.mem_cons_of_mem _ hd)
    simp only [List.cons_append, group, openAt, hopen, hclose, if_false, hgroup, hopenAt]
    simp [OpenBlock.add]

theorem group_block {opener closer : Command} {lines : List Command}
    (hopener : opener.role? = some .blockOpen)
    (hlines : ∀ c ∈ lines, c.role? ≠ some .blockOpen ∧ c.role? ≠ some .blockClose)
    (hcloser : closer.role? = some .blockClose) {name : Text} (hname : opener.declaredName? = some name) :
    group none (opener :: (lines ++ [closer])) =
        [.block opener ⟨name, (lines ++ [closer]).map (Command.within name), opener.index,
          some closer.index⟩] ∧
      openAt none (opener :: (lines ++ [closer])) = none := by
  obtain ⟨hgroup, hopenAt⟩ := @group_lines (.start opener) lines closer hlines hcloser
  simp only [group, openAt, hopener, if_true, hgroup, hopenAt]
  simp [OpenBlock.start, hname]

theorem length_commands_group (cs : List Command) :
    ((group none cs).flatMap Part.commands).length = cs.length := by
  have hmap := congrArg List.length (map_commands_group (fun _ => ()) (fun _ _ => rfl) none cs)
  simpa [pending] using hmap

end Document

theorem commandsOf_ofClauses (dialect : Dialect) (index : Nat) (p : Position) (cls : List Clause) :
    List.Forall₂ (fun cl c => ∃ k p', c = Command.ofClause dialect k p' cl) cls
      (commandsOf dialect index p (ofClauses cls)) := by
  induction cls generalizing index p with
  | nil => exact .nil
  | cons cl cls ih => exact .cons ⟨index, p, rfl⟩ (ih (index + 1) _)

namespace Fixture
open Dialect

/-- Where the command with index `m` stands once a block of `n` rows is put in before index `i` and
a reference before index `j`. -/
def moved (i j n m : Nat) : Nat := if m < i then m else if m < j then m + (n + 2) else m + (n + 3)

section Moved
variable {i j m : Nat} (n : Nat)

theorem moved_front (h : m < i) : moved i j n m = m := by simp [moved, h]

theorem moved_between (hi : i ≤ m) (hj : m < j) : moved i j n m = m + (n + 2) := by
  simp [moved, Nat.not_lt.2 hi, hj]

theorem moved_behind (hi : i ≤ j) (hj : j ≤ m) : moved i j n m = m + (n + 3) := by
  simp [moved, Nat.not_lt.2 (hi.trans hj), Nat.not_lt.2 hj]

end Moved

/-- The parts `front`, `middle` and `back` of a text with a block between the first two and a
reference between the last two. -/
structure Insertion (b : Builtin) (name : Text) (rows : List SampleRow) (text spliced : Text)
    (front middle back : List Part) where
  opener : Command
  lines : List Command
  closer : Command
  reference : Command
  front' : List Part
  middle' : List Part
  back' : List Part
  move : Nat → Nat
  parts_text : parts b.dialect text = front ++ (middle ++ back)
  parts_spliced : parts b.dialect spliced =
    front' ++ (.block opener ⟨name, (lines ++ [closer]).map (Command.within name), opener.index,
      some closer.index⟩ :: (middle' ++ (.single reference :: back')))
  move_eq : move = moved (front.flatMap Part.commands).length
    ((front.flatMap Part.commands).length + (middle.flatMap Part.commands).length) rows.length
  front_kept : List.Forall₂ (Part.Kept move) front front'
  middle_kept : List.Forall₂ (Part.Kept move) middle middle'
  back_kept : List.Forall₂ (Part.Kept move) back back'
  opener_eq : ∃ k p, opener = .ofClause b.dialect k p (openerClause name b)
  lines_eq : List.Forall₂ (fun row c => ∃ k p, c = .ofClause b.dialect k p (rowClause row b)) rows lines
  closer_eq : ∃ k p, closer = .ofClause b.dialect k p closerClause
  reference_eq : ∃ k p, reference = .ofClause b.dialect k p (referenceClause name b)

theorem exists_block (b : Builtin) {name : Text} (rows : List SampleRow) (hname : IsBlockName name)
    (index : Nat) (p : Position) :
    ∃ opener lines closer,
      commandsOf b.dialect index p (ofClauses (blockClauses b name rows)) =
        opener :: (lines ++ [closer]) ∧
      (∃ k p, opener = .ofClause b.dialect k p (openerClause name b)) ∧
      List.Forall₂ (fun row c => ∃ k p, c = .ofClause b.dialect k p (rowClause row b)) rows lines ∧
      (∃ k p, closer = .ofClause b.dialect k p closerClause) ∧
      group none (opener :: (lines ++ [closer])) =
        [.block opener ⟨name, (lines ++ [closer]).map (Command.within name), opener.index,
          some closer.index⟩] ∧
      openAt none (opener :: (lines ++ [closer])) = none := by
  have hsplit : ofClauses (blockClauses b name rows) =
      ofClauses [openerClause name b] ++ (ofClauses (rows.map (rowClause · b)) ++ ofClauses [closerClause]) := by
    simp [blockClauses, ofClauses]
  have hlines := fun index p => commandsOf_ofClauses b.dialect index p (rows.map (rowClause · b))
  rw [hsplit, commandsOf_append, commandsOf_append]
  refine ⟨_, _, _, rfl, ⟨_, _, rfl⟩, List.forall₂_map_left_iff.1 (hlines _ _), ⟨_, _, rfl⟩, ?_⟩
  refine group_block (role_opener b _ _ name) ?_ (role_closer b _ _) (declaredName_opener b _ _ hname)
  intro c hc
  obtain ⟨row, -, k, p', rfl⟩ := exists_of_forall₂_right (List.forall₂_map_left_iff.1 (hlines _ _)) hc
  rw [role_row]
  decide

theorem commandsOf_reference {b : Builtin} {name : Text} {rs : List Chunk}
    (h : rs = [.skipped ['\n'], .clause (referenceClause name b)] ∨
      rs = [.clause (referenceClause name b), .skipped ['\n']]) (index : Nat) (p : Position) :
    ∃ p', commandsOf b.dialect index p rs = [.ofClause b.dialect index p' (referenceClause name b)] := by
  rcases h with rfl | rfl
  · exact ⟨_, rfl⟩
  · exact ⟨_, rfl⟩

section Parts
variable {b : Builtin} {name : Text} {rows : List SampleRow} {text spliced : Text}
variable {xs ys zs rs : List Chunk}

section Raw
variable (h : Injected b name rows text spliced xs ys zs rs) {a k : Nat} {p : Position}
variable (ha : a = (commandsOf b.dialect 0 .start xs).length) (hp : Position.start.after (texts xs) = p)
variable (hk : a + (commandsOf b.dialect a p ys).length = k)
include h ha hp hk

theorem Injected.raw_text : raw b.dialect text = commandsOf b.dialect 0 .start xs ++
    (commandsOf b.dialect a p ys ++ commandsOf b.dialect k (p.after (texts ys)) zs) := by
  rw [raw, h.before, commandsOf_append, commandsOf_append, Nat.zero_add, ← ha, hp, hk]

/-- The commands between the places follow the block, and those behind the second place the reference
besides. -/
theorem Injected.raw_spliced {block : List Command}
    (hblock : commandsOf b.dialect a p (ofClauses (blockClauses b name rows)) = block)
    (hcount : block.length = rows.length + 2) :
    ∃ p₁ p₂ p₃, raw b.dialect spliced = commandsOf b.dialect 0 .start xs ++
      (block ++ (commandsOf b.dialect (a + (rows.length + 2)) p₁ ys ++
        ([.ofClause b.dialect (k + (rows.length + 2)) p₂ (referenceClause name b)] ++
          commandsOf b.dialect (k + (rows.length + 3)) p₃ zs))) := by
  have hlength : ∀ p', a + (rows.length + 2) +
      (commandsOf b.dialect (a + (rows.length + 2)) p' ys).length = k + (rows.length + 2) := by
    intro p'
    rw [length_commandsOf b.dialect _ a _ p ys, ← hk]
    omega
  rw [raw, h.behind, commandsOf_append, Nat.zero_add, ← ha, hp, commandsOf_append, hblock, hcount,
    commandsOf_append, hlength, commandsOf_append]
  obtain ⟨p₂, hreference⟩ := commandsOf_reference h.reference (k + (rows.length + 2))
    ((p.after (texts (ofClauses (blockClauses b name rows)))).after (texts ys))
  rw [hreference]
  exact ⟨_, p₂, _, rfl⟩

end Raw

theorem Injected.insertion (h : Injected b name rows text spliced xs ys zs rs) (hname : IsBlockName name)
    {a : Nat} (ha : a = (commandsOf b.dialect 0 .start xs).length) :
    ∃ index p, Nonempty (Insertion b name rows text spliced
      (group none (commandsOf b.dialect 0 .start xs))
      (group none (commandsOf b.dialect a (Position.start.after (texts xs)) ys))
      (group none (commandsOf b.dialect index p zs))) := by
  have hbetween := h.closedBetween
  rw [← ha] at hbetween
  generalize hp : Position.start.after (texts xs) = p at hbetween
  generalize hk : a + (commandsOf b.dialect a p ys).length = k
  obtain ⟨opener, lines, closer, hblock, hopener, hlines, hcloser, hgroup, hclosed⟩ :=
    exists_block b rows hname a p
  have hcount : (opener :: (lines ++ [closer])).length = rows.length + 2 := by
    simp [hlines.length_eq]
  obtain ⟨p₁, p₂, p₃, hspliced⟩ := h.raw_spliced ha hp hk hblock hcount
  -- each of the three runs of commands is moved as a whole
  have hfront := group_kept .none (@commandsOf_kept b.dialect (moved a k rows.length) 0 0 xs .start
    (fun m hm => by rw [Nat.zero_add, moved_front _ (ha ▸ hm)]) .start)
  have hmiddle := group_kept .none (@commandsOf_kept b.dialect (moved a k rows.length) a
    (a + (rows.length + 2)) ys p
    (fun m hm => by rw [moved_between _ (by omega) (by omega), Nat.add_right_comm]) p₁)
  have hback := group_kept .none (@commandsOf_kept b.dialect (moved a k rows.length) k
    (k + (rows.length + 3)) zs (p.after (texts ys))
    (fun m _ => by rw [moved_behind _ (by omega) (by omega), Nat.add_right_comm]) p₃)
  have hbetween' : openAt none (commandsOf b.dialect (a + (rows.length + 2)) p₁ ys) = none := by
    have hrel := hmiddle.2
    rw [hbetween] at hrel
    generalize openAt none (commandsOf b.dialect (a + (rows.length + 2)) p₁ ys) = st at hrel ⊢
    cases hrel
    rfl
  have hreferenceRole : (Command.ofClause b.dialect (k + (rows.length + 2)) p₂
      (referenceClause name b)).role? ≠ some .blockOpen := by
    rw [role_reference]
    decide
  refine ⟨k, p.after (texts ys), ⟨{
    opener, lines, closer
    reference := .ofClause b.dialect (k + (rows.length + 2)) p₂ (referenceClause name b)
    front' := group none (commandsOf b.dialect 0 .start xs)
    middle' := group none (commandsOf b.dialect (a + (rows.length + 2)) p₁ ys)
    back' := group none (commandsOf b.dialect (k + (rows.length + 3)) p₃ zs)
    move := moved a k rows.length
    parts_text := ?_
    parts_spliced := ?_
    move_eq := by rw [length_commands_group, length_commands_group, ← ha, hk]
    front_kept := hfront.1
    middle_kept := hmiddle.1
    back_kept := hback.1
    opener_eq := hopener
    lines_eq := hlines
    closer_eq := hcloser
    reference_eq := ⟨_, _, rfl⟩ }⟩⟩
  · rw [parts_eq, h.raw_text ha hp hk, group_append _ h.closedBefore, group_append _ hbetween]
  · rw [parts_eq, hspliced, group_append _ h.closedBefore, group_append _ hclosed, hgroup,
      group_append _ hbetween', group_append _ (openAt_single hreferenceRole)]
    simp only [group, hreferenceRole, if_false, List.singleton_append]

end Parts

end Fixture
end QueryLint
