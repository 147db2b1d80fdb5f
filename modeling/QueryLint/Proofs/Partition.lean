import Mathlib.Data.List.Chain
import QueryLint.Proofs.Scopes

/-!
How the scopes divide a document.

Every command stands in one scope, and every scope lists its commands in the order of the text. A
block holds the stretch of commands behind its opener: through its closer if it has one, and up to
the next opener or the end of the text otherwise.
-/

namespace QueryLint
set_option autoImplicit false

/-- The openers and the closers among commands, in their order. -/
def marks (cs : List Command) : List Role :=
  (cs.filterMap Command.role?).filter fun role => role = .blockOpen || role = .blockClose

/-- An opener and a closer, any number of times. -/
def Alternate (roles : List Role) : Prop :=
  ∃ n, roles = (List.replicate n [.blockOpen, .blockClose]).flatten

section Marks
variable {c : Command} (cs : List Command)

theorem marks_opener (h : c.role? = some .blockOpen) : marks (c :: cs) = .blockOpen :: marks cs := by
  simp [marks, h]

theorem marks_closer (h : c.role? = some .blockClose) :
    marks (c :: cs) = .blockClose :: marks cs := by
  simp [marks, h]

theorem marks_plain (hopen : c.role? ≠ some .blockOpen) (hclose : c.role? ≠ some .blockClose) :
    marks (c :: cs) = marks cs := by
  unfold marks
  cases hrole : c.role? with
  | none => simp [hrole]
  | some role =>
    rw [hrole, ne_eq, Option.some.injEq] at hopen hclose
    simp [hrole, hopen, hclose]

theorem marks_congr {cs' : List Command} (h : cs.map Command.role? = cs'.map Command.role?) :
    marks cs = marks cs' := by
  have hroles : ∀ l : List Command, l.filterMap Command.role? = (l.map Command.role?).filterMap id :=
    fun l => by rw [List.filterMap_map, Function.id_comp]
  rw [marks, marks, hroles, hroles, h]

end Marks

namespace Alternate
variable (roles : List Role)

theorem nil : Alternate [] := ⟨0, rfl⟩

theorem pair_iff : Alternate (.blockOpen :: .blockClose :: roles) ↔ Alternate roles := by
  constructor
  · rintro ⟨n, h⟩
    cases n with
    | zero => simp at h
    | succ n => exact ⟨n, by simpa [List.replicate_succ] using h⟩
  · rintro ⟨n, rfl⟩
    exact ⟨n + 1, by simp [List.replicate_succ]⟩

theorem not_closer : ¬Alternate (.blockClose :: roles) := by
  rintro ⟨n, h⟩
  cases n <;> simp [List.replicate_succ] at h

theorem not_opener : ¬Alternate [.blockOpen] := by
  rintro ⟨n, h⟩
  cases n <;> simp [List.replicate_succ] at h

theorem not_nested : ¬Alternate (.blockOpen :: .blockOpen :: roles) := by
  rintro ⟨n, h⟩
  cases n <;> simp [List.replicate_succ] at h

end Alternate

namespace Document

/-- The scopes divide the commands of a document with `count` tokens among them: together they list
each command once. -/
structure Divided (d : Document) (count : Nat) : Prop where
  numbered : d.commands.map Command.index = List.range count
  shared : (d.scopes.flatMap Scope.commands).Perm d.commands
  ordered : ∀ s ∈ d.scopes, s.commands.Pairwise fun c c' => c.index < c'.index
  named : ∀ s ∈ d.scopes, ∀ c ∈ s.commands, c.scope = s.name
  openers : ∀ c ∈ d.commands, c.role? = some .blockOpen → c ∈ d.root ∧ c.scope = none ∧
    ∃ b, d.blocks.filter (fun b => b.openerIndex = c.index) = [b]
  opened : ∀ b ∈ d.blocks, ∃ c ∈ d.root, c.role? = some .blockOpen ∧ c.index = b.openerIndex
  listed : d.blocks.Pairwise fun b b' => b.openerIndex < b'.openerIndex
  closed : ∀ b ∈ d.blocks, ∀ k, b.closerIndex = some k →
    b.commands = (d.commands.drop (b.openerIndex + 1)).take (k - b.openerIndex) ∧
      (∃ c ∈ b.commands, c.index = k) ∧
      ∀ c ∈ b.commands, c.role? ≠ some .blockOpen ∧ (c.role? = some .blockClose ↔ c.index = k)
  unclosed : ∀ b ∈ d.blocks, b.closerIndex = none →
    b.commands = (d.commands.drop (b.openerIndex + 1)).takeWhile (fun c => !c.hasRole .blockOpen) ∧
      ∀ c ∈ b.commands, c.role? ≠ some .blockOpen ∧ c.role? ≠ some .blockClose

/-- A command that neither opens nor closes a block, in the block of the given name. -/
def IsInner (name : Text) (c : Command) : Prop :=
  c.scope = some name ∧ c.role? ≠ some .blockOpen ∧ c.role? ≠ some .blockClose

/-- The commands of a block: inner ones, and behind them the closer if there is one. -/
inductive Filled : Block → Prop where
  | unclosed {name : Text} {commands : List Command} {openerIndex : Nat} :
      (∀ c ∈ commands, IsInner name c) → Filled ⟨name, commands, openerIndex, none⟩
  | closed {name : Text} {body : List Command} {closer : Command} {openerIndex : Nat} :
      (∀ c ∈ body, IsInner name c) → closer.scope = some name → closer.role? = some .blockClose →
      Filled ⟨name, body ++ [closer], openerIndex, some closer.index⟩

def Part.Placed : Part → Prop
  | single c => c.scope = none
  | block opener b => opener.scope = none ∧ Filled b

def OpenBlock.Placed (b : OpenBlock) : Prop :=
  b.opener.scope = none ∧ ∀ c ∈ b.commands, IsInner b.name c

theorem OpenBlock.Placed.start {c : Command} (hc : c.scope = none) : (OpenBlock.start c).Placed :=
  ⟨hc, by simp [OpenBlock.start]⟩

theorem OpenBlock.Placed.add {b : OpenBlock} (hb : b.Placed) {c : Command}
    (hopen : c.role? ≠ some .blockOpen) (hclose : c.role? ≠ some .blockClose) : (b.add c).Placed := by
  refine ⟨hb.1, ?_⟩
  intro d hd
  rcases List.mem_append.1 hd with hd | hd
  · exact hb.2 d hd
  · rw [List.mem_singleton.1 hd]
    exact ⟨rfl, hopen, hclose⟩

theorem placed_group {st : Option OpenBlock} {cs : List Command} (hst : ∀ b ∈ st, b.Placed)
    (hcs : ∀ c ∈ cs, c.scope = none) : ∀ part ∈ group st cs, part.Placed :=
  forall_group hst
    (fun c hc =>
      { start := fun _ => .start (hcs c hc)
        single := fun _ => hcs c hc
        add := fun hb hopen hclose => hb.add hopen hclose
        closed := fun hb hclose => ⟨hb.1, .closed hb.2 rfl hclose⟩ })
    fun _ hb => ⟨hb.1, .unclosed hb.2⟩

theorem scope_ofTokens (dialect : Dialect) (index : Nat) (tokens : List Token) :
    ∀ c ∈ Command.ofTokens dialect index tokens, c.scope = none := by
  induction tokens generalizing index with
  | nil => simp [Command.ofTokens]
  | cons token tokens ih =>
    intro c hc
    rcases List.mem_cons.1 hc with rfl | hc
    · rfl
    · exact ih (index + 1) c hc

def Part.Unclosed (part : Part) : Prop := ∃ b, part.block? = some b ∧ b.closerIndex = none

theorem group_open (b : OpenBlock) (cs : List Command) :
    ∃ part rest, group (some b) cs = part :: rest ∧ part.head = b.opener := by
  induction cs generalizing b with
  | nil => exact ⟨_, _, rfl, rfl⟩
  | cons c cs ih =>
    simp only [group]
    split
    · exact ⟨_, _, rfl, rfl⟩
    · split
      · exact ⟨_, _, rfl, rfl⟩
      · exact ih (b.add c)

/-- Only an opener follows a block without a closer. -/
theorem chain_group (st : Option OpenBlock) (cs : List Command) :
    (group st cs).IsChain fun part next => part.Unclosed → next.head.role? = some .blockOpen := by
  induction cs generalizing st with
  | nil => cases st <;> simp [group]
  | cons c cs ih =>
    obtain ⟨ps, st', hgroups⟩ := exists_groups st c
    rw [hgroups.group_cons]
    refine List.isChain_append.2 ⟨?_, ih st', ?_⟩
    · cases hgroups with
      | opener => cases st <;> simp [group]
      | single => exact .singleton _
      | closer => exact .singleton _
      | inner => exact .nil
    · -- an unclosed block ends only where another one is opened
      intro part hpart next hnext hunclosed
      cases hgroups with
      | opener hopen =>
        obtain ⟨first, rest, hgroup, hhead⟩ := group_open (.start c) cs
        rw [hgroup, List.head?_cons, Option.mem_some] at hnext
        rw [← hnext, hhead]
        exact hopen
      | single =>
        obtain ⟨b, hb, -⟩ := hunclosed
        cases hpart
        cases hb
      | closer =>
        obtain ⟨b, hb, hclosed⟩ := hunclosed
        cases hpart
        cases hb
        cases hclosed
      | inner => cases hpart

theorem scopes_perm (ps : List Part) :
    (ps.map Part.head ++ (ps.filterMap Part.block?).flatMap Block.commands).Perm
      (ps.flatMap Part.commands) := by
  induction ps with
  | nil => exact .nil
  | cons part ps ih =>
    cases part with
    | single c => exact ih.cons c
    | block opener b =>
      simp only [List.map_cons, Part.head, List.filterMap_cons, Part.block?, List.flatMap_cons,
        Part.commands, List.cons_append]
      refine .cons opener ?_
      exact (List.perm_append_comm_assoc _ _ _).trans (ih.append_left b.commands)

theorem index_eq_length {cs front back : List Command} {c : Command} {count : Nat}
    (hindex : cs.map Command.index = List.range count) (hcs : cs = front ++ c :: back) :
    c.index = front.length := by
  have hlength : cs.length = count := by simpa using congrArg List.length hindex
  have hat : (cs.map Command.index)[front.length]? = some c.index := by simp [hcs]
  rw [hindex, List.getElem?_range (by simp [← hlength, hcs])] at hat
  exact (Option.some.inj hat).symm

section Parse
variable (dialect : Dialect) (text : Text)

theorem placed_parts : ∀ part ∈ parts dialect text, part.Placed :=
  placed_group (by simp) (scope_ofTokens dialect 0 _)

theorem filled_blocks {b : Block} (hb : b ∈ (parse dialect text).blocks) : Filled b := by
  rw [blocks_parse] at hb
  obtain ⟨part, hpart, hblock⟩ := List.mem_filterMap.1 hb
  have hplaced := placed_parts dialect text part hpart
  cases part with
  | single c => cases hblock
  | block opener b' =>
    cases hblock
    exact hplaced.2

theorem index_commands : (parse dialect text).commands.map Command.index =
    List.range (Tokens.ofText dialect.isKeyword text).tokens.length := by
  rw [commands_parse, map_index_commands]

theorem sorted_commands : (parse dialect text).commands.Pairwise fun c c' => c.index < c'.index := by
  rw [← List.pairwise_map, index_commands]
  exact List.pairwise_lt_range

theorem exists_around {b : Block} (hb : b ∈ (parse dialect text).blocks) :
    ∃ (front back : List Part) (opener : Command),
      parts dialect text = front ++ .block opener b :: back ∧
      opener.role? = some .blockOpen ∧ opener.index = b.openerIndex ∧
      (parse dialect text).commands = front.flatMap Part.commands ++
        opener :: (b.commands ++ back.flatMap Part.commands) ∧
      b.openerIndex = (front.flatMap Part.commands).length := by
  rw [blocks_parse] at hb
  obtain ⟨part, hpart, hblock⟩ := List.mem_filterMap.1 hb
  cases part with
  | single c => cases hblock
  | block opener b' =>
    cases hblock
    obtain ⟨front, back, hparts⟩ := List.append_of_mem hpart
    obtain ⟨hopen, hindex⟩ := formed_parts dialect text _ hpart
    have hcommands : (parse dialect text).commands = front.flatMap Part.commands ++
        opener :: (b.commands ++ back.flatMap Part.commands) := by
      rw [commands_parse, hparts]
      simp [Part.commands]
    have hplace := index_eq_length (index_commands dialect text) hcommands
    exact ⟨front, back, opener, hparts, hopen, hindex.symm, hcommands, hindex.trans hplace⟩

theorem drop_opener {b : Block} (hb : b ∈ (parse dialect text).blocks) :
    ∃ back, (parse dialect text).commands.drop (b.openerIndex + 1) = b.commands ++ back ∧
      (b.closerIndex = none → ∀ c ∈ back.head?, c.role? = some .blockOpen) := by
  obtain ⟨front, back, opener, hparts, -, -, hcommands, hplace⟩ := exists_around dialect text hb
  refine ⟨back.flatMap Part.commands, ?_, ?_⟩
  · rw [hcommands, hplace, ← List.drop_drop, List.drop_left]
    rfl
  · intro hclosed c hc
    have hchain := chain_group none (Command.ofTokens dialect 0
      (Tokens.ofText dialect.isKeyword text).tokens)
    change (parts dialect text).IsChain _ at hchain
    rw [hparts, List.isChain_append] at hchain
    cases back with
    | nil => cases hc
    | cons next back =>
      have hnext := (List.isChain_cons.1 hchain.2.1).1 next rfl ⟨b, rfl, hclosed⟩
      have hhead : next.head = c := by
        cases next <;> simpa [Part.commands, Part.head] using hc
      rw [← hhead]
      exact hnext

theorem takeWhile_inner {xs ys : List Command} (hxs : ∀ c ∈ xs, c.role? ≠ some .blockOpen)
    (hys : ∀ c ∈ ys.head?, c.role? = some .blockOpen) :
    (xs ++ ys).takeWhile (fun c => !c.hasRole .blockOpen) = xs := by
  have hinner : ∀ c ∈ xs, (!c.hasRole .blockOpen) = true := by
    simpa [Command.hasRole] using hxs
  rw [List.takeWhile_append_of_pos hinner]
  cases ys with
  | nil => simp
  | cons c ys =>
    have hopen := hys c rfl
    simp [Command.hasRole, hopen]

theorem commands_unclosed {b : Block} (hb : b ∈ (parse dialect text).blocks)
    (hclosed : b.closerIndex = none) :
    b.commands = ((parse dialect text).commands.drop (b.openerIndex + 1)).takeWhile
        (fun c => !c.hasRole .blockOpen) ∧
      ∀ c ∈ b.commands, c.role? ≠ some .blockOpen ∧ c.role? ≠ some .blockClose := by
  obtain ⟨back, hdrop, hback⟩ := drop_opener dialect text hb
  have hinner : ∀ c ∈ b.commands, c.role? ≠ some .blockOpen ∧ c.role? ≠ some .blockClose := by
    cases filled_blocks dialect text hb with
    | unclosed hbody => exact fun c hc => (hbody c hc).2
    | closed => cases hclosed
  refine ⟨?_, hinner⟩
  rw [hdrop, takeWhile_inner (fun c hc => (hinner c hc).1) (hback hclosed)]

theorem commands_closed {b : Block} (hb : b ∈ (parse dialect text).blocks) {k : Nat}
    (hk : b.closerIndex = some k) :
    b.commands = ((parse dialect text).commands.drop (b.openerIndex + 1)).take (k - b.openerIndex) ∧
      (∃ c ∈ b.commands, c.index = k) ∧
      ∀ c ∈ b.commands, c.role? ≠ some .blockOpen ∧ (c.role? = some .blockClose ↔ c.index = k) := by
  obtain ⟨front, back, opener, -, -, -, hcommands, hplace⟩ := exists_around dialect text hb
  obtain ⟨rest, hdrop, -⟩ := drop_opener dialect text hb
  cases filled_blocks dialect text hb with
  | unclosed => cases hk
  | @closed name body closer openerIndex hbody hscope hclose =>
    cases hk
    dsimp only at hcommands hplace hdrop ⊢
    have hcloser : closer.index = openerIndex + body.length + 1 := by
      have hsplit : (parse dialect text).commands = (front.flatMap Part.commands ++ opener :: body) ++
          closer :: back.flatMap Part.commands := by
        simpa using hcommands
      rw [index_eq_length (index_commands dialect text) hsplit, hplace]
      simp
      omega
    refine ⟨?_, ⟨closer, by simp, rfl⟩, ?_⟩
    · rw [hdrop, hcloser]
      exact (List.take_left' (by simp; omega)).symm
    · intro c hc
      rcases List.mem_append.1 hc with hc | hc
      · have hlt : c.index < closer.index := by
          have hsorted := sorted_commands dialect text
          rw [hcommands] at hsorted
          have hown := (List.pairwise_append.1 (List.pairwise_cons.1
            (List.pairwise_append.1 hsorted).2.1).2).1
          exact (List.pairwise_append.1 hown).2.2 c hc closer (by simp)
        exact ⟨(hbody c hc).2.1, fun h => absurd h (hbody c hc).2.2, fun h => absurd h (by omega)⟩
      · rw [List.mem_singleton.1 hc]
        refine ⟨?_, fun _ => rfl, fun _ => hclose⟩
        rw [hclose]
        decide

theorem ordered_scopes : ∀ s ∈ (parse dialect text).scopes,
    s.commands.Pairwise fun c c' => c.index < c'.index := by
  have hsorted := sorted_commands dialect text
  rw [commands_parse] at hsorted
  intro s hs
  rcases List.mem_cons.1 hs with rfl | hs
  · have hheads := heads_sublist (parts dialect text)
    rw [← root_parse] at hheads
    exact hsorted.sublist hheads
  · obtain ⟨b, hb, rfl⟩ := List.mem_map.1 hs
    rw [blocks_parse] at hb
    obtain ⟨part, hpart, hblock⟩ := List.mem_filterMap.1 hb
    exact hsorted.sublist (block_sublist hpart hblock)

theorem scope_commands : ∀ s ∈ (parse dialect text).scopes, ∀ c ∈ s.commands, c.scope = s.name := by
  intro s hs
  rcases List.mem_cons.1 hs with rfl | hs
  · intro c hc
    change c ∈ (parse dialect text).root at hc
    rw [root_parse] at hc
    obtain ⟨part, hpart, rfl⟩ := List.mem_map.1 hc
    have hplaced := placed_parts dialect text part hpart
    cases part with
    | single c => exact hplaced
    | block opener b => exact hplaced.1
  · obtain ⟨b, hb, rfl⟩ := List.mem_map.1 hs
    intro c hc
    cases filled_blocks dialect text hb with
    | unclosed hbody => exact (hbody c hc).1
    | closed hbody hscope =>
      rcases List.mem_append.1 hc with hc | hc
      · exact (hbody c hc).1
      · rw [List.mem_singleton.1 hc]
        exact hscope

theorem role_inside {b : Block} (hb : b ∈ (parse dialect text).blocks) :
    ∀ c ∈ b.commands, c.role? ≠ some .blockOpen := by
  intro c hc
  cases hk : b.closerIndex with
  | none => exact ((commands_unclosed dialect text hb hk).2 c hc).1
  | some k => exact ((commands_closed dialect text hb hk).2.2 c hc).1

theorem sorted_blocks :
    (parse dialect text).blocks.Pairwise fun b b' => b.openerIndex < b'.openerIndex := by
  have hroot := ordered_scopes dialect text _ List.mem_cons_self
  change (parse dialect text).root.Pairwise _ at hroot
  rw [root_parse, List.pairwise_map] at hroot
  rw [blocks_parse, List.pairwise_filterMap]
  refine hroot.imp_of_mem ?_
  intro part part' hpart hpart' hlt b hb b' hb'
  have hformed := formed_parts dialect text part hpart
  have hformed' := formed_parts dialect text part' hpart'
  cases part <;> cases part' <;> cases hb <;> cases hb'
  rw [hformed.2, hformed'.2]
  exact hlt

theorem mem_root_of_opener {c : Command} (hc : c ∈ (parse dialect text).commands)
    (hopen : c.role? = some .blockOpen) :
    c ∈ (parse dialect text).root ∧ ∃ b ∈ (parse dialect text).blocks, b.openerIndex = c.index := by
  rw [commands_parse, List.mem_flatMap] at hc
  obtain ⟨part, hpart, hc⟩ := hc
  have hformed := formed_parts dialect text part hpart
  cases part with
  | single c' =>
    rw [List.mem_singleton.1 hc] at hopen
    exact absurd hopen hformed
  | block opener b =>
    have hb : b ∈ (parse dialect text).blocks := by
      rw [blocks_parse]
      exact List.mem_filterMap.2 ⟨_, hpart, rfl⟩
    rcases List.mem_cons.1 hc with rfl | hc
    · refine ⟨?_, b, hb, hformed.2⟩
      rw [root_parse]
      exact List.mem_map.2 ⟨_, hpart, rfl⟩
    · exact absurd hopen (role_inside dialect text hb c hc)

theorem filter_opener {b : Block} (hb : b ∈ (parse dialect text).blocks) :
    (parse dialect text).blocks.filter (fun b' => b'.openerIndex = b.openerIndex) = [b] := by
  obtain ⟨front, back, hblocks⟩ := List.append_of_mem hb
  have hsorted := sorted_blocks dialect text
  rw [hblocks] at hsorted ⊢
  obtain ⟨-, hback, hfront⟩ := List.pairwise_append.1 hsorted
  have hbefore : front.filter (fun b' => b'.openerIndex = b.openerIndex) = [] :=
    List.filter_eq_nil_iff.2 fun b' hb' => by
      have hlt := hfront b' hb' b List.mem_cons_self
      simp only [decide_eq_true_eq]
      omega
  have hbehind : back.filter (fun b' => b'.openerIndex = b.openerIndex) = [] :=
    List.filter_eq_nil_iff.2 fun b' hb' => by
      have hlt := (List.pairwise_cons.1 hback).1 b' hb'
      simp only [decide_eq_true_eq]
      omega
  rw [List.filter_append, hbefore, List.filter_cons, hbehind]
  simp

end Parse

/-- The scopes of a document that was read divide its commands among them. -/
theorem divided_parse (dialect : Dialect) (text : Text) :
    (parse dialect text).Divided (Tokens.ofText dialect.isKeyword text).tokens.length where
  numbered := index_commands dialect text
  shared := by
    have hperm := scopes_perm (parts dialect text)
    rw [← commands_parse, ← root_parse, ← blocks_parse] at hperm
    simpa [scopes, rootScope, List.flatMap_map, Block.scope] using hperm
  ordered := ordered_scopes dialect text
  named := scope_commands dialect text
  openers := by
    intro c hc hopen
    obtain ⟨hroot, b, hb, hindex⟩ := mem_root_of_opener dialect text hc hopen
    refine ⟨hroot, scope_commands dialect text _ List.mem_cons_self c hroot, b, ?_⟩
    rw [← hindex]
    exact filter_opener dialect text hb
  opened := by
    intro b hb
    obtain ⟨front, back, opener, hparts, hopen, hindex, -⟩ := exists_around dialect text hb
    refine ⟨opener, ?_, hopen, hindex⟩
    rw [root_parse, hparts]
    simp [Part.head]
  listed := sorted_blocks dialect text
  closed := fun _ hb _ hk => commands_closed dialect text hb hk
  unclosed := fun _ hb hclosed => commands_unclosed dialect text hb hclosed

end Document
end QueryLint
