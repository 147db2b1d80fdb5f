import QueryLint.Document

/-!
The parts of a document.

A document falls into parts: commands of the top level and blocks, each block with its opener. The
parts are found by one pass over the commands without any bookkeeping, and the lists of a document
are read off them: its commands are those of the parts, the top level has the head of every part,
and the blocks are the parts that are blocks.
-/

namespace QueryLint
set_option autoImplicit false

namespace Command

def within (name : Text) (c : Command) : Command := { c with scope := some name }

@[simp] theorem index_within (name : Text) (c : Command) : (c.within name).index = c.index := rfl
@[simp] theorem role_within (name : Text) (c : Command) : (c.within name).role? = c.role? := rfl
@[simp] theorem spec_within (name : Text) (c : Command) : (c.within name).spec = c.spec := rfl
@[simp] theorem payload_within (name : Text) (c : Command) : (c.within name).payload = c.payload := rfl

/-- The commands of tokens before they are sorted into scopes; the first has the given index. -/
def ofTokens (dialect : Dialect) (index : Nat) : List Token → List Command
  | [] => []
  | token :: tokens => ofToken dialect none index token :: ofTokens dialect (index + 1) tokens

end Command

namespace Document

inductive Part where
  | single (c : Command)
  | block (opener : Command) (b : Block)

namespace Part

def head : Part → Command
  | single c => c
  | block opener _ => opener

def commands : Part → List Command
  | single c => [c]
  | block opener b => opener :: b.commands

def block? : Part → Option Block
  | single _ => none
  | block _ b => some b

end Part

namespace OpenBlock

def start (opener : Command) : OpenBlock := ⟨opener.declaredName?.getD [], opener, []⟩

def add (b : OpenBlock) (c : Command) : OpenBlock := { b with commands := b.commands ++ [c.within b.name] }

def part (b : OpenBlock) (closerIndex : Option Nat) : Part :=
  .block b.opener ⟨b.name, b.commands, b.opener.index, closerIndex⟩

end OpenBlock

def group : Option OpenBlock → List Command → List Part
  | none, [] => []
  | some b, [] => [b.part none]
  | none, c :: cs =>
    if c.role? = some .blockOpen then group (some (.start c)) cs else .single c :: group none cs
  | some b, c :: cs =>
    if c.role? = some .blockOpen then b.part none :: group (some (.start c)) cs
    else if c.role? = some .blockClose then (b.add c).part (some c.index) :: group none cs
    else group (some (b.add c)) cs

/-- What a command does to the parts: those that end with it, and the block that is open behind it. -/
inductive Groups (c : Command) : Option OpenBlock → List Part → Option OpenBlock → Prop where
  | opener {st : Option OpenBlock} : c.role? = some .blockOpen →
      Groups c st (group st []) (some (.start c))
  | single : c.role? ≠ some .blockOpen → Groups c none [.single c] none
  | closer {b : OpenBlock} : c.role? = some .blockClose →
      Groups c (some b) [(b.add c).part (some c.index)] none
  | inner {b : OpenBlock} : c.role? ≠ some .blockOpen → c.role? ≠ some .blockClose →
      Groups c (some b) [] (some (b.add c))

theorem exists_groups (st : Option OpenBlock) (c : Command) : ∃ ps st', Groups c st ps st' := by
  by_cases hopen : c.role? = some .blockOpen
  · exact ⟨_, _, .opener hopen⟩
  · cases st with
    | none => exact ⟨_, _, .single hopen⟩
    | some b =>
      by_cases hclose : c.role? = some .blockClose
      · exact ⟨_, _, .closer hclose⟩
      · exact ⟨_, _, .inner hopen hclose⟩

theorem Groups.group_cons {c : Command} {st st' : Option OpenBlock} {ps : List Part}
    (h : Groups c st ps st') (cs : List Command) : group st (c :: cs) = ps ++ group st' cs := by
  cases h with
  | opener hopen => cases st <;> simp [group, hopen]
  | single hopen => simp [group, hopen]
  | closer hclose => simp [group, hclose]
  | inner hopen hclose => simp [group, hopen, hclose]

section Keeps
variable {Q : OpenBlock → Prop} {P : Part → Prop}

/-- With the command, `Q` goes on holding of the block that is open, and `P` holds of what ends. -/
structure Keeps (Q : OpenBlock → Prop) (P : Part → Prop) (c : Command) : Prop where
  start : c.role? = some .blockOpen → Q (.start c)
  single : c.role? ≠ some .blockOpen → P (.single c)
  add {b : OpenBlock} : Q b → c.role? ≠ some .blockOpen → c.role? ≠ some .blockClose → Q (b.add c)
  closed {b : OpenBlock} : Q b → c.role? = some .blockClose → P ((b.add c).part (some c.index))

theorem forall_group_nil (hend : ∀ b, Q b → P (b.part none)) {st : Option OpenBlock}
    (hst : ∀ b ∈ st, Q b) : ∀ part ∈ group st [], P part := by
  intro part hpart
  cases st with
  | none => cases hpart
  | some b =>
    rw [List.mem_singleton.1 hpart]
    exact hend b (hst b rfl)

theorem Groups.keeps {c : Command} {st st' : Option OpenBlock} {ps : List Part}
    (h : Groups c st ps st') (hc : Keeps Q P c) (hend : ∀ b, Q b → P (b.part none))
    (hst : ∀ b ∈ st, Q b) : (∀ part ∈ ps, P part) ∧ ∀ b ∈ st', Q b := by
  cases h with
  | opener hopen => exact ⟨forall_group_nil hend hst, fun b hb => by cases hb; exact hc.start hopen⟩
  | single hopen => exact ⟨by simpa using hc.single hopen, by simp⟩
  | @closer b hclose => exact ⟨by simpa using hc.closed (hst b rfl) hclose, by simp⟩
  | @inner b hopen hclose => exact ⟨by simp, by simpa using hc.add (hst b rfl) hopen hclose⟩

theorem forall_group {st : Option OpenBlock} {cs : List Command} (hst : ∀ b ∈ st, Q b)
    (hcs : ∀ c ∈ cs, Keeps Q P c) (hend : ∀ b, Q b → P (b.part none)) :
    ∀ part ∈ group st cs, P part := by
  induction cs generalizing st with
  | nil => exact forall_group_nil hend hst
  | cons c cs ih =>
    obtain ⟨ps, st', hgroups⟩ := exists_groups st c
    obtain ⟨hps, hst'⟩ := hgroups.keeps (hcs c List.mem_cons_self) hend hst
    rw [hgroups.group_cons, List.forall_mem_append]
    exact ⟨hps, ih hst' fun d hd => hcs d (List.mem_cons_of_mem _ hd)⟩

end Keeps

namespace Assembly

section Ends
variable (a : Assembly) (b : OpenBlock) (closerIndex : Option Nat) (issue : Issue)

@[simp] theorem commands_report : (a.report issue).commands = a.commands := rfl
@[simp] theorem root_report : (a.report issue).root = a.root := rfl
@[simp] theorem blocks_report : (a.report issue).blocks = a.blocks := rfl
@[simp] theorem current_report : (a.report issue).current = a.current := rfl

@[simp] theorem commands_endBlock : (a.endBlock b closerIndex).commands = a.commands := by
  unfold endBlock
  dsimp only
  split <;> rfl

@[simp] theorem root_endBlock : (a.endBlock b closerIndex).root = a.root := by
  unfold endBlock
  dsimp only
  split <;> rfl

@[simp] theorem current_endBlock : (a.endBlock b closerIndex).current = none := by
  unfold endBlock
  dsimp only
  split <;> rfl

@[simp] theorem blocks_endBlock : (a.endBlock b closerIndex).blocks =
    a.blocks ++ [⟨b.name, b.commands, b.opener.index, closerIndex⟩] := by
  unfold endBlock
  dsimp only
  split <;> rfl

end Ends

section Openers
variable (a : Assembly) (opener : Command)

@[simp] theorem commands_addOpener : (a.addOpener opener).commands = a.commands ++ [opener] := by
  unfold addOpener
  cases hc : a.current <;> simp only <;> split <;> simp

@[simp] theorem root_addOpener : (a.addOpener opener).root = a.root ++ [opener] := by
  unfold addOpener
  cases hc : a.current <;> simp only <;> split <;> simp

@[simp] theorem current_addOpener : (a.addOpener opener).current = some (.start opener) := rfl

@[simp] theorem blocks_addOpener : (a.addOpener opener).blocks =
    a.blocks ++ (a.current.map fun b => ⟨b.name, b.commands, b.opener.index, none⟩).toList := by
  unfold addOpener
  cases hc : a.current <;> simp only <;> split <;> simp

end Openers

section Outside
variable {a : Assembly} (c : Command) (hc : a.current = none)
include hc

theorem addCloser_outside : (a.addCloser c).commands = a.commands ++ [c] ∧
    (a.addCloser c).root = a.root ++ [c] ∧ (a.addCloser c).blocks = a.blocks ∧
    (a.addCloser c).current = none := by
  simp [addCloser, hc]

theorem addPlain_outside : (a.addPlain c).commands = a.commands ++ [c] ∧
    (a.addPlain c).root = a.root ++ [c] ∧ (a.addPlain c).blocks = a.blocks ∧
    (a.addPlain c).current = none := by
  simp [addPlain, hc]

end Outside

section Inside
variable {a : Assembly} {b : OpenBlock} (c : Command) (hb : a.current = some b)
include hb

theorem addCloser_inside : (a.addCloser c).commands = a.commands ++ [c] ∧
    (a.addCloser c).root = a.root ∧
    (a.addCloser c).blocks = a.blocks ++ [⟨b.name, b.commands ++ [c], b.opener.index, some c.index⟩] ∧
    (a.addCloser c).current = none := by
  simp [addCloser, hb]

theorem addPlain_inside : (a.addPlain c).commands = a.commands ++ [c] ∧
    (a.addPlain c).root = a.root ∧ (a.addPlain c).blocks = a.blocks ∧
    (a.addPlain c).current = some { b with commands := b.commands ++ [c] } := by
  simp [addPlain, hb]

end Inside

theorem add_eq (dialect : Dialect) (a : Assembly) (token : Token) :
    let c := Command.ofToken dialect none a.commands.length token
    add dialect a token = match c.role? with
      | some .blockOpen => a.addOpener c
      | some .blockClose => a.addCloser { c with scope := a.current.map (·.name) }
      | _ => a.addPlain { c with scope := a.current.map (·.name) } := rfl

inductive Adds (a : Assembly) (c : Command) : Assembly → Prop where
  | opener : c.role? = some .blockOpen → Adds a c (a.addOpener c)
  | closerOutside : a.current = none → c.role? = some .blockClose → Adds a c (a.addCloser c)
  | plainOutside : a.current = none → c.role? ≠ some .blockOpen → c.role? ≠ some .blockClose →
      Adds a c (a.addPlain c)
  | closerInside {b : OpenBlock} : a.current = some b → c.role? = some .blockClose →
      Adds a c (a.addCloser (c.within b.name))
  | plainInside {b : OpenBlock} : a.current = some b → c.role? ≠ some .blockOpen →
      c.role? ≠ some .blockClose → Adds a c (a.addPlain (c.within b.name))

theorem adds_add (dialect : Dialect) (a : Assembly) (token : Token) :
    Adds a (Command.ofToken dialect none a.commands.length token) (add dialect a token) := by
  have hscope : (Command.ofToken dialect none a.commands.length token).scope = none := rfl
  rw [add_eq]
  generalize Command.ofToken dialect none a.commands.length token = c at hscope ⊢
  have hout : { c with scope := none } = c := by cases c; subst hscope; rfl
  split
  · rename_i hopen
    exact .opener hopen
  · rename_i hclose
    cases hcurrent : a.current with
    | none =>
      rw [Option.map_none, hout]
      exact .closerOutside hcurrent hclose
    | some b => exact .closerInside hcurrent hclose
  · rename_i hopen hclose
    cases hcurrent : a.current with
    | none =>
      rw [Option.map_none, hout]
      exact .plainOutside hcurrent hopen hclose
    | some b => exact .plainInside hcurrent hopen hclose

theorem Adds.length_commands {a a' : Assembly} {c : Command} (h : Adds a c a') :
    a'.commands.length = a.commands.length + 1 := by
  cases h with
  | opener => simp
  | closerOutside hcurrent => simp [addCloser_outside c hcurrent]
  | plainOutside hcurrent => simp [addPlain_outside c hcurrent]
  | @closerInside b hcurrent => simp [addCloser_inside (c.within b.name) hcurrent]
  | @plainInside b hcurrent => simp [addPlain_inside (c.within b.name) hcurrent]

/-- The lists of the assembly are those of the parts that have ended and of the block that is open. -/
structure Holds (a : Assembly) (ps : List Part) : Prop where
  commands : a.commands = ps.flatMap Part.commands ++
    (a.current.map fun b => b.opener :: b.commands).getD []
  root : a.root = ps.map Part.head ++ (a.current.map OpenBlock.opener).toList
  blocks : a.blocks = ps.filterMap Part.block?

namespace Holds
variable {a a' : Assembly} {ps : List Part} {c : Command}

theorem addOpener (h : a.Holds ps) (c : Command) :
    (a.addOpener c).Holds (ps ++ group a.current []) where
  commands := by
    rw [commands_addOpener, current_addOpener, h.commands]
    cases a.current <;> simp [group, OpenBlock.start, OpenBlock.part, Part.commands]
  root := by
    rw [root_addOpener, current_addOpener, h.root]
    cases a.current <;> simp [group, OpenBlock.start, OpenBlock.part, Part.head]
  blocks := by
    rw [blocks_addOpener, h.blocks]
    cases a.current <;> simp [group, OpenBlock.part, Part.block?]

theorem single (h : a.Holds ps) (hcurrent : a.current = none)
    (ha' : a'.commands = a.commands ++ [c] ∧ a'.root = a.root ++ [c] ∧ a'.blocks = a.blocks ∧
      a'.current = none) : a'.Holds (ps ++ [.single c]) := by
  obtain ⟨hcommands, hroot, hblocks, hnone⟩ := ha'
  constructor
  · simp [hcommands, hnone, h.commands, hcurrent, Part.commands]
  · simp [hroot, hnone, h.root, hcurrent, Part.head]
  · simp [hblocks, h.blocks, Part.block?]

theorem closed {b : OpenBlock} (h : a.Holds ps) (hcurrent : a.current = some b) (c : Command) :
    (a.addCloser (c.within b.name)).Holds (ps ++ [(b.add c).part (some c.index)]) := by
  obtain ⟨hcommands, hroot, hblocks, hnone⟩ := addCloser_inside (c.within b.name) hcurrent
  constructor
  · simp [hcommands, hnone, h.commands, hcurrent, OpenBlock.part, OpenBlock.add, Part.commands]
  · simp [hroot, hnone, h.root, hcurrent, OpenBlock.part, OpenBlock.add, Part.head]
  · simp [hblocks, h.blocks, OpenBlock.part, OpenBlock.add, Part.block?]

theorem inside {b : OpenBlock} (h : a.Holds ps) (hcurrent : a.current = some b) (c : Command) :
    (a.addPlain (c.within b.name)).Holds ps := by
  obtain ⟨hcommands, hroot, hblocks, hsome⟩ := addPlain_inside (c.within b.name) hcurrent
  constructor
  · simp [hcommands, hsome, h.commands, hcurrent]
  · simp [hroot, hsome, h.root, hcurrent]
  · rw [hblocks, h.blocks]

/-- An assembly ends the parts that `group` ends. -/
theorem adds (h : a.Holds ps) (hadds : Adds a c a') :
    ∃ qs, a'.Holds (ps ++ qs) ∧ Groups c a.current qs a'.current := by
  cases hadds with
  | opener hopen => exact ⟨_, h.addOpener c, .opener hopen⟩
  | closerOutside hcurrent hclose =>
    have ha' := addCloser_outside c hcurrent
    refine ⟨_, h.single hcurrent ha', ?_⟩
    rw [hcurrent, ha'.2.2.2]
    exact .single (by simp [hclose])
  | plainOutside hcurrent hopen =>
    have ha' := addPlain_outside c hcurrent
    refine ⟨_, h.single hcurrent ha', ?_⟩
    rw [hcurrent, ha'.2.2.2]
    exact .single hopen
  | @closerInside b hcurrent hclose =>
    refine ⟨_, h.closed hcurrent c, ?_⟩
    rw [hcurrent, (addCloser_inside (c.within b.name) hcurrent).2.2.2]
    exact .closer hclose
  | @plainInside b hcurrent hopen hclose =>
    refine ⟨[], by rw [List.append_nil]; exact h.inside hcurrent c, ?_⟩
    rw [hcurrent, (addPlain_inside (c.within b.name) hcurrent).2.2.2]
    exact .inner hopen hclose

theorem finish (h : a.Holds ps) : a.finish.commands = (ps ++ group a.current []).flatMap Part.commands ∧
    a.finish.root = (ps ++ group a.current []).map Part.head ∧
    a.finish.blocks = (ps ++ group a.current []).filterMap Part.block? := by
  unfold Assembly.finish
  cases hcurrent : a.current with
  | none => simp [h.commands, h.root, h.blocks, hcurrent, group]
  | some b =>
    simp [h.commands, h.root, h.blocks, hcurrent, group, OpenBlock.part, Part.commands, Part.head,
      Part.block?]

/-- By induction on the tokens: the lists at the end are those of the parts of all commands. -/
theorem foldl (h : a.Holds ps) (dialect : Dialect) (tokens : List Token) :
    let parts := ps ++ group a.current (Command.ofTokens dialect a.commands.length tokens)
    let result := (tokens.foldl (add dialect) a).finish
    result.commands = parts.flatMap Part.commands ∧ result.root = parts.map Part.head ∧
      result.blocks = parts.filterMap Part.block? := by
  induction tokens generalizing a ps with
  | nil => exact h.finish
  | cons token tokens ih =>
    have hadds := adds_add dialect a token
    obtain ⟨qs, hqs, hgroups⟩ := h.adds hadds
    rw [List.foldl_cons, Command.ofTokens, hgroups.group_cons, ← List.append_assoc,
      ← hadds.length_commands]
    exact ih hqs

end Holds

theorem holds_start : start.Holds [] := ⟨rfl, rfl, rfl⟩

end Assembly

def partsOf (dialect : Dialect) (tokens : List Token) : List Part :=
  group none (Command.ofTokens dialect 0 tokens)

def parts (dialect : Dialect) (text : Text) : List Part :=
  partsOf dialect (Tokens.ofText dialect.isKeyword text).tokens

section Parse
variable (dialect : Dialect) (text : Text)

theorem commands_parse : (parse dialect text).commands = (parts dialect text).flatMap Part.commands :=
  (Assembly.holds_start.foldl dialect (Tokens.ofText dialect.isKeyword text).tokens).1

theorem root_parse : (parse dialect text).root = (parts dialect text).map Part.head :=
  (Assembly.holds_start.foldl dialect (Tokens.ofText dialect.isKeyword text).tokens).2.1

theorem blocks_parse : (parse dialect text).blocks = (parts dialect text).filterMap Part.block? :=
  (Assembly.holds_start.foldl dialect (Tokens.ofText dialect.isKeyword text).tokens).2.2

end Parse

def pending : Option OpenBlock → List Command
  | none => []
  | some b => b.opener :: b.commands

theorem map_commands_group {α : Type} (f : Command → α)
    (hf : ∀ (name : Text) (c : Command), f (c.within name) = f c) (st : Option OpenBlock)
    (cs : List Command) :
    ((group st cs).flatMap Part.commands).map f = (pending st ++ cs).map f := by
  induction cs generalizing st with
  | nil => cases st <;> simp [group, pending, OpenBlock.part, Part.commands]
  | cons c cs ih =>
    obtain ⟨ps, st', hgroups⟩ := exists_groups st c
    rw [hgroups.group_cons, List.flatMap_append, List.map_append, ih]
    cases hgroups with
    | opener =>
      cases st <;> simp [group, pending, OpenBlock.start, OpenBlock.part, Part.commands]
    | single => simp [pending, Part.commands]
    | closer => simp [pending, OpenBlock.add, OpenBlock.part, Part.commands, hf]
    | inner => simp [pending, OpenBlock.add, hf]

theorem map_index_ofTokens (dialect : Dialect) (index : Nat) (tokens : List Token) :
    (Command.ofTokens dialect index tokens).map Command.index = List.range' index tokens.length := by
  induction tokens generalizing index with
  | nil => rfl
  | cons token tokens ih => simp [Command.ofTokens, List.range'_succ, ih, Command.ofToken]

theorem map_index_commands (dialect : Dialect) (text : Text) :
    ((parts dialect text).flatMap Part.commands).map Command.index =
      List.range (Tokens.ofText dialect.isKeyword text).tokens.length := by
  rw [parts, partsOf, map_commands_group Command.index (fun _ _ => rfl), pending, List.nil_append,
    map_index_ofTokens, List.range_eq_range']

theorem nodup_index_commands (dialect : Dialect) (text : Text) :
    (((parts dialect text).flatMap Part.commands).map Command.index).Nodup := by
  rw [map_index_commands]
  exact List.nodup_range

def Part.Formed : Part → Prop
  | single c => c.role? ≠ some .blockOpen
  | block opener b => opener.role? = some .blockOpen ∧ b.openerIndex = opener.index

theorem formed_group {st : Option OpenBlock} {cs : List Command}
    (hst : ∀ b ∈ st, b.opener.role? = some .blockOpen) : ∀ part ∈ group st cs, part.Formed :=
  forall_group hst
    (fun _ _ =>
      { start := id
        single := id
        add := fun hb _ _ => hb
        closed := fun hb _ => ⟨hb, rfl⟩ })
    fun _ hb => ⟨hb, rfl⟩

theorem formed_parts (dialect : Dialect) (text : Text) : ∀ part ∈ parts dialect text, part.Formed :=
  formed_group (by simp)

theorem Part.head_mem_commands (part : Part) : part.head ∈ part.commands := by
  cases part <;> simp [Part.head, Part.commands]

theorem heads_sublist (ps : List Part) : (ps.map Part.head).Sublist (ps.flatMap Part.commands) := by
  induction ps with
  | nil => exact .slnil
  | cons part ps ih =>
    rw [List.map_cons, List.flatMap_cons, ← List.singleton_append]
    exact (List.singleton_sublist.2 part.head_mem_commands).append ih

theorem block_sublist {ps : List Part} {part : Part} (hpart : part ∈ ps) {b : Block}
    (hb : part.block? = some b) : b.commands.Sublist (ps.flatMap Part.commands) := by
  have hown : b.commands.Sublist part.commands := by
    cases part with
    | single c => cases hb
    | block opener b' =>
      cases hb
      exact List.sublist_cons_self opener b.commands
  obtain ⟨front, back, rfl⟩ := List.append_of_mem hpart
  rw [List.flatMap_append, List.flatMap_cons]
  exact hown.trans ((List.sublist_append_left _ _).trans (List.sublist_append_right _ _))

theorem exists_scope {dialect : Dialect} {text : Text} {c : Command}
    (hc : c ∈ (parse dialect text).commands) :
    ∃ s ∈ (parse dialect text).scopes, c ∈ s.commands := by
  rw [commands_parse, List.mem_flatMap] at hc
  obtain ⟨part, hpart, hc⟩ := hc
  have hroot : part.head ∈ (parse dialect text).root := by
    rw [root_parse]
    exact List.mem_map_of_mem hpart
  cases part with
  | single c' =>
    rw [Part.commands, List.mem_singleton] at hc
    subst hc
    exact ⟨_, List.mem_cons_self, hroot⟩
  | block opener b =>
    rcases List.mem_cons.1 hc with rfl | hc
    · exact ⟨_, List.mem_cons_self, hroot⟩
    · have hb : b ∈ (parse dialect text).blocks := by
        rw [blocks_parse]
        exact List.mem_filterMap.2 ⟨_, hpart, rfl⟩
      exact ⟨b.scope, List.mem_cons_of_mem _ (List.mem_map_of_mem hb), hc⟩

theorem find_block {ps : List Part} (hformed : ∀ part ∈ ps, part.Formed)
    (hnodup : ((ps.flatMap Part.commands).map Command.index).Nodup) {part : Part} (hpart : part ∈ ps)
    (hopen : part.head.role? = some .blockOpen) :
    (ps.filterMap Part.block?).find? (fun b => b.openerIndex = part.head.index) = part.block? := by
  obtain ⟨front, back, rfl⟩ := List.append_of_mem hpart
  have hothers : ∀ b ∈ front.filterMap Part.block?, b.openerIndex ≠ part.head.index := by
    intro b hb heq
    obtain ⟨other, hother, hblock⟩ := List.mem_filterMap.1 hb
    have hof := hformed other (by simp [hother])
    cases other with
    | single c => cases hblock
    | block opener b' =>
      cases hblock
      have hmem : opener ∈ front.flatMap Part.commands :=
        List.mem_flatMap.2 ⟨_, hother, by simp [Part.commands]⟩
      simp only [List.flatMap_append, List.map_append, List.nodup_append] at hnodup
      refine hnodup.2.2 opener.index (List.mem_map_of_mem hmem) part.head.index ?_ (hof.2 ▸ heq)
      exact List.mem_map_of_mem (List.mem_flatMap.2 ⟨part, by simp, part.head_mem_commands⟩)
  have hnone : (front.filterMap Part.block?).find? (fun b => b.openerIndex = part.head.index) = none :=
    List.find?_eq_none.2 fun b hb => by simpa using hothers b hb
  rw [List.filterMap_append, List.find?_append, hnone, Option.none_or]
  have hown := hformed part hpart
  cases part with
  | single c => exact absurd hopen hown
  | block opener b =>
    simp only [Part.head, Part.block?, List.filterMap_cons, List.find?_cons, hown.2, decide_true]

end Document
end QueryLint
