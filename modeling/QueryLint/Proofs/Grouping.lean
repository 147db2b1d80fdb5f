import Mathlib.Data.List.Forall2
import Mathlib.Data.Option.Basic
import QueryLint.Proofs.Scopes

/-!
Commands in parts, and commands that move.

Where no block is open the parts of a list of commands are those of its two halves. Commands that
stand elsewhere but are otherwise the same make up parts that are otherwise the same.
-/

namespace QueryLint
set_option autoImplicit false

theorem exists_of_forall₂_right {α β : Type} {r : α → β → Prop} {xs : List α} {ys : List β}
    (h : List.Forall₂ r xs ys) {y : β} (hy : y ∈ ys) : ∃ x ∈ xs, r x y := by
  induction h with
  | nil => cases hy
  | cons hr _ ih =>
    rcases List.mem_cons.1 hy with rfl | hy
    · exact ⟨_, List.mem_cons_self, hr⟩
    · obtain ⟨x, hx, hxy⟩ := ih hy
      exact ⟨x, List.mem_cons_of_mem _ hx, hxy⟩

namespace Document

def openAt : Option OpenBlock → List Command → Option OpenBlock
  | st, [] => st
  | none, c :: cs => if c.role? = some .blockOpen then openAt (some (.start c)) cs else openAt none cs
  | some b, c :: cs =>
    if c.role? = some .blockOpen then openAt (some (.start c)) cs
    else if c.role? = some .blockClose then openAt none cs
    else openAt (some (b.add c)) cs

theorem Groups.openAt_cons {c : Command} {st st' : Option OpenBlock} {ps : List Part}
    (h : Groups c st ps st') (cs : List Command) : openAt st (c :: cs) = openAt st' cs := by
  cases h with
  | opener hopen => cases st <;> simp [openAt, hopen]
  | single hopen => simp [openAt, hopen]
  | closer hclose => simp [openAt, hclose]
  | inner hopen hclose => simp [openAt, hopen, hclose]

theorem openAt_append (st : Option OpenBlock) (xs ys : List Command) :
    openAt st (xs ++ ys) = openAt (openAt st xs) ys := by
  induction xs generalizing st with
  | nil => cases st <;> rfl
  | cons x xs ih =>
    obtain ⟨ps, st', hgroups⟩ := exists_groups st x
    rw [List.cons_append, hgroups.openAt_cons, hgroups.openAt_cons, ih]

theorem group_append {st : Option OpenBlock} {xs : List Command} (ys : List Command)
    (h : openAt st xs = none) : group st (xs ++ ys) = group st xs ++ group none ys := by
  induction xs generalizing st with
  | nil =>
    cases st with
    | none => rfl
    | some b => cases h
  | cons x xs ih =>
    obtain ⟨ps, st', hgroups⟩ := exists_groups st x
    rw [hgroups.openAt_cons] at h
    rw [List.cons_append, hgroups.group_cons, hgroups.group_cons, ih h, List.append_assoc]

/-- A command at the top level ends a part by itself, or it stands behind what ends here. -/
theorem Groups.append_eq {c d : Command} {st st' : Option OpenBlock} {ps rest front back : List Part}
    (h : Groups d st ps st') (heq : ps ++ rest = front ++ .single c :: back) :
    (∃ front', front = ps ++ front' ∧ rest = front' ++ .single c :: back) ∨
      (st = none ∧ d = c ∧ st' = none ∧ front = [] ∧ rest = back) := by
  rcases List.append_eq_append_iff.1 heq with ⟨front', hfront, hrest⟩ | ⟨mid, hps, hmid⟩
  · exact .inl ⟨front', hfront, hrest⟩
  · cases mid with
    | nil => exact .inl ⟨[], by rw [hps, List.append_nil, List.append_nil], hmid.symm⟩
    | cons part mid =>
      obtain ⟨rfl, rfl⟩ := List.cons_eq_cons.1 hmid
      -- what ends is a block, unless the command is by itself
      right
      cases h with
      | opener => cases st <;> simp [group, List.singleton_eq_append_iff, OpenBlock.part] at hps
      | single =>
        obtain ⟨rfl, hsingle⟩ | ⟨-, hsingle⟩ := List.singleton_eq_append_iff.1 hps
        · cases hsingle
          exact ⟨rfl, rfl, rfl, rfl, rfl⟩
        · cases hsingle
      | closer => simp [List.singleton_eq_append_iff, OpenBlock.part] at hps
      | inner => simp at hps

/-- A command at the top level has no block open before it or behind it. -/
theorem group_split {st : Option OpenBlock} {zs : List Command} {front back : List Part} {c : Command}
    (h : group st zs = front ++ .single c :: back) :
    ∃ xs ys, zs = xs ++ c :: ys ∧ openAt st xs = none ∧ group st xs = front ∧ group none ys = back := by
  induction zs generalizing st front with
  | nil => cases st <;> simp [group, List.singleton_eq_append_iff, OpenBlock.part] at h
  | cons z zs ih =>
    obtain ⟨ps, st', hgroups⟩ := exists_groups st z
    rw [hgroups.group_cons] at h
    rcases hgroups.append_eq h with ⟨front', rfl, hrest⟩ | ⟨rfl, rfl, rfl, rfl, hrest⟩
    · obtain ⟨xs, ys, rfl, hnone, hfront, hback⟩ := ih hrest
      refine ⟨z :: xs, ys, rfl, ?_, ?_, hback⟩
      · rw [hgroups.openAt_cons, hnone]
      · rw [hgroups.group_cons, hfront]
    · exact ⟨[], zs, rfl, rfl, rfl, hrest⟩

end Document

/-- The command moved: its index is changed by `σ`, and it may stand elsewhere in the text. -/
def Command.Kept (σ : Nat → Nat) (c c' : Command) : Prop :=
  c' = { c with index := σ c.index, start := c'.start, stop := c'.stop }

structure Block.Kept (σ : Nat → Nat) (b b' : Block) : Prop where
  name : b'.name = b.name
  commands : List.Forall₂ (Command.Kept σ) b.commands b'.commands
  openerIndex : b'.openerIndex = σ b.openerIndex
  closerIndex : b'.closerIndex = b.closerIndex.map σ

namespace Command.Kept
variable {σ : Nat → Nat} {c c' : Command} (h : c.Kept σ c')
include h

theorem index_eq : c'.index = σ c.index := by rw [h]
theorem spec_eq : c'.spec = c.spec := by rw [h]
theorem payload_eq : c'.payload = c.payload := by rw [h]
theorem payloadText_eq : c'.payloadText = c.payloadText := by rw [h]
theorem payloadFault_eq : c'.payloadFault = c.payloadFault := by rw [h]
theorem delimiterFault_eq : c'.delimiterFault = c.delimiterFault := by rw [h]

theorem role_eq : c'.role? = c.role? := by rw [role?, h.spec_eq, role?]

theorem declaredName_eq : c'.declaredName? = c.declaredName? := by
  simp [declaredName?, declaredNameValue?, operand?, property?, h.spec_eq, h.payload_eq]

theorem referencedName_eq : c'.referencedName? = c.referencedName? := by
  simp [referencedName?, operand?, property?, h.spec_eq, h.payload_eq]

theorem within (name : Text) : (c.within name).Kept σ (c'.within name) := by
  have hfields : c'.within name =
      ({ c with index := σ c.index, start := c'.start, stop := c'.stop } : Command).within name := by
    rw [← h]
  exact hfields

end Command.Kept

namespace Document

inductive Part.Kept (σ : Nat → Nat) : Part → Part → Prop where
  | single {c c' : Command} : c.Kept σ c' → Part.Kept σ (.single c) (.single c')
  | block {c c' : Command} {b b' : Block} : c.Kept σ c' → b.Kept σ b' →
      Part.Kept σ (.block c b) (.block c' b')

structure OpenBlock.Kept (σ : Nat → Nat) (b b' : OpenBlock) : Prop where
  name : b'.name = b.name
  opener : b.opener.Kept σ b'.opener
  commands : List.Forall₂ (Command.Kept σ) b.commands b'.commands

namespace OpenBlock.Kept
variable {σ : Nat → Nat}

theorem start {c c' : Command} (h : c.Kept σ c') :
    OpenBlock.Kept σ (OpenBlock.start c) (OpenBlock.start c') :=
  ⟨by simp [OpenBlock.start, h.declaredName_eq], h, .nil⟩

theorem add {b b' : OpenBlock} {c c' : Command} (hb : b.Kept σ b') (h : c.Kept σ c') :
    (b.add c).Kept σ (b'.add c') := by
  refine ⟨hb.name, hb.opener, ?_⟩
  have hlast : List.Forall₂ (Command.Kept σ) [c.within b.name] [c'.within b'.name] := by
    rw [hb.name]
    exact .cons (h.within b.name) .nil
  exact List.rel_append hb.commands hlast

theorem part {b b' : OpenBlock} (hb : b.Kept σ b') {k k' : Option Nat} (hk : k' = k.map σ) :
    Part.Kept σ (b.part k) (b'.part k') :=
  .block hb.opener ⟨hb.name, hb.commands, hb.opener.index_eq, hk⟩

end OpenBlock.Kept

section Moved
variable {σ : Nat → Nat} {st st' : Option OpenBlock}

theorem group_nil_kept (hst : Option.Rel (OpenBlock.Kept σ) st st') :
    List.Forall₂ (Part.Kept σ) (group st []) (group st' []) := by
  cases hst with
  | none => exact .nil
  | some hb => exact .cons (hb.part rfl) .nil

theorem Groups.kept {c c' : Command} {ps : List Part} {next : Option OpenBlock}
    (h : Groups c st ps next) (hc : c.Kept σ c') (hst : Option.Rel (OpenBlock.Kept σ) st st') :
    ∃ ps' next', Groups c' st' ps' next' ∧ List.Forall₂ (Part.Kept σ) ps ps' ∧
      Option.Rel (OpenBlock.Kept σ) next next' := by
  have hrole := hc.role_eq
  cases h with
  | opener hopen =>
    exact ⟨_, _, .opener (hrole.trans hopen), group_nil_kept hst, .some (.start hc)⟩
  | single hopen =>
    cases hst
    exact ⟨_, _, .single (hrole.trans_ne hopen), .cons (.single hc) .nil, .none⟩
  | closer hclose =>
    cases hst with
    | some hb =>
      have hindex : some c'.index = (some c.index).map σ := by rw [hc.index_eq, Option.map_some]
      exact ⟨_, _, .closer (hrole.trans hclose), .cons ((hb.add hc).part hindex) .nil, .none⟩
  | inner hopen hclose =>
    cases hst with
    | some hb =>
      exact ⟨_, _, .inner (hrole.trans_ne hopen) (hrole.trans_ne hclose), .nil, .some (hb.add hc)⟩

theorem group_kept {cs cs' : List Command} (hst : Option.Rel (OpenBlock.Kept σ) st st')
    (hcs : List.Forall₂ (Command.Kept σ) cs cs') :
    List.Forall₂ (Part.Kept σ) (group st cs) (group st' cs') ∧
      Option.Rel (OpenBlock.Kept σ) (openAt st cs) (openAt st' cs') := by
  induction hcs generalizing st st' with
  | nil =>
    refine ⟨group_nil_kept hst, ?_⟩
    cases hst with
    | none => exact .none
    | some hb => exact .some hb
  | @cons c c' _ _ hc _ ih =>
    obtain ⟨ps, next, hgroups⟩ := exists_groups st c
    obtain ⟨ps', next', hgroups', hps, hnext⟩ := hgroups.kept hc hst
    obtain ⟨hparts, hopen⟩ := ih hnext
    rw [hgroups.group_cons, hgroups'.group_cons, hgroups.openAt_cons, hgroups'.openAt_cons]
    exact ⟨List.rel_append hps hparts, hopen⟩

end Moved

section Lists
variable {σ : Nat → Nat} {ps ps' : List Part} (h : List.Forall₂ (Part.Kept σ) ps ps')
include h

theorem commands_kept :
    List.Forall₂ (Command.Kept σ) (ps.flatMap Part.commands) (ps'.flatMap Part.commands) := by
  induction h with
  | nil => exact .nil
  | cons hpart _ ih =>
    rw [List.flatMap_cons, List.flatMap_cons]
    refine List.rel_append ?_ ih
    cases hpart with
    | single hc => exact .cons hc .nil
    | block hc hb => exact .cons hc hb.commands

theorem heads_kept : List.Forall₂ (Command.Kept σ) (ps.map Part.head) (ps'.map Part.head) := by
  induction h with
  | nil => exact .nil
  | cons hpart _ ih =>
    cases hpart with
    | single hc => exact .cons hc ih
    | block hc hb => exact .cons hc ih

theorem blocks_kept :
    List.Forall₂ (Block.Kept σ) (ps.filterMap Part.block?) (ps'.filterMap Part.block?) := by
  induction h with
  | nil => exact .nil
  | cons hpart _ ih =>
    cases hpart with
    | single hc => exact ih
    | block hc hb => exact .cons hb ih

end Lists

end Document
end QueryLint
