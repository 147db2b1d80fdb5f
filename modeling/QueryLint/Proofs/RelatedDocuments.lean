import Mathlib.Data.List.Forall2
import Mathlib.Data.Option.Basic
import QueryLint.Proofs.Bookkeeping
import QueryLint.Proofs.LineEndings.Tokens

/-!
Documents that are related command by command.

Putting a document together looks only at what kind of command comes next, where it stands and what it
declares. So a relation of commands that keeps this carries over from the commands to the documents they make.
-/

namespace QueryLint
set_option autoImplicit false

section Lists
variable {α β : Type} {R S : α → α → Prop} {xs ys : List α}

theorem map_eq_of_forall₂ {f g : α → β} (h : List.Forall₂ R xs ys) (hf : ∀ {x y}, R x y → g y = f x) :
    ys.map g = xs.map f := by
  induction h with
  | nil => rfl
  | cons hxy _ ih => rw [List.map_cons, List.map_cons, hf hxy, ih]

theorem forall₂_imp_mem (h : List.Forall₂ R xs ys) (hS : ∀ x ∈ xs, ∀ y, R x y → S x y) :
    List.Forall₂ S xs ys := by
  induction h with
  | nil => exact .nil
  | cons hxy _ ih =>
    exact .cons (hS _ List.mem_cons_self _ hxy) (ih fun x hx => hS x (List.mem_cons_of_mem _ hx))

theorem isEmpty_of_forall₂ {γ : Type} {R : α → γ → Prop} {xs : List α} {ys : List γ}
    (h : List.Forall₂ R xs ys) : ys.isEmpty = xs.isEmpty := by
  cases h <;> rfl

end Lists

section Options
variable {α β : Type} {R : α → α → Prop} {o o' : Option α}

theorem cases_of_rel (h : Option.Rel R o o') :
    (o = none ∧ o' = none) ∨ ∃ x y, o = some x ∧ o' = some y ∧ R x y := by
  cases h with
  | none => exact .inl ⟨rfl, rfl⟩
  | some hxy => exact .inr ⟨_, _, rfl, rfl, hxy⟩

theorem map_eq_of_rel {f : α → β} (h : Option.Rel R o o') (hf : ∀ {x y}, R x y → f y = f x) :
    o'.map f = o.map f := by
  cases h with
  | none => rfl
  | some hxy => exact congrArg some (hf hxy)

theorem bind_eq_of_rel {f : α → Option β} (h : Option.Rel R o o') (hf : ∀ {x y}, R x y → f y = f x) :
    o'.bind f = o.bind f := by
  cases h with
  | none => rfl
  | some hxy => exact hf hxy

end Options

/-- A relation of commands that keeps what putting a document together looks at. -/
structure Command.Congruent (R : Command → Command → Prop) : Prop where
  index : ∀ {c c'}, R c c' → c'.index = c.index
  role : ∀ {c c'}, R c c' → c'.role? = c.role?
  name : ∀ {c c'}, R c c' → c'.name = c.name
  line : ∀ {c c'}, R c c' → c'.line = c.line
  scope : ∀ {c c'}, R c c' → c'.scope = c.scope
  declaredName : ∀ {c c'}, R c c' → c'.declaredName? = c.declaredName?
  payload : ∀ {c c'}, R c c' → c'.payload.isSome = c.payload.isSome
  within : ∀ {c c'} (scope : Option Text), R c c' → R { c with scope } { c' with scope }

theorem Command.Congruent.issue {R : Command → Command → Prop} (hR : Congruent R) {c c' : Command}
    (h : R c c') (rule : Rule) (message : Text) (suggestion : Option Text) :
    Issue.ofCommand c' rule message suggestion = Issue.ofCommand c rule message suggestion := by
  simp only [Issue.ofCommand, hR.index h, hR.line h, hR.scope h]

variable {R : Command → Command → Prop}

structure Block.Related (R : Command → Command → Prop) (b b' : Block) : Prop where
  name : b'.name = b.name
  commands : List.Forall₂ R b.commands b'.commands
  openerIndex : b'.openerIndex = b.openerIndex
  closerIndex : b'.closerIndex = b.closerIndex

namespace Document

structure Related (R : Command → Command → Prop) (d d' : Document) : Prop where
  dialect : d'.dialect = d.dialect
  commands : List.Forall₂ R d.commands d'.commands
  root : List.Forall₂ R d.root d'.root
  blocks : List.Forall₂ (Block.Related R) d.blocks d'.blocks
  issues : d'.issues = d.issues

structure OpenBlock.Related (R : Command → Command → Prop) (b b' : OpenBlock) : Prop where
  name : b'.name = b.name
  opener : R b.opener b'.opener
  commands : List.Forall₂ R b.commands b'.commands

namespace Assembly

structure Related (R : Command → Command → Prop) (a a' : Assembly) : Prop where
  commands : List.Forall₂ R a.commands a'.commands
  root : List.Forall₂ R a.root a'.root
  blocks : List.Forall₂ (Block.Related R) a.blocks a'.blocks
  current : Option.Rel (OpenBlock.Related R) a.current a'.current
  issues : a'.issues = a.issues

def opened (a : Assembly) (opener : Command) : Assembly :=
  let a := if opener.declaredName?.isNone && opener.payload.isSome then
      a.report (.ofCommand opener .missingBlockName (opener.name ++ " does not name its subquery")
        (some "Name the block, e.g. SUB \x7bid: my_data\x7d"))
    else a
  { a with
    commands := a.commands ++ [opener]
    root := a.root ++ [opener]
    current := some ⟨opener.declaredName?.getD [], opener, []⟩ }

namespace Related
variable {a a' : Assembly} (ha : a.Related R a')
include ha

theorem report {issue issue' : Issue} (hissue : issue' = issue) :
    (a.report issue).Related R (a'.report issue') := by
  refine ⟨ha.commands, ha.root, ha.blocks, ha.current, ?_⟩
  rw [Assembly.report, Assembly.report, ha.issues, hissue]

variable (hR : Command.Congruent R)
include hR

theorem endBlock {b b' : OpenBlock} (hb : b.Related R b') (k : Option Nat) :
    (a.endBlock b k).Related R (a'.endBlock b' k) := by
  obtain ⟨name, opener, commands⟩ := b
  obtain ⟨name', opener', commands'⟩ := b'
  obtain ⟨rfl, hopener, hcommands⟩ := hb
  have htaken : (a'.blocks.any fun block => block.name = name') =
      a.blocks.any fun block => block.name = name' := by
    have hblocks := ha.blocks
    generalize a.blocks = blocks, a'.blocks = blocks' at hblocks
    induction hblocks with
    | nil => rfl
    | cons hblock _ ih => rw [List.any_cons, List.any_cons, hblock.name, ih]
  have hended : Block.Related R ⟨name', commands, opener.index, k⟩ ⟨name', commands', opener'.index, k⟩ :=
    ⟨rfl, hcommands, hR.index hopener, rfl⟩
  have hmoved : Related R
      { a with blocks := a.blocks ++ [⟨name', commands, opener.index, k⟩], current := none }
      { a' with blocks := a'.blocks ++ [⟨name', commands', opener'.index, k⟩], current := none } :=
    ⟨ha.commands, ha.root, List.rel_append ha.blocks (.cons hended .nil), .none, ha.issues⟩
  unfold Assembly.endBlock
  dsimp only
  rw [htaken]
  split
  · exact hmoved.report (hR.issue hopener _ _ _)
  · exact hmoved

variable {c c' : Command} (hc : R c c')
include hc

theorem opened : (a.opened c).Related R (a'.opened c') := by
  have hlast : List.Forall₂ R [c] [c'] := .cons hc .nil
  have hstart : OpenBlock.Related R ⟨c.declaredName?.getD [], c, []⟩ ⟨c'.declaredName?.getD [], c', []⟩ :=
    ⟨by rw [hR.declaredName hc], hc, .nil⟩
  have hmoved : ∀ {a a' : Assembly}, a.Related R a' → Related R
      { a with
        commands := a.commands ++ [c]
        root := a.root ++ [c]
        current := some ⟨c.declaredName?.getD [], c, []⟩ }
      { a' with
        commands := a'.commands ++ [c']
        root := a'.root ++ [c']
        current := some ⟨c'.declaredName?.getD [], c', []⟩ } := fun ha =>
    ⟨List.rel_append ha.commands hlast, List.rel_append ha.root hlast, ha.blocks, .some hstart, ha.issues⟩
  refine hmoved ?_
  rw [hR.declaredName hc, hR.payload hc, hR.name hc]
  split
  · exact ha.report (hR.issue hc _ _ _)
  · exact ha

theorem addOpener : (a.addOpener c).Related R (a'.addOpener c') := by
  unfold Assembly.addOpener
  rcases cases_of_rel ha.current with ⟨hnone, hnone'⟩ | ⟨b, b', hsome, hsome', hb⟩
  · rw [hnone, hnone']
    exact ha.opened hR hc
  · rw [hsome, hsome']
    refine opened ((ha.report ?_).endBlock hR hb none) hR hc
    rw [hR.issue hc, hR.name hc, hb.name]

theorem addCloser : (a.addCloser c).Related R (a'.addCloser c') := by
  have hlast : List.Forall₂ R [c] [c'] := .cons hc .nil
  have hmoved : Related R { a with commands := a.commands ++ [c] }
      { a' with commands := a'.commands ++ [c'] } :=
    ⟨List.rel_append ha.commands hlast, ha.root, ha.blocks, ha.current, ha.issues⟩
  unfold Assembly.addCloser
  dsimp only
  rcases cases_of_rel ha.current with ⟨hnone, hnone'⟩ | ⟨b, b', hsome, hsome', hb⟩
  · rw [hnone, hnone']
    have hissue : unmatchedIssue c' = unmatchedIssue c := by
      rw [unmatchedIssue, hR.issue hc, hR.name hc, unmatchedIssue]
    have hreported := hmoved.report hissue
    exact ⟨hreported.commands, List.rel_append ha.root hlast, hreported.blocks, .none, hreported.issues⟩
  · have hfilled : OpenBlock.Related R { b with commands := b.commands ++ [c] }
        { b' with commands := b'.commands ++ [c'] } :=
      ⟨hb.name, hb.opener, List.rel_append hb.commands hlast⟩
    have hended := hmoved.endBlock hR hfilled (some c.index)
    rw [hsome, hsome'] at hended
    rw [hsome, hsome', hR.index hc]
    exact hended

omit hR in
theorem addPlain : (a.addPlain c).Related R (a'.addPlain c') := by
  have hlast : List.Forall₂ R [c] [c'] := .cons hc .nil
  have hcommands := List.rel_append ha.commands hlast
  unfold Assembly.addPlain
  rcases cases_of_rel ha.current with ⟨hnone, hnone'⟩ | ⟨b, b', hsome, hsome', hb⟩
  · rw [hnone, hnone']
    exact ⟨hcommands, List.rel_append ha.root hlast, ha.blocks, .none, ha.issues⟩
  · have hfilled := List.rel_append hb.commands hlast
    rw [hsome, hsome']
    exact ⟨hcommands, ha.root, ha.blocks, .some ⟨hb.name, hb.opener, hfilled⟩, ha.issues⟩

omit hc

theorem finish : a.finish.Related R a'.finish := by
  unfold Assembly.finish
  rcases cases_of_rel ha.current with ⟨hnone, hnone'⟩ | ⟨b, b', hsome, hsome', hb⟩
  · rw [hnone, hnone']
    exact ha
  · rw [hsome, hsome']
    refine (ha.report ?_).endBlock hR hb none
    rw [hR.issue hb.opener, hb.name]

end Related

theorem add_related (hR : Command.Congruent R) (dialect : Dialect) {a a' : Assembly} (ha : a.Related R a')
    {k k' : Token} (hk : R (.ofToken dialect none a.commands.length k)
      (.ofToken dialect none a.commands.length k')) :
    (add dialect a k).Related R (add dialect a' k') := by
  have hlength : a'.commands.length = a.commands.length := ha.commands.length_eq.symm
  have hscope : a'.current.map (·.name) = a.current.map (·.name) :=
    map_eq_of_rel ha.current fun hb => hb.name
  rw [add_eq, add_eq, hlength, hscope, hR.role hk]
  split
  · exact ha.addOpener hR hk
  · exact ha.addCloser hR (hR.within _ hk)
  · exact ha.addPlain (hR.within _ hk)

theorem foldl_related (hR : Command.Congruent R) (dialect : Dialect) {a a' : Assembly} (ha : a.Related R a')
    {ks ks' : List Token} (hks : List.Forall₂ R (Command.ofTokens dialect a.commands.length ks)
      (Command.ofTokens dialect a.commands.length ks')) :
    (ks.foldl (add dialect) a).Related R (ks'.foldl (add dialect) a') := by
  induction ks generalizing a a' ks' with
  | nil =>
    cases ks' with
    | nil => exact ha
    | cons k' ks' => cases hks
  | cons k ks ih =>
    cases ks' with
    | nil => cases hks
    | cons k' ks' =>
      obtain ⟨hk, hks⟩ := List.forall₂_cons.1 hks
      -- The next command has the number of the commands so far as its index, with either text.
      refine ih (add_related hR dialect ha hk) ?_
      rwa [(adds_add dialect _ k).length_commands]

theorem ofTokens_related (hR : Command.Congruent R) (dialect : Dialect) {ks ks' : List Token}
    (hks : List.Forall₂ R (Command.ofTokens dialect 0 ks) (Command.ofTokens dialect 0 ks')) :
    (ofTokens dialect ks).Related R (ofTokens dialect ks') := by
  have hstart : Assembly.start.Related R .start := ⟨.nil, .nil, .nil, .none, rfl⟩
  exact (foldl_related hR dialect hstart hks).finish hR

end Assembly

theorem strayIssue_related (hR : Command.Congruent R) {cs cs' : List Command} (hcs : List.Forall₂ R cs cs')
    {s s' : Stray} (hs : Stray.Agree s s') : strayIssue cs' s' = strayIssue cs s := by
  have hscopes : cs'.map Command.scope = cs.map Command.scope := map_eq_of_forall₂ hcs hR.scope
  have hscope : ∀ index : Nat, cs'[index]?.bind Command.scope = cs[index]?.bind Command.scope := by
    intro index
    have hmapped := congrArg (fun scopes : List (Option Text) => scopes[index]?.bind id) hscopes
    simpa [List.getElem?_map, Option.bind_map] using hmapped
  unfold strayIssue
  simp only [Option.bind_assoc, hscope, hs.text, hs.line, hs.after]

/-- Texts with related commands and the same stray lines are read as related documents. -/
theorem parse_related (hR : Command.Congruent R) (dialect : Dialect) {text text' : Text}
    (hcommands : List.Forall₂ R (Command.ofTokens dialect 0 (Tokens.ofText dialect.isKeyword text).tokens)
      (Command.ofTokens dialect 0 (Tokens.ofText dialect.isKeyword text').tokens))
    (hstrays : List.Forall₂ Stray.Agree (Tokens.ofText dialect.isKeyword text).strays
      (Tokens.ofText dialect.isKeyword text').strays) :
    (parse dialect text).Related R (parse dialect text') := by
  have h := Assembly.ofTokens_related hR dialect hcommands
  refine ⟨rfl, h.commands, h.root, h.blocks, ?_⟩
  exact congrArg₂ (· ++ ·) h.issues
    (map_eq_of_forall₂ hstrays fun hs => strayIssue_related hR h.commands hs)

end Document
end QueryLint
