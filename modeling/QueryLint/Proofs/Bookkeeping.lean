import Mathlib.Data.List.Forall2
import QueryLint.Proofs.Findings
import QueryLint.Proofs.Records
import QueryLint.Proofs.Verdicts

/-!
What is said of the blocks of a document.

The complaints about blocks can be read off the parts of the document: a closer at the top level, a
block that the next opener or the end of the text ends, an opener that names nothing, and a name that
an earlier block has. So openers, closers, blocks and complaints can be counted against each other.
-/

namespace QueryLint
set_option autoImplicit false

open Issue

namespace Document

def IsTaken (others : List Block) (name : Text) : Prop := name ≠ [] ∧ ∃ b ∈ others, b.name = name

instance (others : List Block) (name : Text) : Decidable (IsTaken others name) :=
  inferInstanceAs (Decidable (_ ∧ _))

def unmatchedIssue (closer : Command) : Issue :=
  .ofCommand closer .unmatchedBlockClose (closer.name ++ " without a matching block opener")
    (some "Remove the extra closing command or add the missing opener")

def nestedIssue (name : Text) (opener : Command) : Issue :=
  .ofCommand opener .nestedBlock
    (opener.name ++ " opened inside block '" ++ name ++ "' before its closing command")
    (some "Close the previous block before opening another one")

def unclosedIssue (name : Text) (opener : Command) : Issue :=
  .ofCommand opener .unclosedBlock ("Block '" ++ name ++ "' is never closed")
    (some "Add a closing command (END) after the block")

def repeatedIssue (name : Text) (opener : Command) : Issue :=
  .ofCommand opener .duplicateSubquery
    ("Subquery '" ++ name ++ "' is defined more than once; the later definition wins")
    (some "Give each SUB block a distinct id")

def unnamedIssues (opener : Command) : List Issue :=
  if opener.declaredName?.isNone && opener.payload.isSome then
    [.ofCommand opener .missingBlockName (opener.name ++ " does not name its subquery")
      (some "Name the block, e.g. SUB \x7bid: my_data\x7d")]
  else []

def repeatedIssues (before : List Block) (name : Text) (opener : Command) : List Issue :=
  if IsTaken before name then [repeatedIssue name opener] else []

def endIssue (name : Text) (opener : Command) : List Part → Issue
  | [] => unclosedIssue name opener
  | next :: _ => nestedIssue name next.head

/-- What is said of parts that stand behind the given blocks. -/
def remarks (before : List Block) : List Part → List Issue
  | [] => []
  | .single c :: ps =>
    (if c.role? = some .blockClose then [unmatchedIssue c] else []) ++ remarks before ps
  | .block opener b :: ps =>
    unnamedIssues opener ++ (if b.closerIndex.isNone then [endIssue b.name opener ps] else []) ++
      repeatedIssues before b.name opener ++ remarks (before ++ [b]) ps

namespace Assembly
variable (a : Assembly)

@[simp] theorem issues_report (issue : Issue) : (a.report issue).issues = a.issues ++ [issue] := rfl

@[simp] theorem issues_endBlock (b : OpenBlock) (closerIndex : Option Nat) :
    (a.endBlock b closerIndex).issues =
      a.issues ++ repeatedIssues a.blocks b.name b.opener := by
  have htaken : (!b.name.isEmpty && a.blocks.any fun other => other.name = b.name) = true ↔
      IsTaken a.blocks b.name := by
    simp [IsTaken]
  unfold endBlock repeatedIssues
  simp only [htaken]
  split
  · rfl
  · simp

theorem issues_addOpener_none {a : Assembly} (hcurrent : a.current = none) (opener : Command) :
    (a.addOpener opener).issues = a.issues ++ unnamedIssues opener := by
  unfold addOpener unnamedIssues
  simp only [hcurrent]
  split <;> simp

theorem issues_addOpener_some {a : Assembly} {b : OpenBlock} (hcurrent : a.current = some b)
    (opener : Command) : (a.addOpener opener).issues = a.issues ++
      nestedIssue b.name opener :: repeatedIssues a.blocks b.name b.opener ++ unnamedIssues opener := by
  unfold addOpener unnamedIssues
  simp only [hcurrent]
  split <;> simp [nestedIssue]

theorem issues_addCloser_none {a : Assembly} (hcurrent : a.current = none) (closer : Command) :
    (a.addCloser closer).issues = a.issues ++ [unmatchedIssue closer] := by
  simp [addCloser, hcurrent, unmatchedIssue]

theorem issues_addCloser_some {a : Assembly} {b : OpenBlock} (hcurrent : a.current = some b)
    (closer : Command) :
    (a.addCloser closer).issues = a.issues ++ repeatedIssues a.blocks b.name b.opener := by
  simp [addCloser, hcurrent]

/-- The assembly has said the given issues, and what there is to say about the opener of the block that
is open. -/
def Said (issues : List Issue) : Prop :=
  a.issues = issues ++ (a.current.map fun b => unnamedIssues b.opener).getD []

/-- Between two assemblies a command is taken, and what there is to say about it is said. -/
def Tells (a : Assembly) (c : Command) (a' : Assembly) : Prop :=
  ∀ issues cs, a.Said issues → ∃ more, a'.Said (issues ++ more) ∧
    remarks a.blocks (group a.current (c :: cs)) = more ++ remarks a'.blocks (group a'.current cs)

theorem endIssue_group (name : Text) (opener c : Command) (cs : List Command) :
    endIssue name opener (group (some (.start c)) cs) = nestedIssue name c := by
  obtain ⟨next, rest, hgroup, hhead⟩ := group_open (.start c) cs
  rw [hgroup, endIssue, hhead]
  rfl

section Steps
variable {a : Assembly} {c : Command}

theorem tells_addOpener (hopen : c.role? = some .blockOpen) : a.Tells c (a.addOpener c) := by
  intro issues cs h
  unfold Said at h
  cases hcurrent : a.current with
  | none =>
    rw [hcurrent, Option.map_none, Option.getD_none, List.append_nil] at h
    refine ⟨[], ?_, ?_⟩
    · simp [Said, issues_addOpener_none hcurrent, OpenBlock.start, h]
    · simp [hcurrent, group, hopen]
  | some b =>
    rw [hcurrent, Option.map_some, Option.getD_some] at h
    refine ⟨unnamedIssues b.opener ++ nestedIssue b.name c ::
      repeatedIssues a.blocks b.name b.opener, ?_, ?_⟩
    · simp [Said, issues_addOpener_some hcurrent, OpenBlock.start, h]
    · simp [hcurrent, group, hopen, remarks, endIssue_group, OpenBlock.part]

theorem tells_closerOutside (hcurrent : a.current = none) (hclose : c.role? = some .blockClose) :
    a.Tells c (a.addCloser c) := by
  intro issues cs h
  obtain ⟨-, -, hblocks, hnone⟩ := addCloser_outside c hcurrent
  rw [Said, hcurrent, Option.map_none, Option.getD_none, List.append_nil] at h
  refine ⟨[unmatchedIssue c], ?_, ?_⟩
  · simp [Said, hnone, issues_addCloser_none hcurrent, h]
  · simp [hcurrent, hnone, hblocks, group, hclose, remarks]

theorem tells_closerInside {b : OpenBlock} (hcurrent : a.current = some b)
    (hclose : c.role? = some .blockClose) : a.Tells c (a.addCloser (c.within b.name)) := by
  intro issues cs h
  obtain ⟨-, -, hblocks, hnone⟩ := addCloser_inside (c.within b.name) hcurrent
  rw [Said, hcurrent, Option.map_some, Option.getD_some] at h
  refine ⟨unnamedIssues b.opener ++ repeatedIssues a.blocks b.name b.opener, ?_, ?_⟩
  · simp [Said, hnone, issues_addCloser_some hcurrent, h]
  · simp [hcurrent, hnone, hblocks, group, hclose, remarks, OpenBlock.part, OpenBlock.add]

theorem tells_plainOutside (hcurrent : a.current = none) (hopen : c.role? ≠ some .blockOpen)
    (hclose : c.role? ≠ some .blockClose) : a.Tells c (a.addPlain c) := by
  intro issues cs h
  obtain ⟨-, -, hblocks, hnone⟩ := addPlain_outside c hcurrent
  refine ⟨[], ?_, ?_⟩
  · simpa [Said, hnone, hcurrent] using h
  · simp [hcurrent, hnone, hblocks, group, hopen, hclose, remarks]

theorem tells_plainInside {b : OpenBlock} (hcurrent : a.current = some b)
    (hopen : c.role? ≠ some .blockOpen) (hclose : c.role? ≠ some .blockClose) :
    a.Tells c (a.addPlain (c.within b.name)) := by
  intro issues cs h
  obtain ⟨-, -, hblocks, hsome⟩ := addPlain_inside (c.within b.name) hcurrent
  refine ⟨[], ?_, ?_⟩
  · simpa [Said, hsome, hcurrent] using h
  · simp [hcurrent, hsome, hblocks, group, hopen, hclose, OpenBlock.add]

theorem Adds.tells {a' : Assembly} (h : Adds a c a') : a.Tells c a' := by
  cases h with
  | opener hopen => exact tells_addOpener hopen
  | closerOutside hcurrent hclose => exact tells_closerOutside hcurrent hclose
  | plainOutside hcurrent hopen hclose => exact tells_plainOutside hcurrent hopen hclose
  | closerInside hcurrent hclose => exact tells_closerInside hcurrent hclose
  | plainInside hcurrent hopen hclose => exact tells_plainInside hcurrent hopen hclose

end Steps

/-- What is still to be said is said of the parts that the tokens make up. -/
theorem issues_foldl (dialect : Dialect) (tokens : List Token) {a : Assembly} {issues : List Issue}
    (h : a.Said issues) :
    (tokens.foldl (add dialect) a).finish.issues = issues ++
      remarks a.blocks (group a.current (Command.ofTokens dialect a.commands.length tokens)) := by
  induction tokens generalizing a issues with
  | nil =>
    unfold Said at h
    cases hcurrent : a.current with
    | none => simpa [hcurrent, finish, Command.ofTokens, group, remarks] using h
    | some b =>
      rw [hcurrent, Option.map_some, Option.getD_some] at h
      simp [hcurrent, finish, Command.ofTokens, group, OpenBlock.part, remarks, endIssue, unclosedIssue, h]
  | cons token tokens ih =>
    have hadds := adds_add dialect a token
    obtain ⟨more, hsaid, hrest⟩ := hadds.tells issues
      (Command.ofTokens dialect (a.commands.length + 1) tokens) h
    rw [List.foldl_cons, ih hsaid, hadds.length_commands, Command.ofTokens, hrest, List.append_assoc]

end Assembly

theorem issues_parse_parts (dialect : Dialect) (text : Text) :
    (parse dialect text).issues = remarks [] (parts dialect text) ++
      (Tokens.ofText dialect.isKeyword text).strays.map
        (strayIssue (parse dialect text).commands) := by
  have hsaid : Assembly.start.Said [] := rfl
  have hparts := Assembly.issues_foldl dialect (Tokens.ofText dialect.isKeyword text).tokens hsaid
  exact congrArg (· ++ _) hparts

theorem marks_inner {name : Text} {cs : List Command} (h : ∀ c ∈ cs, IsInner name c)
    (rest : List Command) : marks (cs ++ rest) = marks rest := by
  induction cs with
  | nil => rfl
  | cons c cs ih =>
    obtain ⟨hc, hcs⟩ := List.forall_mem_cons.1 h
    rw [List.cons_append, marks_plain _ hc.2.1 hc.2.2, ih hcs]

theorem marks_block {b : Block} (h : Filled b) (rest : List Command) :
    marks (b.commands ++ rest) =
      if b.closerIndex.isSome then .blockClose :: marks rest else marks rest := by
  cases h with
  | unclosed hbody => exact marks_inner hbody rest
  | closed hbody _ hclose =>
    rw [List.append_assoc, marks_inner hbody, List.singleton_append, marks_closer _ hclose]
    rfl

theorem count_marks (cs : List Command) :
    (marks cs).count .blockClose = cs.countP (·.hasRole .blockClose) := by
  induction cs with
  | nil => rfl
  | cons c cs ih =>
    rw [List.countP_cons, ← ih]
    by_cases hclose : c.role? = some .blockClose
    · simp [marks_closer cs hclose, Command.hasRole, hclose]
    · by_cases hopen : c.role? = some .blockOpen
      · simp [marks_opener cs hopen, Command.hasRole, hopen]
      · simp [marks_plain cs hopen hclose, Command.hasRole, hclose]

theorem openers_block {b : Block} (h : Filled b) :
    b.commands.filter (·.hasRole .blockOpen) = [] := by
  rw [List.filter_eq_nil_iff]
  intro c hc
  cases h with
  | unclosed hbody => simpa [Command.hasRole] using (hbody c hc).2.1
  | closed hbody _ hclose =>
    rcases List.mem_append.1 hc with hc | hc
    · simpa [Command.hasRole] using (hbody c hc).2.1
    · rw [List.mem_singleton.1 hc]
      simp [Command.hasRole, hclose]

def Part.Matched : Part → Prop
  | single c => c.role? ≠ some .blockClose
  | block _ b => b.closerIndex.isSome = true

theorem tally_unnamed {rule : Rule} (h : Rule.missingBlockName ≠ rule) (opener : Command) :
    tally rule (unnamedIssues opener) = 0 := by
  unfold unnamedIssues
  split <;> simp [h]

theorem tally_repeated {rule : Rule} (h : Rule.duplicateSubquery ≠ rule) (before : List Block)
    (name : Text) (opener : Command) : tally rule (repeatedIssues before name opener) = 0 := by
  unfold repeatedIssues
  split <;> simp [repeatedIssue, h]

/-- A block without a closer is reported once, for the opener behind it or for the end of the text. -/
theorem tally_endIssue (name : Text) (opener : Command) (ps : List Part) :
    tally .nestedBlock [endIssue name opener ps] + tally .unclosedBlock [endIssue name opener ps] = 1 ∧
      tally .unmatchedBlockClose [endIssue name opener ps] = 0 := by
  cases ps <;> simp [endIssue, unclosedIssue, nestedIssue]

theorem tally_block {rule : Rule} (hnamed : Rule.missingBlockName ≠ rule)
    (hrepeated : Rule.duplicateSubquery ≠ rule) (before : List Block) (opener : Command) (b : Block)
    (ps : List Part) : tally rule (remarks before (.block opener b :: ps)) =
      (if b.closerIndex.isNone then tally rule [endIssue b.name opener ps] else 0) +
        tally rule (remarks (before ++ [b]) ps) := by
  simp only [remarks, tally_append, tally_unnamed hnamed, tally_repeated hrepeated, Nat.zero_add,
    Nat.add_zero]
  split <;> rfl

theorem tally_single (rule : Rule) (before : List Block) (c : Command) (ps : List Part) :
    tally rule (remarks before (.single c :: ps)) =
      (if c.role? = some .blockClose ∧ Rule.unmatchedBlockClose = rule then 1 else 0) +
        tally rule (remarks before ps) := by
  rw [remarks, tally_append]
  by_cases hclose : c.role? = some .blockClose <;> simp [hclose, unmatchedIssue]

/-- Blocks without a closer are those that the next opener or the end of the text ends. -/
theorem unclosed_parts (before : List Block) (ps : List Part) :
    (ps.filterMap Part.block?).countP (·.closerIndex.isNone) =
      tally .nestedBlock (remarks before ps) + tally .unclosedBlock (remarks before ps) := by
  induction ps generalizing before with
  | nil => rfl
  | cons part ps ih =>
    cases part with
    | single c => simpa [Part.block?, List.filterMap_cons, tally_single] using ih before
    | block opener b =>
      have hend := (tally_endIssue b.name opener ps).1
      have hrest := ih (before ++ [b])
      simp only [List.filterMap_cons, Part.block?, List.countP_cons,
        @tally_block .nestedBlock (by decide) (by decide),
        @tally_block .unclosedBlock (by decide) (by decide)]
      split <;> omega

/-- A part with a loose end is reported for it. -/
theorem matched_iff_tally (before : List Block) (ps : List Part) :
    (tally .nestedBlock (remarks before ps) = 0 ∧ tally .unclosedBlock (remarks before ps) = 0 ∧
      tally .unmatchedBlockClose (remarks before ps) = 0) ↔ ∀ part ∈ ps, part.Matched := by
  induction ps generalizing before with
  | nil => simp [remarks]
  | cons part ps ih =>
    rw [List.forall_mem_cons]
    cases part with
    | single c =>
      rw [← ih before]
      by_cases hclose : c.role? = some .blockClose <;> simp [tally_single, Part.Matched, hclose]
    | block opener b =>
      rw [← ih (before ++ [b]), tally_block (by decide) (by decide), tally_block (by decide) (by decide),
        tally_block (by decide) (by decide)]
      have hend := tally_endIssue b.name opener ps
      cases hcloser : b.closerIndex with
      | some k => simp [Part.Matched, hcloser]
      | none =>
        simp only [Option.isNone_none, if_true, Part.Matched, hcloser, Option.isSome_none,
          Bool.false_eq_true, false_and, iff_false]
        omega

/-- Only the last block can be open at the end of the text. -/
theorem tally_unclosed_le (before : List Block) (ps : List Part) :
    tally .unclosedBlock (remarks before ps) ≤ 1 := by
  induction ps generalizing before with
  | nil => simp [remarks]
  | cons part ps ih =>
    cases part with
    | single c => simpa [tally_single] using ih before
    | block opener b =>
      rw [tally_block (by decide) (by decide)]
      cases ps with
      | nil =>
        simp only [endIssue, unclosedIssue, remarks]
        split <;> simp
      | cons next ps => simpa [endIssue, nestedIssue] using ih (before ++ [b])

section Parts
variable {ps : List Part} (hformed : ∀ part ∈ ps, part.Formed) (hplaced : ∀ part ∈ ps, part.Placed)
include hformed hplaced

theorem openers_parts : (ps.filterMap Part.block?).map Block.openerIndex =
    ((ps.flatMap Part.commands).filter (·.hasRole .blockOpen)).map Command.index := by
  induction ps with
  | nil => rfl
  | cons part ps ih =>
    obtain ⟨hpart, hps⟩ := List.forall_mem_cons.1 hformed
    obtain ⟨hown, hrest⟩ := List.forall_mem_cons.1 hplaced
    have hcons := ih hps hrest
    cases part with
    | single c =>
      have hplain : c.hasRole .blockOpen = false := decide_eq_false hpart
      simpa [List.filterMap_cons, Part.block?, Part.commands, hplain] using hcons
    | block opener b =>
      have hopen : opener.hasRole .blockOpen = true := decide_eq_true hpart.1
      simpa [Part.block?, Part.commands, hopen, openers_block hown.2, hpart.2] using hcons

theorem closers_parts (before : List Block) :
    (marks (ps.flatMap Part.commands)).count .blockClose =
      (ps.filterMap Part.block?).countP (·.closerIndex.isSome) +
        tally .unmatchedBlockClose (remarks before ps) := by
  induction ps generalizing before with
  | nil => rfl
  | cons part ps ih =>
    obtain ⟨hpart, hps⟩ := List.forall_mem_cons.1 hformed
    obtain ⟨hown, hrest⟩ := List.forall_mem_cons.1 hplaced
    rw [List.flatMap_cons]
    cases part with
    | single c =>
      have hcount := ih hps hrest before
      rw [tally_single, Part.commands, List.singleton_append]
      by_cases hclose : c.role? = some .blockClose
      · simp [List.filterMap_cons, Part.block?, marks_closer, hclose, hcount]
        omega
      · simp [List.filterMap_cons, Part.block?, marks_plain _ hpart hclose, hclose, hcount]
    | block opener b =>
      have hcount := ih hps hrest (before ++ [b])
      rw [tally_block (by decide) (by decide), (tally_endIssue b.name opener ps).2, Part.commands,
        List.cons_append, marks_opener _ hpart.1, marks_block hown.2]
      cases hcloser : b.closerIndex <;> simp [Part.block?, hcloser, hcount]
      omega

/-- Openers and closers take turns if no part has a loose end. -/
theorem alternate_parts
    (hchain : ps.IsChain fun part next => part.Unclosed → next.head.role? = some .blockOpen) :
    Alternate (marks (ps.flatMap Part.commands)) ↔ ∀ part ∈ ps, part.Matched := by
  induction ps with
  | nil => simp [marks, Alternate.nil]
  | cons part ps ih =>
    obtain ⟨hpart, hps⟩ := List.forall_mem_cons.1 hformed
    obtain ⟨hown, hrest⟩ := List.forall_mem_cons.1 hplaced
    obtain ⟨hnext, hchain⟩ := List.isChain_cons.1 hchain
    rw [List.forall_mem_cons, List.flatMap_cons, ← ih hps hrest hchain]
    cases part with
    | single c =>
      rw [Part.commands, List.singleton_append]
      by_cases hclose : c.role? = some .blockClose
      · simp [marks_closer, hclose, Alternate.not_closer, Part.Matched]
      · simp [marks_plain _ hpart hclose, Part.Matched, hclose]
    | block opener b =>
      rw [Part.commands, List.cons_append, marks_opener _ hpart.1, marks_block hown.2]
      cases hcloser : b.closerIndex with
      | some k => simp [Alternate.pair_iff, Part.Matched, hcloser]
      | none =>
        simp only [Option.isSome_none, Bool.false_eq_true, if_false, Part.Matched, hcloser, false_and,
          iff_false]
        cases ps with
        | nil => exact Alternate.not_opener
        | cons next ps =>
          have hopen := hnext next rfl ⟨b, rfl, hcloser⟩
          obtain ⟨rest, hcommands⟩ : ∃ rest, next.commands = next.head :: rest := by
            cases next <;> exact ⟨_, rfl⟩
          rw [List.flatMap_cons, hcommands, List.cons_append, marks_opener _ hopen]
          exact Alternate.not_nested _

end Parts

def repeatedBlocks (before : List Block) : List Block → List Block :=
  eachAfter (fun earlier b => if IsTaken earlier b.name then [b] else []) before

theorem repeated_parts (before : List Block) (ps : List Part) :
    List.Forall₂ (fun b i => ∃ opener, Part.block opener b ∈ ps ∧ i = repeatedIssue b.name opener)
      (repeatedBlocks before (ps.filterMap Part.block?))
      ((remarks before ps).filter fun i => i.code = Rule.code .duplicateSubquery) := by
  induction ps generalizing before with
  | nil => exact .nil
  | cons part ps ih =>
    have hrest : ∀ before, List.Forall₂
        (fun b i => ∃ opener, Part.block opener b ∈ part :: ps ∧ i = repeatedIssue b.name opener)
        (repeatedBlocks before (ps.filterMap Part.block?))
        ((remarks before ps).filter fun i => i.code = Rule.code .duplicateSubquery) := by
      intro before
      refine (ih before).imp ?_
      rintro b i ⟨opener, hmem, hi⟩
      exact ⟨opener, List.mem_cons_of_mem part hmem, hi⟩
    cases part with
    | single c =>
      have hnone : tally .duplicateSubquery
          (if c.role? = some .blockClose then [unmatchedIssue c] else []) = 0 := by
        split <;> simp [unmatchedIssue]
      rw [remarks, List.filter_append, filter_of_tally hnone]
      exact hrest before
    | block opener b =>
      have hend : tally .duplicateSubquery
          (if b.closerIndex.isNone then [endIssue b.name opener ps] else []) = 0 := by
        split
        · cases ps <;> simp [endIssue, unclosedIssue, nestedIssue]
        · rfl
      have hunnamed := @tally_unnamed .duplicateSubquery (by decide) opener
      simp only [remarks, List.filter_append, filter_of_tally hend, filter_of_tally hunnamed,
        List.nil_append, List.filterMap_cons, Part.block?, repeatedBlocks, eachAfter]
      refine List.rel_append ?_ (hrest _)
      unfold repeatedIssues
      split
      · refine .cons ⟨opener, List.mem_cons_self, rfl⟩ .nil
      · exact .nil

theorem keys_subqueries (d : Document) : Record.keys d.subqueries =
    ((d.blocks.map Block.name).filter (· ≠ [])).eraseDups := by
  have hnames : ∀ blocks : List Block,
      (((blocks.filter fun b => !b.name.isEmpty).map fun b => (b.name, b)).map Prod.fst) =
        (blocks.map Block.name).filter (· ≠ []) := by
    intro blocks
    rw [List.map_map, List.filter_map]
    congr 1
    refine List.filter_congr fun b _ => ?_
    cases hname : b.name <;> simp [hname]
  rw [subqueries, Record.keys_ofPairs, hnames]

theorem get?_subqueries (d : Document) {name : Text} (h : name ≠ []) :
    Record.get? d.subqueries name = (d.blocks.filter fun b => b.name = name).getLast? := by
  have hsame : (d.blocks.filter fun b => !b.name.isEmpty).filter (fun b => b.name = name) =
      d.blocks.filter fun b => b.name = name := by
    rw [List.filter_filter]
    refine List.filter_congr fun b _ => ?_
    by_cases hname : b.name = name
    · simpa [hname] using h
    · simp [hname]
  rw [subqueries, Record.get?_ofPairs, List.filter_map, List.getLast?_map, Option.map_map, ← hsame]
  exact congrFun Option.map_id _

/-- How blocks, openers, closers and what is said of them add up. -/
structure Balanced (d : Document) : Prop where
  opened : d.blocks.map Block.openerIndex =
    (d.commands.filter (·.hasRole .blockOpen)).map Command.index
  closers : d.commands.countP (·.hasRole .blockClose) =
    d.blocks.countP (·.closerIndex.isSome) + tally .unmatchedBlockClose d.issues
  unclosed : d.blocks.countP (·.closerIndex.isNone) =
    tally .nestedBlock d.issues + tally .unclosedBlock d.issues
  once : tally .unclosedBlock d.issues ≤ 1
  alternate : (∀ rule ∈ [Rule.nestedBlock, .unclosedBlock, .unmatchedBlockClose],
    tally rule d.issues = 0) ↔ Alternate (marks d.commands)
  names : Record.keys d.subqueries = ((d.blocks.map Block.name).filter (· ≠ [])).eraseDups
  latest : ∀ name ≠ [],
    Record.get? d.subqueries name = (d.blocks.filter fun b => b.name = name).getLast?
  repeated : List.Forall₂ (fun b i => ∃ opener ∈ d.root, opener.index = b.openerIndex ∧
      i = repeatedIssue b.name opener)
    (repeatedBlocks [] d.blocks) (d.issues.filter fun i => i.code = Rule.code .duplicateSubquery)

theorem tally_strays {rule : Rule} (h : Rule.strayText ≠ rule) (commands : List Command)
    (strays : List Stray) : tally rule (strays.map (strayIssue commands)) = 0 := by
  refine tally_eq_zero.2 fun i hi => ?_
  obtain ⟨stray, -, rfl⟩ := List.mem_map.1 hi
  exact Rule.code_inj.not.2 h

/-- What a document says by a rule about blocks is said of its parts. -/
theorem tally_issues_parse {rule : Rule} (h : Rule.strayText ≠ rule) (dialect : Dialect) (text : Text) :
    tally rule (parse dialect text).issues = tally rule (remarks [] (parts dialect text)) := by
  rw [issues_parse_parts, tally_append, tally_strays h, Nat.add_zero]

/-- The blocks of a document and what is said of them add up, whatever the order of openers and
closers. -/
theorem balanced_parse (dialect : Dialect) (text : Text) : (parse dialect text).Balanced := by
  have hformed := formed_parts dialect text
  have hplaced := placed_parts dialect text
  have hcommands := commands_parse dialect text
  have hblocks := blocks_parse dialect text
  have htally := fun {rule : Rule} (h : Rule.strayText ≠ rule) => tally_issues_parse h dialect text
  exact {
    opened := by
      rw [hcommands, hblocks]
      exact openers_parts hformed hplaced
    closers := by
      rw [hcommands, hblocks, htally (by decide)]
      rw [← count_marks]
      exact closers_parts hformed hplaced []
    unclosed := by
      rw [hblocks, htally (by decide), htally (by decide)]
      exact unclosed_parts [] _
    once := by
      rw [htally (by decide)]
      exact tally_unclosed_le [] _
    alternate := by
      simp only [List.forall_mem_cons, List.not_mem_nil, false_imp_iff, implies_true, and_true]
      rw [htally (by decide), htally (by decide), htally (by decide), matched_iff_tally, hcommands]
      exact (alternate_parts hformed hplaced (chain_group none _)).symm
    names := keys_subqueries _
    latest := fun name hname => get?_subqueries _ hname
    repeated := by
      have hparts := repeated_parts [] (parts dialect text)
      have hstrays := @tally_strays .duplicateSubquery (by decide)
        (parse dialect text).commands (Tokens.ofText dialect.isKeyword text).strays
      rw [issues_parse_parts, List.filter_append, filter_of_tally hstrays, List.append_nil, hblocks]
      refine hparts.imp ?_
      rintro b i ⟨opener, hmem, hi⟩
      refine ⟨opener, ?_, ((hformed _ hmem).2).symm, hi⟩
      rw [root_parse]
      exact List.mem_map.2 ⟨_, hmem, rfl⟩ }

end Document
end QueryLint
