import Mathlib.Data.List.Nodup
import QueryLint.Dialect.Builtin
import QueryLint.Proofs.Scopes
import QueryLint.Rules.Ordering

/-!
What the ordering rules report.

The record that a walk keeps is determined by the commands behind it, so what is reported at a
command depends on the commands of its scope alone. The walk of the top level is a walk over the
parts of the document: it takes the head of each and enters the block behind it.
-/

namespace QueryLint
set_option autoImplicit false

namespace Rule

def all : List Rule :=
  [strayText, duplicateSubquery, nestedBlock, missingBlockName, unmatchedBlockClose, unclosedBlock,
    emptyQuery, unbalancedDelimiters, payloadParseError, missingPayload, unexpectedPayload,
    payloadKindMismatch, forbiddenParameter, unknownCommand, loaderWithoutSource,
    aggregateWithoutGrouping, boundWithoutOrder, redundantProjection, undefinedSubquery, missingLoader,
    unknownField, categoryParameter, categoryMetadataUnavailable, lateFilter, wildcardProjection,
    excessiveGranularity, combineAggregations, unboundedResult, unquotedKey, trailingSeparator]

theorem mem_all (rule : Rule) : rule ∈ all := by
  cases rule <;> decide

theorem nodup_code : (all.map code).Nodup := by
  decide +kernel

@[simp] theorem code_inj {r r' : Rule} : r.code = r'.code ↔ r = r' :=
  ⟨List.inj_on_of_nodup_map nodup_code (mem_all r) (mem_all r'), congrArg code⟩

end Rule

def Issue.At (i : Issue) (c : Command) : Prop :=
  i.commandIndex = c.index ∧ i.line = c.line ∧ i.scope = c.scope

@[simp] theorem Issue.at_ofCommand (c : Command) (rule : Rule) (message : Text)
    (suggestion : Option Text) : (Issue.ofCommand c rule message suggestion).At c :=
  ⟨rfl, rfl, rfl⟩

/-- A command that is known and neither opens nor closes a block. -/
def Command.isContent (c : Command) : Bool :=
  c.spec.isSome && !c.hasRole .blockOpen && !c.hasRole .blockClose

namespace Rules.Ordering
open Document

/-- How often a rule is reported at a command. -/
def reported (rule : Rule) (c : Command) (issues : List Issue) : Nat :=
  issues.countP fun i => i.code = rule.code && i.commandIndex = (c.index : Int)

theorem reported_append (rule : Rule) (c : Command) (xs ys : List Issue) :
    reported rule c (xs ++ ys) = reported rule c xs + reported rule c ys :=
  List.countP_append

@[simp] theorem reported_nil (rule : Rule) (c : Command) : reported rule c [] = 0 := rfl

theorem reported_singleton (rule rule' : Rule) (c c' : Command) (message : Text) (suggestion : Option Text) :
    reported rule c [.ofCommand c' rule' message suggestion] =
      if rule' = rule ∧ c'.index = c.index then 1 else 0 := by
  have hindex : ((c'.index : Int) = c.index) = (c'.index = c.index) := propext Int.ofNat_inj
  simp only [reported, Issue.ofCommand, List.countP_singleton, Bool.and_eq_true, decide_eq_true_eq, hindex,
    Rule.code_inj]

@[simp] theorem reported_ofCommand (rule rule' : Rule) (c : Command) (message : Text)
    (suggestion : Option Text) :
    reported rule c [.ofCommand c rule' message suggestion] = if rule' = rule then 1 else 0 := by
  rw [reported_singleton]
  simp only [and_true]

/-- Nothing is reported at a command by issues that lie elsewhere. -/
theorem reported_elsewhere {rule : Rule} {c : Command} {issues : List Issue} (cs : List Command)
    (hat : ∀ i ∈ issues, ∃ c' ∈ cs, i.At c') (hc : ∀ c' ∈ cs, c'.index ≠ c.index) :
    reported rule c issues = 0 := by
  refine List.countP_eq_zero.2 fun i hi => ?_
  obtain ⟨c', hc', hindex, -, -⟩ := hat i hi
  have hne : i.commandIndex ≠ c.index := by
    rw [hindex]
    exact mod_cast hc c' hc'
  simp [hne]

def Progress.lacks (p : Progress) (c : Command) : Rule → Bool
  | .loaderWithoutSource => c.hasRole .loader && !p.source
  | .aggregateWithoutGrouping => c.hasRole .aggregate && !p.grouped
  | .boundWithoutOrder => c.hasRole .bound && !(p.ordered || p.bounded)
  | .redundantProjection => c.hasRole .projection && p.projected
  | .unknownCommand => c.spec.isNone
  | _ => false

def orderRules : List Rule :=
  [.loaderWithoutSource, .aggregateWithoutGrouping, .boundWithoutOrder, .redundantProjection,
    .unknownCommand, .missingLoader]

theorem reported_forbidden {rule : Rule} (hne : ¬Rule.forbiddenParameter = rule) (c : Command)
    (spec : Spec) : reported rule c (forbiddenIssues c spec) = 0 := by
  refine List.countP_eq_zero.2 fun i hi => ?_
  obtain ⟨key, -, hkey⟩ := List.mem_filterMap.1 hi
  split at hkey
  · cases hkey
    simp [Issue.ofCommand, hne]
  · cases hkey

theorem reported_reference {rule : Rule} (hrule : rule ∈ orderRules) (c : Command)
    (visible : List Text) : reported rule c (referenceIssues visible c) = 0 := by
  have hne : ¬Rule.undefinedSubquery = rule := by
    rintro rfl
    simp [orderRules] at hrule
  unfold referenceIssues
  split
  · rfl
  · dsimp only
    split
    · simp [hne]
    · split <;> simp [hne]

theorem reported_role (p : Progress) (c : Command) {spec : Spec} (hspec : c.spec = some spec)
    {rule : Rule} (hrule : rule ∈ orderRules) :
    reported rule c (roleIssues p c spec.role) = if p.lacks c rule then 1 else 0 := by
  have hhas : ∀ role, c.hasRole role = decide (spec.role = role) := by
    simp [Command.hasRole, Command.role?, hspec]
  have hreference := reported_reference hrule c p.visible
  simp only [orderRules, List.mem_cons, List.not_mem_nil, or_false] at hrule
  cases hrole : spec.role with
  | loader =>
    cases hsource : p.source <;> rcases hrule with rfl | rfl | rfl | rfl | rfl | rfl <;>
      simp [roleIssues, Progress.lacks, hhas, hrole, hspec, hsource]
  | aggregate =>
    cases hgrouped : p.grouped <;> rcases hrule with rfl | rfl | rfl | rfl | rfl | rfl <;>
      simp [roleIssues, Progress.lacks, hhas, hrole, hspec, hgrouped]
  | bound =>
    cases hordered : p.ordered <;> cases hbounded : p.bounded <;>
      rcases hrule with rfl | rfl | rfl | rfl | rfl | rfl <;>
      simp [roleIssues, Progress.lacks, hhas, hrole, hspec, hordered, hbounded]
  | projection =>
    cases hprojected : p.projected <;> rcases hrule with rfl | rfl | rfl | rfl | rfl | rfl <;>
      simp [roleIssues, Progress.lacks, hhas, hrole, hspec, hprojected]
  | _ =>
    rcases hrule with rfl | rfl | rfl | rfl | rfl | rfl <;>
      simp [roleIssues, Progress.lacks, hhas, hrole, hspec, hreference]

theorem reported_visit (dialect : Dialect) (p : Progress) (c : Command) {rule : Rule}
    (hrule : rule ∈ orderRules) :
    reported rule c (visit dialect p c).2 = if p.lacks c rule then 1 else 0 := by
  unfold visit
  cases hspec : c.spec with
  | none =>
    simp only [unknownCommand, reported_ofCommand]
    cases rule <;> simp_all [Progress.lacks, Command.hasRole, Command.role?, orderRules]
  | some spec =>
    have hne : ¬Rule.forbiddenParameter = rule := by
      rintro rfl
      simp [orderRules] at hrule
    simp only [reported_append, reported_forbidden hne, Nat.zero_add, reported_role p c hspec hrule]

theorem forbidden_at (c : Command) (spec : Spec) : ∀ i ∈ forbiddenIssues c spec, i.At c := by
  intro i hi
  obtain ⟨key, -, hkey⟩ := List.mem_filterMap.1 hi
  split at hkey
  · cases hkey
    exact Issue.at_ofCommand ..
  · cases hkey

theorem reference_at (visible : List Text) (c : Command) :
    ∀ i ∈ referenceIssues visible c, i.At c := by
  unfold referenceIssues
  split
  · simp
  · dsimp only
    split
    · simp
    · split <;> simp

theorem role_at (p : Progress) (c : Command) (role : Role) : ∀ i ∈ roleIssues p c role, i.At c := by
  cases role with
  | loader | aggregate | bound | projection =>
    simp only [roleIssues]
    split <;> simp
  | subqueryRef => exact reference_at p.visible c
  | _ => simp [roleIssues]

theorem visit_at (dialect : Dialect) (p : Progress) (c : Command) :
    ∀ i ∈ (visit dialect p c).2, i.At c := by
  unfold visit
  cases c.spec with
  | none => simp [unknownCommand]
  | some spec =>
    intro i hi
    rcases List.mem_append.1 hi with hi | hi
    · exact forbidden_at c spec i hi
    · exact role_at p c spec.role i hi

namespace Progress

/-- The record after all of some commands; what they are is all that matters. -/
def through (p : Progress) (cs : List Command) : Progress where
  source := p.source || cs.any (·.hasRole .source)
  grouped := p.grouped || cs.any (·.hasRole .group)
  ordered := p.ordered || cs.any (·.hasRole .order)
  bounded := p.bounded || cs.any (·.hasRole .bound)
  projected := p.projected || cs.any (·.hasRole .projection)
  fed := p.fed || cs.any (·.suppliesData)
  first := p.first.or (cs.find? (·.isContent))
  visible := p.visible

@[simp] theorem through_nil (p : Progress) : p.through [] = p := by
  simp [through]

theorem through_append (p : Progress) (xs ys : List Command) :
    p.through (xs ++ ys) = (p.through xs).through ys := by
  simp [through, Bool.or_assoc, List.find?_append, Option.or_assoc]

end Progress

theorem visit_progress (dialect : Dialect) (p : Progress) (c : Command) :
    (visit dialect p c).1 = p.through [c] := by
  unfold visit
  cases hspec : c.spec with
  | none =>
    simp [Progress.through, Command.hasRole, Command.role?, Command.suppliesData, Command.isContent,
      hspec]
  | some spec =>
    cases hfirst : p.first <;>
      simp [Progress.pass, Progress.through, Command.hasRole, Command.role?, Command.suppliesData,
        Command.isContent, List.find?_cons, hspec, hfirst]
    cases spec.role <;> rfl

theorem walk_progress (dialect : Dialect) (p : Progress) (cs : List Command) :
    (walk dialect p cs).1 = p.through cs := by
  induction cs generalizing p with
  | nil => simp [walk]
  | cons c cs ih =>
    simp only [walk, ih, visit_progress]
    exact (p.through_append [c] cs).symm

theorem walk_append (dialect : Dialect) (p : Progress) (xs ys : List Command) :
    (walk dialect p (xs ++ ys)).2 =
      (walk dialect p xs).2 ++ (walk dialect (p.through xs) ys).2 := by
  induction xs generalizing p with
  | nil => simp [walk]
  | cons x xs ih =>
    simp only [List.cons_append, walk, ih, visit_progress, List.append_assoc]
    rw [← Progress.through_append]
    rfl

theorem walk_at (dialect : Dialect) (p : Progress) (cs : List Command) :
    ∀ i ∈ (walk dialect p cs).2, ∃ c ∈ cs, i.At c := by
  induction cs generalizing p with
  | nil => simp [walk]
  | cons c cs ih =>
    intro i hi
    simp only [walk, List.mem_append] at hi
    rcases hi with hi | hi
    · exact ⟨c, by simp, visit_at dialect p c i hi⟩
    · obtain ⟨c', hc', hat⟩ := ih _ i hi
      exact ⟨c', by simp [hc'], hat⟩

theorem reported_walk_visit (dialect : Dialect) (p : Progress) {before after : List Command}
    {c : Command} (hnodup : ((before ++ c :: after).map Command.index).Nodup) (rule : Rule) :
    reported rule c (walk dialect p (before ++ c :: after)).2 =
      reported rule c (visit dialect (p.through before) c).2 := by
  simp only [List.map_append, List.map_cons, List.nodup_append, List.nodup_cons] at hnodup
  obtain ⟨-, ⟨hafter, -⟩, hbefore⟩ := hnodup
  have hfront : reported rule c (walk dialect p before).2 = 0 :=
    reported_elsewhere before (walk_at dialect p before) fun c' hc' =>
      hbefore c'.index (List.mem_map_of_mem hc') c.index (by simp)
  have hback : reported rule c (walk dialect ((p.through before).through [c]) after).2 = 0 :=
    reported_elsewhere after (walk_at dialect _ after) fun c' hc' heq =>
      hafter (heq ▸ List.mem_map_of_mem hc')
  rw [walk_append, reported_append, hfront, walk]
  simp only [visit_progress, reported_append, hback]
  omega

theorem reported_walk (dialect : Dialect) (p : Progress) {before after : List Command} {c : Command}
    (hnodup : ((before ++ c :: after).map Command.index).Nodup) {rule : Rule}
    (hrule : rule ∈ orderRules) :
    reported rule c (walk dialect p (before ++ c :: after)).2 =
      if (p.through before).lacks c rule then 1 else 0 := by
  rw [reported_walk_visit dialect p hnodup, reported_visit dialect _ c hrule]

theorem missingLoader_at (dialect : Dialect) (name : Option Text) (p : Progress) :
    ∀ i ∈ missingLoader dialect name p, ∃ c, p.first = some c ∧ i.At c := by
  intro i hi
  unfold missingLoader at hi
  cases hfirst : p.first with
  | none => simp [hfirst] at hi
  | some first =>
    simp only [hfirst] at hi
    split at hi
    · cases hi
    · rw [List.mem_singleton] at hi
      subst hi
      exact ⟨first, rfl, rfl, rfl, rfl⟩

theorem find_content {before after : List Command} {c first : Command}
    (hnodup : ((before ++ c :: after).map Command.index).Nodup)
    (hfirst : (before ++ c :: after).find? (·.isContent) = some first) :
    first.index = c.index ↔ c.isContent ∧ ∀ b ∈ before, ¬b.isContent := by
  simp only [List.map_append, List.map_cons, List.nodup_append, List.nodup_cons] at hnodup
  obtain ⟨-, ⟨hafter, -⟩, hbefore⟩ := hnodup
  rw [List.find?_append] at hfirst
  cases hfront : before.find? (·.isContent) with
  | some x =>
    rw [hfront, Option.some_or] at hfirst
    cases hfirst
    have hmem := List.mem_of_find?_eq_some hfront
    have hx := List.find?_some hfront
    constructor
    · intro heq
      exact absurd heq (hbefore first.index (List.mem_map_of_mem hmem) c.index (by simp))
    · rintro ⟨-, hnone⟩
      exact absurd hx (hnone first hmem)
  | none =>
    rw [hfront, Option.none_or, List.find?_cons] at hfirst
    rw [List.find?_eq_none] at hfront
    split at hfirst
    · cases hfirst
      exact ⟨fun _ => ⟨‹_›, hfront⟩, fun _ => rfl⟩
    · rename_i hc
      constructor
      · intro heq
        exact absurd (heq ▸ List.mem_map_of_mem (List.mem_of_find?_eq_some hfirst)) hafter
      · rintro ⟨hcontent, -⟩
        simp [hcontent] at hc

theorem reported_missingLoader (dialect : Dialect) (name : Option Text) {p : Progress}
    {before after : List Command} {c : Command}
    (hnodup : ((before ++ c :: after).map Command.index).Nodup)
    (hfirst : p.first = (before ++ c :: after).find? (·.isContent)) {rule : Rule} :
    reported rule c (missingLoader dialect name p) =
      if Rule.missingLoader = rule ∧ p.fed = false ∧ c.isContent ∧ ∀ b ∈ before, ¬b.isContent
        then 1 else 0 := by
  unfold missingLoader
  cases hfound : p.first with
  | none =>
    rw [hfound, eq_comm, List.find?_eq_none] at hfirst
    have hc := hfirst c (by simp)
    simp [hc]
  | some first =>
    rw [hfound] at hfirst
    have hiff := find_content hnodup hfirst.symm
    cases hfed : p.fed with
    | true => simp
    | false => simp only [Bool.false_eq_true, if_false, true_and, ← hiff, reported_singleton]

def enterPart (dialect : Dialect) (p : Progress) : Part → Progress × List Issue
  | .single _ => (p, [])
  | .block _ b =>
    ({ p with visible := if b.name.isEmpty then p.visible else p.visible ++ [b.name] },
      blockIssues dialect p.visible b)

def walkParts (dialect : Dialect) (p : Progress) : List Part → Progress × List Issue
  | [] => (p, [])
  | part :: parts =>
    let (p, found) := visit dialect p part.head
    let (p, inner) := enterPart dialect p part
    let (p, more) := walkParts dialect p parts
    (p, found ++ inner ++ more)

theorem enter_part (dialect : Dialect) {blocks : List Block} (p : Progress) {part : Part}
    (hformed : part.Formed)
    (hfind : part.head.role? = some .blockOpen →
      blocks.find? (fun b => b.openerIndex = part.head.index) = part.block?) :
    enter dialect blocks p part.head = enterPart dialect p part := by
  cases part with
  | single c =>
    have hplain : c.hasRole .blockOpen = false := decide_eq_false hformed
    simp [enter, enterPart, Part.head, hplain]
  | block opener b =>
    have hopen : opener.hasRole .blockOpen = true := decide_eq_true hformed.1
    have hblock := hfind hformed.1
    simp only [Part.head, Part.block?] at hblock
    simp [enter, enterPart, Part.head, hopen, hblock]

theorem walkRoot_heads (dialect : Dialect) (blocks : List Block) (p : Progress) {ps : List Part}
    (hformed : ∀ part ∈ ps, part.Formed)
    (hfind : ∀ part ∈ ps, part.head.role? = some .blockOpen →
      blocks.find? (fun b => b.openerIndex = part.head.index) = part.block?) :
    walkRoot dialect blocks p (ps.map Part.head) = walkParts dialect p ps := by
  induction ps generalizing p with
  | nil => rfl
  | cons part ps ih =>
    have hrest := fun p => ih p (fun part' h => hformed part' (by simp [h]))
      (fun part' h => hfind part' (by simp [h]))
    have hone := fun p => enter_part dialect p (hformed part (by simp)) (hfind part (by simp))
    simp only [List.map_cons, walkRoot, walkParts, hrest, hone]

/-- The ordering rules walk the parts of the document. -/
theorem issues_parse (dialect : Dialect) (text : Text) :
    issues (parse dialect text) =
      (walkParts dialect (.start []) (parts dialect text)).2 ++
        if (parse dialect text).blocks.isEmpty then
          missingLoader dialect none (walkParts dialect (.start []) (parts dialect text)).1
        else [] := by
  have hwalk := walkRoot_heads dialect (parse dialect text).blocks (.start [])
    (formed_parts dialect text) fun part hpart hopen => by
      rw [blocks_parse]
      exact find_block (formed_parts dialect text) (nodup_index_commands dialect text) hpart hopen
  have hdialect : (parse dialect text).dialect = dialect := rfl
  simp only [issues, root_parse, hdialect, hwalk]

def visibleNames (ps : List Part) : List Text :=
  ((ps.filterMap Part.block?).map (·.name)).filter (!·.isEmpty)

def Progress.throughParts (p : Progress) (ps : List Part) : Progress :=
  { p.through (ps.map Part.head) with visible := p.visible ++ visibleNames ps }

theorem enterPart_progress (dialect : Dialect) (p : Progress) (part : Part) :
    (enterPart dialect (p.through [part.head]) part).1 = p.throughParts [part] := by
  cases part with
  | single c => simp [enterPart, Progress.throughParts, visibleNames, Part.block?, Progress.through]
  | block opener b =>
    cases hname : b.name <;>
      simp [enterPart, Progress.throughParts, visibleNames, Part.block?, Progress.through, hname]

theorem throughParts_append (p : Progress) (xs ys : List Part) :
    p.throughParts (xs ++ ys) = (p.throughParts xs).throughParts ys := by
  simp [Progress.throughParts, visibleNames, Progress.through, Bool.or_assoc, List.find?_append,
    Option.or_assoc]

theorem walkParts_progress (dialect : Dialect) (p : Progress) (ps : List Part) :
    (walkParts dialect p ps).1 = p.throughParts ps := by
  induction ps generalizing p with
  | nil => simp [walkParts, Progress.throughParts, visibleNames, Progress.through]
  | cons part ps ih =>
    simp only [walkParts, ih, visit_progress, enterPart_progress]
    exact (throughParts_append p [part] ps).symm

theorem walkParts_append (dialect : Dialect) (p : Progress) (xs ys : List Part) :
    (walkParts dialect p (xs ++ ys)).2 =
      (walkParts dialect p xs).2 ++ (walkParts dialect (p.throughParts xs) ys).2 := by
  induction xs generalizing p with
  | nil => simp [walkParts, Progress.throughParts, visibleNames, Progress.through]
  | cons x xs ih =>
    simp only [List.cons_append, walkParts, ih, visit_progress, enterPart_progress, List.append_assoc]
    rw [← throughParts_append]
    rfl

theorem blockIssues_at (dialect : Dialect) (visible : List Text) (b : Block) :
    ∀ i ∈ blockIssues dialect visible b, ∃ c ∈ b.commands, i.At c := by
  intro i hi
  simp only [blockIssues, List.mem_append] at hi
  rcases hi with hi | hi
  · exact walk_at dialect _ b.commands i hi
  · obtain ⟨c, hfirst, hat⟩ := missingLoader_at dialect _ _ i hi
    rw [walk_progress] at hfirst
    exact ⟨c, List.mem_of_find?_eq_some (by simpa [Progress.through, Progress.start] using hfirst), hat⟩

theorem enterPart_at (dialect : Dialect) (p : Progress) (part : Part) :
    ∀ i ∈ (enterPart dialect p part).2, ∃ b ∈ part.block?, ∃ c ∈ b.commands, i.At c := by
  cases part with
  | single c => simp [enterPart]
  | block opener b =>
    intro i hi
    exact ⟨b, rfl, blockIssues_at dialect p.visible b i hi⟩

theorem walkParts_at (dialect : Dialect) (p : Progress) (ps : List Part) :
    ∀ i ∈ (walkParts dialect p ps).2, ∃ c ∈ ps.flatMap Part.commands, i.At c := by
  induction ps generalizing p with
  | nil => simp [walkParts]
  | cons part ps ih =>
    intro i hi
    simp only [walkParts, List.mem_append] at hi
    rcases hi with (hi | hi) | hi
    · exact ⟨part.head, by simp [part.head_mem_commands], visit_at dialect p part.head i hi⟩
    · obtain ⟨b, hb, c, hc, hat⟩ := enterPart_at dialect _ part i hi
      cases part with
      | single c' => cases hb
      | block opener b' =>
        cases hb
        exact ⟨c, by simp [Part.commands, hc], hat⟩
    · obtain ⟨c, hc, hat⟩ := ih _ i hi
      exact ⟨c, by simp only [List.flatMap_cons, List.mem_append, hc, or_true], hat⟩

section Located
variable (dialect : Dialect) (p : Progress) {front back : List Part} {part : Part}
variable (hnodup : (((front ++ part :: back).flatMap Part.commands).map Command.index).Nodup)
include hnodup

theorem reported_around {c : Command} (hc : c ∈ part.commands) (rule : Rule) (p' : Progress) :
    reported rule c (walkParts dialect p front).2 = 0 ∧
      reported rule c (walkParts dialect p' back).2 = 0 := by
  simp only [List.flatMap_append, List.flatMap_cons, List.map_append, List.nodup_append] at hnodup
  obtain ⟨-, ⟨-, -, hback⟩, hfront⟩ := hnodup
  constructor
  · refine reported_elsewhere _ (walkParts_at dialect p front) fun c' hc' => ?_
    exact hfront c'.index (List.mem_map_of_mem hc') c.index
      (List.mem_append_left _ (List.mem_map_of_mem hc))
  · refine reported_elsewhere _ (walkParts_at dialect p' back) fun c' hc' => ?_
    exact (hback c.index (List.mem_map_of_mem hc) c'.index (List.mem_map_of_mem hc')).symm

theorem reported_head_visit (rule : Rule) :
    reported rule part.head (walkParts dialect p (front ++ part :: back)).2 =
      reported rule part.head (visit dialect (p.throughParts front) part.head).2 := by
  have hinner : ∀ p', reported rule part.head (enterPart dialect p' part).2 = 0 := by
    intro p'
    refine reported_elsewhere ((part.block?.map (·.commands)).getD []) ?_ ?_
    · intro i hi
      obtain ⟨b, hb, c, hc, hat⟩ := enterPart_at dialect p' part i hi
      exact ⟨c, by simpa [Option.mem_def.1 hb] using hc, hat⟩
    · simp only [List.flatMap_append, List.flatMap_cons, List.map_append, List.nodup_append] at hnodup
      cases part with
      | single c => simp [Part.block?]
      | block opener b =>
        intro c' hc' heq
        have hown := hnodup.2.1.1
        simp only [Part.commands, List.map_cons, List.nodup_cons] at hown
        exact hown.1 (heq ▸ List.mem_map_of_mem hc')
  have haround := reported_around dialect p hnodup part.head_mem_commands rule
  rw [walkParts_append, reported_append, (haround p).1, walkParts]
  simp only [reported_append, hinner, (haround _).2]
  omega

theorem reported_head {rule : Rule} (hrule : rule ∈ orderRules) :
    reported rule part.head (walkParts dialect p (front ++ part :: back)).2 =
      if (p.through (front.map Part.head)).lacks part.head rule then 1 else 0 := by
  have hlacks : ((p.throughParts front).lacks part.head rule) =
      (p.through (front.map Part.head)).lacks part.head rule := by
    cases rule <;> rfl
  rw [reported_head_visit dialect p hnodup, reported_visit dialect _ _ hrule, hlacks]

theorem reported_body {b : Block} (hb : part.block? = some b) {c : Command} (hc : c ∈ b.commands)
    (rule : Rule) :
    reported rule c (walkParts dialect p (front ++ part :: back)).2 =
      reported rule c (blockIssues dialect (p.throughParts front).visible b) := by
  have haround := fun p' => reported_around dialect p hnodup (c := c) (by
    cases part with
    | single c' => cases hb
    | block opener b' =>
      cases hb
      simp [Part.commands, hc]) rule p'
  cases part with
  | single c' => cases hb
  | block opener b' =>
    cases hb
    have hvisit : reported rule c (visit dialect (p.throughParts front) opener).2 = 0 := by
      refine reported_elsewhere [opener]
        (fun i hi => ⟨opener, by simp, visit_at dialect _ opener i hi⟩) ?_
      simp only [List.flatMap_append, List.flatMap_cons, List.map_append, List.nodup_append] at hnodup
      have hown := hnodup.2.1.1
      simp only [Part.commands, List.map_cons, List.nodup_cons] at hown
      intro c' hc' heq
      rw [List.mem_singleton] at hc'
      subst hc'
      exact hown.1 (heq ▸ List.mem_map_of_mem hc)
    rw [walkParts_append, reported_append, (haround p).1, walkParts]
    simp only [reported_append, Part.head, hvisit, (haround _).2, visit_progress, enterPart]
    simp [Progress.through]

end Located

/-- Whether a rule is broken at a command of a scope that stands behind the commands `before`. -/
def Breaks (d : Document) (s : Scope) (before : List Command) (c : Command) : Rule → Prop
  | .loaderWithoutSource => c.hasRole .loader ∧ ¬∃ b ∈ before, b.hasRole .source
  | .aggregateWithoutGrouping => c.hasRole .aggregate ∧ ¬∃ b ∈ before, b.hasRole .group
  | .boundWithoutOrder =>
    c.hasRole .bound ∧ ¬∃ b ∈ before, b.hasRole .order ∨ b.hasRole .bound
  | .redundantProjection => c.hasRole .projection ∧ ∃ b ∈ before, b.hasRole .projection
  | .unknownCommand => c.spec = none
  | .missingLoader =>
    (c.isContent ∧ ¬∃ b ∈ before, b.isContent) ∧ (¬∃ b ∈ s.commands, b.suppliesData) ∧
      ¬(s.name = none ∧ d.blocks ≠ [])
  | _ => False

theorem lacks_iff_breaks (d : Document) (s : Scope) (visible : List Text) (before : List Command)
    (c : Command) {rule : Rule} (hrule : rule ∈ orderRules) (hother : Rule.missingLoader ≠ rule) :
    ((Progress.start visible).through before).lacks c rule = true ↔ Breaks d s before c rule := by
  simp only [orderRules, List.mem_cons, List.not_mem_nil, or_false] at hrule
  rcases hrule with rfl | rfl | rfl | rfl | rfl | rfl
  · simp [Progress.lacks, Progress.through, Progress.start, Breaks]
  · simp [Progress.lacks, Progress.through, Progress.start, Breaks]
  · simp [Progress.lacks, Progress.through, Progress.start, Breaks, forall_and]
  · simp [Progress.lacks, Progress.through, Progress.start, Breaks]
  · simp [Progress.lacks, Breaks]
  · exact absurd rfl hother

/-- What is reported at a command of a scope, given what its walk and the check behind it report. -/
theorem reported_of_walk {d : Document} {s : Scope} (visible : List Text) {before : List Command}
    {c : Command} {rule : Rule} (hrule : rule ∈ orderRules) (unfed : Prop) [Decidable unfed]
    (hunfed : unfed ↔ Breaks d s before c .missingLoader) {n : Nat}
    (hn : n = (if ((Progress.start visible).through before).lacks c rule then 1 else 0) +
      if Rule.missingLoader = rule ∧ unfed then 1 else 0) :
    (Breaks d s before c rule → n = 1) ∧ (¬Breaks d s before c rule → n = 0) := by
  by_cases hkind : Rule.missingLoader = rule
  · subst hkind
    simp only [Progress.lacks, Bool.false_eq_true, if_false, Nat.zero_add] at hn
    constructor
    · intro h
      rw [hn, if_pos ⟨trivial, hunfed.2 h⟩]
    · intro h
      rw [hn, if_neg fun hu => h (hunfed.1 hu.2)]
  · have hiff := lacks_iff_breaks d s visible before c hrule hkind
    simp only [hkind, false_and, if_false, Nat.add_zero] at hn
    constructor
    · intro h
      rw [hn, if_pos (hiff.2 h)]
    · intro h
      rw [hn, if_neg (hiff.not.2 h)]

section Scopes
variable (dialect : Dialect) (text : Text)

theorem reported_root {before after : List Command} {c : Command}
    (hroot : (parse dialect text).root = before ++ c :: after) {rule : Rule}
    (hrule : rule ∈ orderRules) :
    let d := parse dialect text
    (Breaks d d.rootScope before c rule → reported rule c (issues d) = 1) ∧
      (¬Breaks d d.rootScope before c rule → reported rule c (issues d) = 0) := by
  intro d
  have hnodup := nodup_index_commands dialect text
  have hheads := root_parse dialect text
  rw [hroot, eq_comm, List.map_eq_append_iff] at hheads
  obtain ⟨front, rest, hparts, rfl, hrest⟩ := hheads
  obtain ⟨part, back, rfl, rfl, rfl⟩ := List.map_eq_cons_iff.1 hrest
  rw [hparts] at hnodup
  have hindices : ((front.map Part.head ++ part.head :: back.map Part.head).map Command.index).Nodup := by
    have hheads := ((heads_sublist (front ++ part :: back)).map Command.index).nodup hnodup
    rwa [List.map_append, List.map_cons] at hheads
  have hfirst : ((Progress.start []).throughParts (front ++ part :: back)).first =
      (front.map Part.head ++ part.head :: back.map Part.head).find? (·.isContent) := by
    simp [Progress.throughParts, Progress.through, Progress.start]
  have hfed : ((Progress.start []).throughParts (front ++ part :: back)).fed =
      d.root.any (·.suppliesData) := by
    simp [d, hroot, Progress.throughParts, Progress.through, Progress.start]
  refine reported_of_walk [] hrule (d.blocks.isEmpty = true ∧ d.root.any (·.suppliesData) = false ∧
    part.head.isContent ∧ ∀ b ∈ front.map Part.head, ¬b.isContent) ?_ ?_
  · simp only [Breaks, rootScope, List.isEmpty_iff, List.any_eq_false]
    grind
  · rw [issues_parse, reported_append, hparts, reported_head dialect (.start []) hnodup hrule,
      walkParts_progress]
    congr 1
    split
    · rename_i hempty
      rw [reported_missingLoader dialect none hindices hfirst, hfed]
      simp [d, hempty]
    · rename_i hempty
      simp [d, hempty]

theorem reported_block {b : Block} (hb : b ∈ (parse dialect text).blocks)
    {before after : List Command} {c : Command} (hcommands : b.commands = before ++ c :: after)
    {rule : Rule} (hrule : rule ∈ orderRules) :
    let d := parse dialect text
    (Breaks d b.scope before c rule → reported rule c (issues d) = 1) ∧
      (¬Breaks d b.scope before c rule → reported rule c (issues d) = 0) := by
  intro d
  have hblocks := blocks_parse dialect text
  have hsome : (parse dialect text).blocks.isEmpty = false := by
    simpa using List.ne_nil_of_mem hb
  rw [hblocks] at hb
  obtain ⟨part, hpart, hb⟩ := List.mem_filterMap.1 hb
  have hnodup := nodup_index_commands dialect text
  obtain ⟨front, back, hparts⟩ := List.append_of_mem hpart
  have hindices : ((before ++ c :: after).map Command.index).Nodup := by
    rw [← hcommands]
    exact ((block_sublist hpart hb).map Command.index).nodup hnodup
  rw [hparts] at hnodup
  have hbody := reported_body dialect (.start []) hnodup hb (c := c) (by simp [hcommands]) rule
  have hwalk := reported_walk dialect (.start ((Progress.start []).throughParts front).visible) hindices
    hrule
  have hfirst : ((Progress.start ((Progress.start []).throughParts front).visible).through
      (before ++ c :: after)).first = (before ++ c :: after).find? (·.isContent) := by
    simp [Progress.through, Progress.start]
  refine reported_of_walk ((Progress.start []).throughParts front).visible hrule
    (b.commands.any (·.suppliesData) = false ∧ c.isContent ∧ ∀ b ∈ before, ¬b.isContent) ?_ ?_
  · simp only [Breaks, Block.scope, List.any_eq_false]
    grind
  · rw [issues_parse, reported_append, hparts, hbody, hsome]
    simp only [Bool.false_eq_true, if_false, reported_nil, Nat.add_zero, blockIssues, reported_append,
      walk_progress]
    rw [hcommands, hwalk, reported_missingLoader dialect _ hindices hfirst]
    simp [Progress.through, Progress.start]

theorem issues_at :
    ∀ i ∈ issues (parse dialect text), ∃ s ∈ (parse dialect text).scopes, ∃ c ∈ s.commands, i.At c := by
  intro i hi
  rw [issues_parse, walkParts_progress, List.mem_append] at hi
  rcases hi with hi | hi
  · obtain ⟨c, hc, hat⟩ := walkParts_at dialect _ _ i hi
    rw [← commands_parse] at hc
    obtain ⟨s, hs, hcs⟩ := exists_scope hc
    exact ⟨s, hs, c, hcs, hat⟩
  · split at hi
    · obtain ⟨c, hfirst, hat⟩ := missingLoader_at dialect _ _ i hi
      have hfind : (parse dialect text).root.find? (·.isContent) = some c := by
        rw [root_parse]
        simpa only [Progress.throughParts, Progress.through, Progress.start, Option.none_or] using hfirst
      exact ⟨_, List.mem_cons_self, c, List.mem_of_find?_eq_some hfind, hat⟩
    · cases hi

end Scopes

/-- Every issue lies at a command of a scope, and each of the rules about order is reported there
once if it is broken there and not at all otherwise. -/
theorem reported_iff_breaks (dialect : Dialect) (text : Text) :
    let d := parse dialect text
    (∀ i ∈ issues d, ∃ s ∈ d.scopes, ∃ c ∈ s.commands, i.At c) ∧
    ∀ s ∈ d.scopes, ∀ (before : List Command) (c : Command) (after : List Command),
      s.commands = before ++ c :: after → ∀ rule ∈ orderRules,
        (Breaks d s before c rule → reported rule c (issues d) = 1) ∧
          (¬Breaks d s before c rule → reported rule c (issues d) = 0) := by
  intro d
  constructor
  · exact issues_at dialect text
  · intro s hs before c after hcommands rule hrule
    rcases List.mem_cons.1 hs with rfl | hs
    · exact reported_root dialect text hcommands hrule
    · obtain ⟨b, hb, rfl⟩ := List.mem_map.1 hs
      exact reported_block dialect text hb hcommands hrule

/-- A bound that stands alone. -/
theorem reported_bound_alone : ∃ c, (parse Dialect.pipeline "BOUND 5").root = [c] ∧
    reported .boundWithoutOrder c (issues (parse Dialect.pipeline "BOUND 5")) = 1 := by
  have hroles : (parse Dialect.pipeline "BOUND 5").root.map (·.hasRole .bound) = [true] := by
    decide +kernel
  obtain ⟨c, hroot, hrole⟩ := List.map_eq_singleton_iff.1 hroles
  have hbound := (reported_iff_breaks Dialect.pipeline "BOUND 5").2 _ List.mem_cons_self [] c [] hroot
    .boundWithoutOrder (by decide)
  exact ⟨c, hroot, hbound.1 ⟨hrole, by simp⟩⟩

end Rules.Ordering
end QueryLint
