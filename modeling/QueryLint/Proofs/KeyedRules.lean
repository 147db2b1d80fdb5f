import QueryLint.Proofs.KeyedPayloads
import QueryLint.Rules.Fields
import QueryLint.Rules.Ordering
import QueryLint.Rules.Performance
import QueryLint.Rules.Structure

/-!
Rules on documents whose payloads are the same key by key.

Each pass is taken step by step: a command that is the same key by key yields the same findings and leaves the
same record behind, and so does a list of them.
-/

namespace QueryLint
set_option autoImplicit false

namespace Rules

namespace Ordering

/-- Records that are the same but for the payload of the first command. -/
def Progress.SameByKey (p p' : Progress) : Prop :=
  ∃ first, Option.Rel Command.SameByKey p.first first ∧ p' = { p with first }

theorem Progress.SameByKey.start (visible : List Text) :
    (Progress.start visible).SameByKey (.start visible) :=
  ⟨none, .none, rfl⟩

section
variable {c c' : Command} (hc : c.SameByKey c')
include hc

theorem unknownCommand_same (dialect : Dialect) : unknownCommand dialect c' = unknownCommand dialect c := by
  rw [unknownCommand, hc.issue_eq, hc.name, hc.keyword, unknownCommand]

theorem forbiddenIssues_same (spec : Spec) : forbiddenIssues c' spec = forbiddenIssues c spec := by
  simp only [forbiddenIssues, hc.under_eq, hc.issue_eq]

theorem referenceIssues_same (visible : List Text) :
    referenceIssues visible c' = referenceIssues visible c := by
  simp only [referenceIssues, hc.payload_isNone_eq, hc.referencedName?_eq, hc.issue_eq, hc.name]

theorem roleIssues_same {p p' : Progress} (hp : p.SameByKey p') (role : Role) :
    roleIssues p' c' role = roleIssues p c role := by
  obtain ⟨first, -, rfl⟩ := hp
  cases role <;> simp only [roleIssues, hc.issue_eq, hc.name, referenceIssues_same hc]

theorem pass_same {p p' : Progress} (hp : p.SameByKey p') (spec : Spec) :
    (p.pass c spec).SameByKey (p'.pass c' spec) := by
  obtain ⟨first, hfirst, rfl⟩ := hp
  refine ⟨_, ?_, rfl⟩
  unfold Progress.pass
  rcases cases_of_rel hfirst with ⟨hnone, rfl⟩ | ⟨b, b', hsome, rfl, hb⟩
  · rw [hnone]
    dsimp only
    split
    · exact .none
    · exact .some hc
  · rw [hsome]
    exact .some hb

theorem visit_same (dialect : Dialect) {p p' : Progress} (hp : p.SameByKey p') :
    (visit dialect p c).1.SameByKey (visit dialect p' c').1 ∧
      (visit dialect p' c').2 = (visit dialect p c).2 := by
  unfold visit
  rw [hc.spec]
  cases c.spec with
  | none => exact ⟨hp, by rw [unknownCommand_same hc]⟩
  | some spec =>
    dsimp only
    exact ⟨pass_same hc hp spec, by rw [forbiddenIssues_same hc, roleIssues_same hc hp]⟩

end

theorem walk_same (dialect : Dialect) {cs cs' : List Command} (hcs : List.Forall₂ Command.SameByKey cs cs')
    {p p' : Progress} (hp : p.SameByKey p') :
    (walk dialect p cs).1.SameByKey (walk dialect p' cs').1 ∧
      (walk dialect p' cs').2 = (walk dialect p cs).2 := by
  induction hcs generalizing p p' with
  | nil => exact ⟨hp, rfl⟩
  | cons hc _ ih =>
    obtain ⟨hvisit, hfound⟩ := visit_same hc dialect hp
    obtain ⟨hwalk, hmore⟩ := ih hvisit
    exact ⟨hwalk, congrArg₂ (· ++ ·) hfound hmore⟩

theorem missingLoader_same (dialect : Dialect) (name : Option Text) {p p' : Progress} (hp : p.SameByKey p') :
    missingLoader dialect name p' = missingLoader dialect name p := by
  obtain ⟨first, hfirst, rfl⟩ := hp
  unfold missingLoader
  rcases cases_of_rel hfirst with ⟨hnone, rfl⟩ | ⟨b, b', hsome, rfl, hb⟩
  · rw [hnone]
  · simp only [hsome, hb.issue_eq]

theorem blockIssues_same (dialect : Dialect) (visible : List Text) {b b' : Block}
    (hb : b.Related Command.SameByKey b') : blockIssues dialect visible b' = blockIssues dialect visible b := by
  obtain ⟨hwalk, hfound⟩ := walk_same dialect hb.commands (.start visible)
  unfold blockIssues
  dsimp only
  rw [hfound, missingLoader_same dialect _ hwalk, hb.name]

theorem enter_same (dialect : Dialect) {blocks blocks' : List Block}
    (hblocks : List.Forall₂ (Block.Related Command.SameByKey) blocks blocks') {c c' : Command}
    (hc : c.SameByKey c') {p p' : Progress} (hp : p.SameByKey p') :
    (enter dialect blocks p c).1.SameByKey (enter dialect blocks' p' c').1 ∧
      (enter dialect blocks' p' c').2 = (enter dialect blocks p c).2 := by
  -- Blocks are found by the indices of their openers, which stay as they are.
  have hfind : Option.Rel (Block.Related Command.SameByKey) (blocks.find? fun b => b.openerIndex = c.index)
      (blocks'.find? fun b => b.openerIndex = c'.index) := by
    rw [hc.index]
    induction hblocks with
    | nil => exact .none
    | cons hb _ ih =>
      rw [List.find?_cons, List.find?_cons, hb.openerIndex]
      split
      · exact .some hb
      · exact ih
  unfold enter
  rw [hc.hasRole_eq]
  split
  · exact ⟨hp, rfl⟩
  · rcases cases_of_rel hfind with ⟨hnone, hnone'⟩ | ⟨b, b', hsome, hsome', hb⟩
    · rw [hnone, hnone']
      exact ⟨hp, rfl⟩
    · obtain ⟨first, hfirst, rfl⟩ := hp
      rw [hsome, hsome']
      dsimp only
      rw [hb.name, blockIssues_same dialect _ hb]
      exact ⟨⟨first, hfirst, rfl⟩, rfl⟩

theorem walkRoot_same (dialect : Dialect) {blocks blocks' : List Block}
    (hblocks : List.Forall₂ (Block.Related Command.SameByKey) blocks blocks') {cs cs' : List Command}
    (hcs : List.Forall₂ Command.SameByKey cs cs') {p p' : Progress} (hp : p.SameByKey p') :
    (walkRoot dialect blocks p cs).1.SameByKey (walkRoot dialect blocks' p' cs').1 ∧
      (walkRoot dialect blocks' p' cs').2 = (walkRoot dialect blocks p cs).2 := by
  induction hcs generalizing p p' with
  | nil => exact ⟨hp, rfl⟩
  | cons hc _ ih =>
    obtain ⟨hvisit, hfound⟩ := visit_same hc dialect hp
    obtain ⟨henter, hinner⟩ := enter_same dialect hblocks hc hvisit
    obtain ⟨hwalk, hmore⟩ := ih henter
    exact ⟨hwalk, congrArg₂ (· ++ ·) (congrArg₂ (· ++ ·) hfound hinner) hmore⟩

theorem issues_same {d d' : Document} (h : d.Related Command.SameByKey d') : issues d' = issues d := by
  obtain ⟨hwalk, hfound⟩ := walkRoot_same d.dialect h.blocks h.root (.start [])
  unfold issues
  dsimp only
  rw [h.dialect, hfound, isEmpty_of_forall₂ h.blocks, missingLoader_same d.dialect _ hwalk]

end Ordering

namespace Fields
variable {σ : Type} (lookup : Lookup σ) (implicit : List Text)

theorem sectionIssues_same (category : Text) {source source' : Command} (hsource : source'.line = source.line)
    (known : List Text) {cs cs' : List Command} (hcs : List.Forall₂ Command.SameByKey cs cs') :
    sectionIssues category source' known cs' = sectionIssues category source known cs := by
  induction hcs generalizing known with
  | nil => rfl
  | @cons c c' _ _ hc _ ih =>
    have hunknown : unknownField category source' c' = unknownField category source c := by
      funext name
      rw [unknownField, hc.issue_eq, hsource, unknownField]
    rw [sectionIssues, sectionIssues, hc.referencedFields_eq, hc.definedFields_eq, hunknown, ih]

theorem sourceIssues_same {source source' : Command} (hsource : source.SameByKey source')
    {cs cs' : List Command} (hcs : List.Forall₂ Command.SameByKey cs cs') :
    sourceIssues lookup implicit source' cs' = sourceIssues lookup implicit source cs := by
  unfold sourceIssues
  simp only [hsource.declaredName?_eq, hsource.issue_eq, sectionIssues_same _ hsource.line _ hcs]

theorem scopeIssues_same {cs cs' : List Command} (hcs : List.Forall₂ Command.SameByKey cs cs') :
    scopeIssues lookup implicit cs' = scopeIssues lookup implicit cs := by
  induction hcs with
  | nil => rfl
  | cons hc hrest ih =>
    have hfollowing : ∀ {cs cs' : List Command}, List.Forall₂ Command.SameByKey cs cs' →
        List.Forall₂ Command.SameByKey (cs.takeWhile fun c => !c.hasRole .source)
          (cs'.takeWhile fun c => !c.hasRole .source) := by
      intro cs cs' hcs
      induction hcs with
      | nil => exact .nil
      | cons hc _ ih =>
        rw [List.takeWhile_cons, List.takeWhile_cons, hc.hasRole_eq]
        split
        · exact .cons hc ih
        · exact .nil
    rw [scopeIssues, scopeIssues, hc.hasRole_eq, sourceIssues_same lookup implicit hc (hfollowing hrest), ih]

theorem scopesIssues_same {scopes scopes' : List Scope}
    (h : List.Forall₂ (fun s s' => List.Forall₂ Command.SameByKey s.commands s'.commands) scopes scopes') :
    scopesIssues lookup implicit scopes' = scopesIssues lookup implicit scopes := by
  induction h with
  | nil => rfl
  | cons hscope _ ih => rw [scopesIssues, scopesIssues, scopeIssues_same lookup implicit hscope, ih]

theorem check_same {d d' : Document} (h : d.Related Command.SameByKey d') (s : σ) :
    check d' lookup s = check d lookup s := by
  have hscopes : List.Forall₂ (fun s s' => List.Forall₂ Command.SameByKey s.commands s'.commands)
      d.scopes d'.scopes := by
    refine .cons h.root ?_
    exact List.rel_map (fun b b' hb => hb.commands) h.blocks
  unfold check
  rw [h.dialect, scopesIssues_same lookup _ hscopes]

end Fields

namespace Performance

theorem loaderRange?_same {c c' : Command} (hc : c.SameByKey c') : loaderRange? c' = loaderRange? c := by
  simp only [loaderRange?, hc.under_eq]

theorem timeRange?_same {cs cs' : List Command} (hcs : List.Forall₂ Command.SameByKey cs cs')
    (fallback : Option Number) : timeRange? cs' fallback = timeRange? cs fallback := by
  have hfind : ∀ {α : Type} (role : Role) (f : Command → Option α),
      (∀ {c c' : Command}, c.SameByKey c' → f c' = f c) →
      (cs'.filter (·.hasRole role)).findSome? f = (cs.filter (·.hasRole role)).findSome? f := by
    intro α role f hf
    induction hcs with
    | nil => rfl
    | cons hc _ ih =>
      rw [List.filter_cons, List.filter_cons, hc.hasRole_eq]
      split
      · rw [List.findSome?_cons, List.findSome?_cons, hf hc, ih]
      · exact ih
  unfold timeRange?
  rw [hfind .timeRange _ fun hc => bind_eq_of_rel hc.payload fun hv => hv.duration_eq,
    hfind .loader _ loaderRange?_same]

section
variable {c c' : Command} (hc : c.SameByKey c')
include hc

theorem granularityIssues_same (ratio : Number) (range : Option Number) :
    granularityIssues ratio range c' = granularityIssues ratio range c := by
  simp only [granularityIssues, hc.timeBucket?_eq, hc.issue_eq, hc.name]

theorem aggregate_same (function : Text) (functions : Record (List Text)) (targets : List Text) :
    aggregate c' function functions targets = aggregate c function functions targets := by
  induction targets generalizing functions with
  | nil => rfl
  | cons target targets ih => simp only [aggregate, ih, hc.issue_eq]

theorem visit_same (ratio : Number) (range : Option Number) (p : Progress) :
    visit ratio range p c' = visit ratio range p c := by
  have htexts : c'.payload.map Value.texts = c.payload.map Value.texts :=
    map_eq_of_rel hc.payload fun hv => hv.texts_eq
  simp only [visit, hc.role?_eq, htexts, hc.issue_eq, hc.name, granularityIssues_same hc,
    hc.aggregateFunction?_eq, hc.referencedFields_eq, aggregate_same hc]

end

theorem walk_same (ratio : Number) (range : Option Number) (p : Progress) {cs cs' : List Command}
    (hcs : List.Forall₂ Command.SameByKey cs cs') : walk ratio range p cs' = walk ratio range p cs := by
  induction hcs generalizing p with
  | nil => rfl
  | cons hc _ ih => simp only [walk, visit_same hc, ih]

theorem unboundedIssues_same {cs cs' : List Command} (hcs : List.Forall₂ Command.SameByKey cs cs') :
    unboundedIssues cs' = unboundedIssues cs := by
  have hstages : List.Forall₂ Command.SameByKey
      (cs.filter fun c => !c.hasRole .blockOpen && !c.hasRole .blockClose)
      (cs'.filter fun c => !c.hasRole .blockOpen && !c.hasRole .blockClose) := by
    refine List.rel_filter (fun c c' hc => ?_) hcs
    simp only [hc.hasRole_eq]
  unfold unboundedIssues
  dsimp only
  generalize cs.filter _ = stages, cs'.filter _ = stages' at hstages
  have hbounded : (stages'.any fun c => c.hasRole .bound || c.hasRole .group || c.hasRole .aggregate) =
      stages.any fun c => c.hasRole .bound || c.hasRole .group || c.hasRole .aggregate := by
    induction hstages with
    | nil => rfl
    | cons hc _ ih => simp only [List.any_cons, hc.hasRole_eq, ih]
  have hlast := List.rel_reverse hstages
  rw [hbounded, List.getLast?_eq_head?_reverse, List.getLast?_eq_head?_reverse]
  generalize stages.reverse = reversed, stages'.reverse = reversed' at hlast
  cases hlast with
  | nil => rfl
  | cons hc _ => simp only [List.head?_cons, hc.issue_eq]

theorem issues_same {d d' : Document} (h : d.Related Command.SameByKey d') (fallback ratio : Option Number) :
    issues d' fallback ratio = issues d fallback ratio := by
  have hblocks : ∀ ratio range,
      (d'.blocks.flatMap fun b => scopeIssues ratio (timeRange? b.commands range) b.scope) =
        d.blocks.flatMap fun b => scopeIssues ratio (timeRange? b.commands range) b.scope := by
    intro ratio range
    rw [List.flatMap_def, List.flatMap_def]
    refine congrArg List.flatten (map_eq_of_forall₂ h.blocks fun {b b'} hb => ?_)
    rw [timeRange?_same hb.commands]
    exact walk_same _ _ _ hb.commands
  unfold issues
  dsimp only
  rw [hblocks, timeRange?_same h.root, unboundedIssues_same h.root]
  refine congrArg (· ++ _ ++ _) ?_
  exact walk_same _ _ _ h.root

end Performance

namespace Structure

theorem contractIssues_same {c c' : Command} (hc : c.SameByKey c') (spec : Spec) :
    contractIssues c' spec = contractIssues c spec := by
  have hempty : payloadIsEmpty c' = payloadIsEmpty c := by
    rw [payloadIsEmpty, map_eq_of_rel hc.payload fun hv => hv.isEmpty_eq, payloadIsEmpty]
  have hnone : c'.payloadText.isNone = c.payloadText.isNone := by
    rw [← Option.not_isSome, hc.payloadText, Option.not_isSome]
  unfold contractIssues
  rw [hempty, hnone, hc.payloadText, hc.name]
  simp only [hc.issue_eq]
  rcases cases_of_rel hc.payload with ⟨hpayload, hpayload'⟩ | ⟨v, v', hpayload, hpayload', hv⟩
  · rw [hpayload, hpayload']
  · simp only [hpayload, hpayload', hv.shape_eq]

end Structure
end Rules
end QueryLint
