import QueryLint.Proofs.Verdicts

/-!
What stands before a command can only license it.

The critical rules about order ask for something that comes before: a source, a grouping, a named
block, data. So a command at which they find nothing may move, and commands may be put in before it,
without making it critical.
-/

namespace QueryLint
set_option autoImplicit false

open Document Issue

theorem Issue.mild_of_severities {xs ys : List Issue} (h : ys.map severity = xs.map severity)
    (hxs : Mild xs) : Mild ys := by
  intro i hi hcritical
  have hmem : Severity.critical ∈ xs.map severity := by
    rw [← h, ← hcritical]
    exact List.mem_map_of_mem hi
  obtain ⟨j, hj, hsame⟩ := List.mem_map.1 hmem
  exact hxs j hj hsame

theorem any_kept {σ : Nat → Nat} {f : Command → Bool} (hf : ∀ c c', Command.Kept σ c c' → f c' = f c)
    {cs cs' : List Command} (h : List.Forall₂ (Command.Kept σ) cs cs') : cs'.any f = cs.any f := by
  induction h with
  | nil => rfl
  | cons hc _ ih => rw [List.any_cons, List.any_cons, hf _ _ hc, ih]

namespace Command.Kept
variable {σ : Nat → Nat} {c c' : Command} (h : c.Kept σ c')
include h

theorem hasRole_eq (role : Role) : c'.hasRole role = c.hasRole role := by
  rw [hasRole, h.role_eq, hasRole]

theorem suppliesData_eq : c'.suppliesData = c.suppliesData := by
  rw [suppliesData, h.spec_eq, suppliesData]

theorem isContent_eq : c'.isContent = c.isContent := by
  rw [isContent, h.spec_eq, h.hasRole_eq, h.hasRole_eq, isContent]

/-- What is found at a command by itself does not depend on its place. -/
theorem commandIssues_eq_nil : Rules.Structure.commandIssues c' = [] ↔
    Rules.Structure.commandIssues c = [] := by
  rw [Rules.Structure.commandIssues_eq_nil, Rules.Structure.commandIssues_eq_nil, h.delimiterFault_eq,
    h.payloadFault_eq, h.spec_eq, h.payload_eq, h.payloadText_eq]

end Command.Kept

namespace Rules.Ordering

/-- All that the first record licenses the second one licenses too. -/
structure Progress.Under (p p' : Progress) : Prop where
  source : p.source = true → p'.source = true
  grouped : p.grouped = true → p'.grouped = true
  fed : p.fed = true → p'.fed = true
  visible : p.visible ⊆ p'.visible

namespace Progress
variable {σ : Nat → Nat} {p p' : Progress}

theorem Under.start {visible visible' : List Text} (h : visible ⊆ visible') :
    (start visible).Under (start visible') :=
  ⟨id, id, id, h⟩

theorem Under.through (h : p.Under p') {cs cs' : List Command}
    (hcs : List.Forall₂ (Command.Kept σ) cs cs') : (p.through cs).Under (p'.through cs') := by
  have hrole := fun role => any_kept (f := (·.hasRole role)) (fun _ _ hc => hc.hasRole_eq role) hcs
  have hdata := any_kept (f := (·.suppliesData)) (fun _ _ hc => hc.suppliesData_eq) hcs
  constructor
  · simpa only [Progress.through, hrole, Bool.or_eq_true] using Or.imp_left h.source
  · simpa only [Progress.through, hrole, Bool.or_eq_true] using Or.imp_left h.grouped
  · simpa only [Progress.through, hdata, Bool.or_eq_true] using Or.imp_left h.fed
  · exact h.visible

theorem Under.throughParts (h : p.Under p') {ps ps' : List Part}
    (hps : List.Forall₂ (Part.Kept σ) ps ps') : (p.throughParts ps).Under (p'.throughParts ps') := by
  have hheads := h.through (heads_kept hps)
  have hnames : visibleNames ps' = visibleNames ps := by
    have hblocks := blocks_kept hps
    unfold visibleNames
    congr 1
    generalize ps.filterMap Part.block? = bs, ps'.filterMap Part.block? = bs' at hblocks
    induction hblocks with
    | nil => rfl
    | cons hb _ ih => rw [List.map_cons, List.map_cons, hb.name, ih]
  refine ⟨hheads.source, hheads.grouped, hheads.fed, ?_⟩
  simp only [Progress.throughParts, hnames]
  exact List.append_subset.2
    ⟨List.Subset.trans h.visible (List.subset_append_left _ _), List.subset_append_right _ _⟩

theorem under_throughParts (p : Progress) (ps : List Part) : p.Under (p.throughParts ps) := by
  constructor <;> simp +contextual [Progress.throughParts, Progress.through]

theorem Under.trans {p'' : Progress} (h : p.Under p') (h' : p'.Under p'') : p.Under p'' :=
  ⟨h'.source ∘ h.source, h'.grouped ∘ h.grouped, h'.fed ∘ h.fed, List.Subset.trans h.visible h'.visible⟩

end Progress

section Mild
variable {σ : Nat → Nat} {p p' : Progress} (dialect : Dialect)

theorem mild_forbidden {c c' : Command} (hc : c.Kept σ c') (spec : Spec)
    (h : Mild (forbiddenIssues c spec)) : Mild (forbiddenIssues c' spec) := by
  refine mild_of_severities ?_ h
  unfold forbiddenIssues
  rw [hc.payload_eq, List.map_filterMap, List.map_filterMap]
  congr 1
  funext key
  split <;> rfl

theorem mild_reference {c c' : Command} (hc : c.Kept σ c') {visible visible' : List Text}
    (hvisible : visible ⊆ visible') (h : Mild (referenceIssues visible c)) :
    Mild (referenceIssues visible' c') := by
  unfold referenceIssues at h ⊢
  rw [hc.payload_eq, hc.referencedName_eq]
  split at h
  · simp [*]
  · cases hname : c.referencedName? with
    | none => simp [hname, Rule.severity] at h
    | some name =>
      by_cases hmem : name ∈ visible
      · simp [*, hvisible hmem]
      · simp [hname, hmem, Rule.severity] at h

theorem mild_role {c c' : Command} (hc : c.Kept σ c') (hp : p.Under p') (role : Role)
    (h : Mild (roleIssues p c role)) : Mild (roleIssues p' c' role) := by
  cases role with
  | loader =>
    have hsource : p.source = true := by
      by_contra hsource
      simp [roleIssues, hsource, Rule.severity] at h
    simp [roleIssues, hp.source hsource]
  | aggregate =>
    have hgrouped : p.grouped = true := by
      by_contra hgrouped
      simp [roleIssues, hgrouped, Rule.severity] at h
    simp [roleIssues, hp.grouped hgrouped]
  | bound | projection =>
    simp only [roleIssues]
    split <;> simp [Rule.severity]
  | subqueryRef => exact mild_reference hc hp.visible h
  | _ => exact mild_nil

theorem mild_visit {c c' : Command} (hc : c.Kept σ c') (hp : p.Under p')
    (h : Mild (visit dialect p c).2) : Mild (visit dialect p' c').2 := by
  unfold visit at h ⊢
  rw [hc.spec_eq]
  cases hspec : c.spec with
  | none => simp [unknownCommand, Rule.severity]
  | some spec =>
    simp only [hspec, mild_append] at h ⊢
    exact ⟨mild_forbidden hc spec h.1, mild_role hc hp spec.role h.2⟩

theorem mild_walk {cs cs' : List Command} (hcs : List.Forall₂ (Command.Kept σ) cs cs') (hp : p.Under p')
    (h : Mild (walk dialect p cs).2) : Mild (walk dialect p' cs').2 := by
  induction hcs generalizing p p' with
  | nil => exact mild_nil
  | cons hc _ ih =>
    simp only [walk, mild_append, visit_progress] at h ⊢
    exact ⟨mild_visit dialect hc hp h.1, ih (hp.through (.cons hc .nil)) h.2⟩

theorem mild_missingLoader (name : Option Text) (p : Progress) :
    Mild (missingLoader dialect name p) ↔ p.first = none ∨ p.fed = true := by
  unfold missingLoader
  cases p.first with
  | none => simp
  | some first => cases p.fed <;> simp [Rule.severity]

theorem mild_block {b b' : Block} (hb : b.Kept σ b') {visible visible' : List Text}
    (hvisible : visible ⊆ visible') (h : Mild (blockIssues dialect visible b)) :
    Mild (blockIssues dialect visible' b') := by
  have hstart : (Progress.start visible).Under (.start visible') := .start hvisible
  simp only [blockIssues, mild_append, mild_missingLoader, walk_progress] at h ⊢
  refine ⟨mild_walk dialect hb.commands hstart h.1, h.2.imp ?_ (hstart.through hb.commands).fed⟩
  have hcontent := any_kept (f := (·.isContent)) (fun _ _ hc => hc.isContent_eq) hb.commands
  simp only [Progress.through, Progress.start, Option.none_or, List.find?_eq_none]
  rw [← List.any_eq_false, ← List.any_eq_false, hcontent]
  exact id

/-- Parts at which nothing critical is found may move behind other parts. -/
theorem mild_walkParts {ps ps' : List Part} (hps : List.Forall₂ (Part.Kept σ) ps ps') (hp : p.Under p')
    (h : Mild (walkParts dialect p ps).2) : Mild (walkParts dialect p' ps').2 := by
  induction hps generalizing p p' with
  | nil => exact mild_nil
  | @cons part part' ps ps' hpart hps ih =>
    simp only [walkParts, mild_append, visit_progress, enterPart_progress] at h ⊢
    obtain ⟨⟨hvisit, henter⟩, hrest⟩ := h
    refine ⟨⟨?_, ?_⟩, ih (hp.throughParts (.cons hpart .nil)) hrest⟩
    · cases hpart with
      | single hc => exact mild_visit dialect hc hp hvisit
      | block hc hb => exact mild_visit dialect hc hp hvisit
    · cases hpart with
      | single hc => exact mild_nil
      | block hc hb => exact mild_block dialect hb hp.visible henter

end Mild
end Rules.Ordering
end QueryLint
