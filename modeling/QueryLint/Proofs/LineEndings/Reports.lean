import QueryLint.Proofs.KeyedRules
import QueryLint.Proofs.LineEndings.Documents
import QueryLint.Proofs.StrayLines

/-!
Reports on texts with either kind of line ending.

Every rule finds the same in a document and in the document without offsets, but for the message
about a payload that cannot be read. There is at most one such message for a command, so merging
keeps the same findings in the same order.
-/

namespace QueryLint
set_option autoImplicit false

open Text Document Issue

theorem Command.sameByKey_blur (c : Command) : c.SameByKey c.blur where
  index := rfl
  name := rfl
  keyword := rfl
  spec := rfl
  line := rfl
  scope := rfl
  payload := by
    rw [payload_blur]
    cases c.payload with
    | none => exact .none
    | some v => exact .some (.same v)
  payloadText := Option.isSome_map

theorem Document.sameByKey_blur (d : Document) : d.Related Command.SameByKey d.blur := by
  have hmap : ∀ cs : List Command, List.Forall₂ Command.SameByKey cs (cs.map Command.blur) := fun cs =>
    List.forall₂_map_right_iff.2 (List.forall₂_same.2 fun c _ => c.sameByKey_blur)
  refine ⟨rfl, hmap d.commands, hmap d.root, ?_, rfl⟩
  exact List.forall₂_map_right_iff.2 (List.forall₂_same.2 fun b _ => ⟨rfl, hmap b.commands, rfl, rfl⟩)

namespace Rules

namespace Style

theorem commandIssues_blur (c : Command) : commandIssues c.blur = commandIssues c := by
  have hkeys : unquotedKeys c.blur.notes = unquotedKeys c.notes := List.filterMap_map
  have hseparators : c.blur.notes.filterMap (separatorIssue? c.blur) =
      c.notes.filterMap (separatorIssue? c) := List.filterMap_map
  unfold commandIssues
  rw [hkeys, hseparators]
  rfl

theorem issues_blur (d : Document) : issues d.blur = issues d := by
  simp only [issues, blur, List.flatMap_map, commandIssues_blur]

end Style

end Rules

namespace Issue

/-- An issue without the message about a payload that cannot be read. -/
def blur (i : Issue) : Issue :=
  if i.code = Rule.code .payloadParseError then { i with message := [] } else i

@[simp] theorem code_blur (i : Issue) : i.blur.code = i.code := by
  unfold blur
  split <;> rfl

@[simp] theorem severity_blur (i : Issue) : i.blur.severity = i.severity := by
  unfold blur
  split <;> rfl

@[simp] theorem commandIndex_blur (i : Issue) : i.blur.commandIndex = i.commandIndex := by
  unfold blur
  split <;> rfl

/-- What a reader of a report sees of an issue without reading texts. -/
def key (i : Issue) : Severity × Text × Int × Int × Option Text :=
  (i.severity, i.code, i.commandIndex, i.line, i.scope)

theorem key_blur (i : Issue) : i.blur.key = i.key := by
  unfold blur
  split <;> rfl

/-- Changing issues changes what is kept of them only if it changes which are taken for one. -/
theorem map_distinct {f : Issue → Issue} {earlier issues : List Issue}
    (h : ∀ i ∈ earlier ++ issues, ∀ j ∈ issues,
      (f i).identity = (f j).identity ↔ i.identity = j.identity) :
    (distinct (earlier.map identity) issues).map f =
      distinct (earlier.map fun i => (f i).identity) (issues.map f) := by
  induction issues generalizing earlier with
  | nil => rfl
  | cons i is ih =>
    have hseen : (f i).identity ∈ earlier.map (fun i => (f i).identity) ↔
        i.identity ∈ earlier.map identity := by
      simp only [List.mem_map]
      refine exists_congr fun j => and_congr_right fun hj => ?_
      exact h j (List.mem_append_left _ hj) i List.mem_cons_self
    rw [List.map_cons, distinct, distinct]
    simp only [List.contains_iff_mem, hseen]
    split
    · refine ih fun j hj k hk => h j ?_ k (List.mem_cons_of_mem _ hk)
      exact List.mem_append.2 ((List.mem_append.1 hj).imp_right (List.mem_cons_of_mem _))
    · refine congrArg (f i :: ·) (@ih (i :: earlier) fun j hj k hk => h j ?_ k (List.mem_cons_of_mem _ hk))
      exact List.perm_middle.symm.subset hj

theorem map_merge {f : Issue → Issue} {lists : List (List Issue)} (hcode : ∀ i, (f i).code = i.code)
    (hprecedes : ∀ i j, precedes (f i) (f j) = precedes i j)
    (h : ∀ i ∈ lists.flatten, ∀ j ∈ lists.flatten,
      (f i).identity = (f j).identity ↔ i.identity = j.identity) (disabled : List Text) :
    (merge lists disabled).map f = merge (lists.map (List.map f)) disabled := by
  have hkept : ∀ i ∈ lists.flatten.filter (fun i => !disabled.contains i.code), i ∈ lists.flatten :=
    fun i hi => (List.mem_filter.1 hi).1
  have hfilter : (lists.map (List.map f)).flatten.filter (fun i => !disabled.contains i.code) =
      (lists.flatten.filter fun i => !disabled.contains i.code).map f := by
    rw [← List.map_flatten, List.filter_map]
    simp only [Function.comp_def, hcode]
  have hdistinct := @map_distinct f [] (lists.flatten.filter fun i => !disabled.contains i.code)
    fun i hi j hj => h i (hkept i hi) j (hkept j hj)
  unfold merge
  rw [hfilter, List.map_mergeSort fun i _ j _ => (hprecedes i j).symm]
  exact congrArg (List.mergeSort · precedes) hdistinct

theorem precedes_blur (i j : Issue) : precedes i.blur j.blur = precedes i j := by
  simp only [precedes, severity_blur, commandIndex_blur]

end Issue

namespace Rules.Structure

theorem readingIssues_blur (c : Command) :
    (readingIssues c.blur).map Issue.blur = (readingIssues c).map Issue.blur := by
  have hfault : c.blur.payloadFault = c.payloadFault.map Payload.Fault.blur := rfl
  have hdelimiter : c.blur.delimiterFault = c.delimiterFault := rfl
  unfold readingIssues
  rw [hfault, hdelimiter]
  cases c.delimiterFault with
  | some fault => rfl
  | none => cases c.payloadFault <;> rfl

theorem commandIssues_blur (c : Command) :
    (commandIssues c.blur).map Issue.blur = (commandIssues c).map Issue.blur := by
  have hspec : c.blur.spec = c.spec := rfl
  unfold commandIssues
  rw [List.map_append, List.map_append, readingIssues_blur, hspec]
  cases c.spec with
  | none => rfl
  | some spec => simp only [contractIssues_same c.sameByKey_blur]

theorem issues_blur (d : Document) : (issues d.blur).map Issue.blur = (issues d).map Issue.blur := by
  have hempty : d.blur.commands.isEmpty = d.commands.isEmpty := List.isEmpty_map
  unfold issues
  rw [List.map_append, List.map_append, hempty]
  split
  · rfl
  · simp only [Document.blur, List.flatMap_map, List.map_flatMap, commandIssues_blur]

/-- No other finding at a command tells that its payload cannot be read. -/
theorem mem_readingIssues {c : Command} {i : Issue} (hi : i ∈ commandIssues c)
    (hcode : i.code = Rule.code .payloadParseError) : i ∈ readingIssues c := by
  have hcontract : ∀ spec : Spec, ∀ i ∈ contractIssues c spec,
      i.RuledBy [.missingPayload, .unexpectedPayload, .payloadKindMismatch] := by
    intro spec
    unfold contractIssues
    split
    · simp
    · split
      · simp
      · split
        · simp
        · split <;> simp
  rcases List.mem_append.1 hi with hi | hi
  · exact hi
  · split at hi
    · cases hi
    · have hmem := (hcontract _ i hi).code_mem
      rw [hcode] at hmem
      simp at hmem

theorem eq_of_mem_readingIssues {c : Command} {i j : Issue} (hi : i ∈ readingIssues c)
    (hj : j ∈ readingIssues c) : i = j := by
  have hsingle : ∀ {k : Issue}, i ∈ [k] → j ∈ [k] → i = j :=
    fun hi hj => (List.mem_singleton.1 hi).trans (List.mem_singleton.1 hj).symm
  unfold readingIssues at hi hj
  cases hdelimiter : c.delimiterFault with
  | some fault =>
    rw [hdelimiter] at hi hj
    exact hsingle hi hj
  | none =>
    cases hfault : c.payloadFault with
    | some fault =>
      rw [hdelimiter, hfault] at hi hj
      exact hsingle hi hj
    | none =>
      rw [hdelimiter, hfault] at hi
      cases hi

theorem commandIndex_of_readingIssues {c : Command} {i : Issue} (hi : i ∈ readingIssues c) :
    i.commandIndex = c.index := by
  obtain ⟨hmade, -⟩ := critical_commandIssues c i (List.mem_append_left _ hi)
  obtain ⟨c', hc', hindex, -⟩ := hmade.located
  rw [hindex, List.mem_singleton.1 hc']

end Rules.Structure

namespace Analysis
variable {σ : Type} (dialect : Dialect) (options : Options)
variable (lookup : Option (Lookup σ)) (s : σ) (text : Text)

theorem lists_blur (d : Document) :
    (findings d.blur options lookup s).1.lists.map (List.map Issue.blur) =
      (findings d options lookup s).1.lists.map (List.map Issue.blur) := by
  have hfields : fieldFindings d.blur lookup s = fieldFindings d lookup s := by
    cases lookup with
    | none => rfl
    | some lookup => exact Rules.Fields.check_same lookup d.sameByKey_blur s
  unfold findings
  rw [hfields, Rules.Ordering.issues_same d.sameByKey_blur, Rules.Performance.issues_same d.sameByKey_blur,
    Rules.Style.issues_blur]
  simp only [Findings.lists, List.map_cons, Rules.Structure.issues_blur]

theorem exists_readingIssues {i : Issue}
    (hi : i ∈ (findingsOf dialect text options lookup s).lists.flatten)
    (hcode : i.code = Rule.code .payloadParseError) :
    ∃ c ∈ (parse dialect text).commands, i ∈ Rules.Structure.readingIssues c := by
  have hother : ∀ {rules : List Rule}, Rule.payloadParseError ∉ rules → i.code ∉ rules.map Rule.code := by
    intro rules hrules
    rwa [hcode, List.mem_map_of_injective fun _ _ => Rule.code_inj.1]
  simp only [Findings.lists, List.flatten_cons, List.flatten_nil, List.append_nil,
    List.mem_append] at hi
  rcases hi with hi | hi | hi | hi | hi
  · rcases List.mem_append.1 hi with hi | hi
    · rcases issues_parse_cases dialect text hi with hmade | ⟨stray, -, rfl⟩
      · exact absurd hmade.code_mem (hother (by simp [Assembly.rules]))
      · exact absurd hcode (by simp [strayIssue])
    · split at hi
      · rw [List.mem_singleton.1 hi] at hcode
        exact absurd hcode (by simp [Rules.Structure.emptyQuery, ofQuery])
      · obtain ⟨c, hc, hi⟩ := List.mem_flatMap.1 hi
        exact ⟨c, hc, Rules.Structure.mem_readingIssues hi hcode⟩
  · exact absurd (Rules.Ordering.ruled_issues _ i hi).code_mem (hother (by simp [Rules.Ordering.rules]))
  · exact absurd (madeAt_fields _ options lookup s i hi).code_mem (hother (by simp [Rules.Fields.rules]))
  · exact absurd (Rules.Performance.madeAt_issues _ _ _ i hi).code_mem
      (hother (by simp [Rules.Performance.rules]))
  · exact absurd (Rules.Style.madeAt_issues _ i hi).code_mem (hother (by simp [Rules.Style.rules]))

/-- The same findings are taken for one, whatever is said about payloads that cannot be read. -/
theorem identity_blur {i j : Issue}
    (hi : i ∈ (findingsOf dialect text options lookup s).lists.flatten)
    (hj : j ∈ (findingsOf dialect text options lookup s).lists.flatten) :
    i.blur.identity = j.blur.identity ↔ i.identity = j.identity := by
  have hzero : ∀ i ∈ (findingsOf dialect text options lookup s).lists.flatten, (0 : CodeUnit) ∉ i.code :=
    fun i hi => (ruled_findings dialect options lookup s text i hi).zero_not_mem
  rw [identity_eq_iff (hzero i hi) (hzero j hj), identity_eq_iff (by simpa using hzero i hi)
    (by simpa using hzero j hj), code_blur, code_blur, commandIndex_blur, commandIndex_blur]
  refine and_congr_right fun hindex => and_congr_right fun hcode => ?_
  by_cases hparse : i.code = Rule.code .payloadParseError
  · obtain ⟨c, hc, hic⟩ := exists_readingIssues dialect options lookup s text hi hparse
    obtain ⟨c', hc', hjc'⟩ := exists_readingIssues dialect options lookup s text hj (hcode ▸ hparse)
    rw [Rules.Structure.commandIndex_of_readingIssues hic,
      Rules.Structure.commandIndex_of_readingIssues hjc', Int.natCast_inj] at hindex
    obtain rfl := eq_of_index_eq dialect text hc hc' hindex
    simp only [Rules.Structure.eq_of_mem_readingIssues hic hjc']
  · rw [Issue.blur, if_neg hparse, Issue.blur, if_neg (hcode ▸ hparse)]

theorem map_blur_issues (elapsed : Elapsed) :
    (run dialect options elapsed lookup s text).report.issues.map Issue.blur =
      merge ((findingsOf dialect text options lookup s).lists.map (List.map Issue.blur))
        options.disabledRules := by
  rw [issues_run]
  exact map_merge code_blur precedes_blur
    (fun i hi j hj => identity_blur dialect options lookup s text hi hj) options.disabledRules

/-- Line endings change neither the commands of a query nor what is reported where. -/
theorem alike_crlf (elapsed elapsed' : Elapsed) (h : Unix text) :
    (parse dialect text).Alike (parse dialect (crlf text)) ∧
      (run dialect options elapsed lookup s text).report.issues.map key =
        (run dialect options elapsed' lookup s (crlf text)).report.issues.map key := by
  have hparse := blur_parse_crlf dialect h
  have hlists : (findingsOf dialect (crlf text) options lookup s).lists.map (List.map Issue.blur) =
      (findingsOf dialect text options lookup s).lists.map (List.map Issue.blur) := by
    rw [← lists_blur, hparse, lists_blur]
  have hissues : (run dialect options elapsed lookup s text).report.issues.map Issue.blur =
      (run dialect options elapsed' lookup s (crlf text)).report.issues.map Issue.blur := by
    rw [map_blur_issues, map_blur_issues, hlists]
  have hkeys := congrArg (List.map key) hissues
  simp only [List.map_map, Function.comp_def, key_blur] at hkeys
  exact ⟨alike_of_blur hparse.symm, hkeys⟩

/-- The second command has a payload that cannot be read, and the offset of the fault moves. -/
theorem alike_crlf_block :
    let text : Text := "SUB \x7b\n  id: a\n\x7d\nCATEGORY \x7b\n  a b\n\x7d\nEND\n? a"
    Unix text ∧
      crlf text = "SUB \x7b\r\n  id: a\r\n\x7d\r\nCATEGORY \x7b\r\n  a b\r\n\x7d\r\nEND\r\n? a" ∧
      (parse Dialect.mxql text).Alike (parse Dialect.mxql (crlf text)) ∧
      (run Dialect.mxql {} ⟨0, 0, 0⟩ none () text).report.issues.map key =
        (run Dialect.mxql {} ⟨0, 0, 0⟩ none () (crlf text)).report.issues.map key := by
  intro text
  have hunix : Unix text := ⟨by decide +kernel, by decide +kernel⟩
  exact ⟨hunix, by decide +kernel, alike_crlf Dialect.mxql {} none () text ⟨0, 0, 0⟩ ⟨0, 0, 0⟩ hunix⟩

end Analysis
end QueryLint
