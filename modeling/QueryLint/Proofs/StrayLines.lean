import QueryLint.Proofs.Boundaries
import QueryLint.Proofs.Options
import QueryLint.Proofs.Partition

/-!
Which stray lines reach a report.

A stray runs to the end of its line, so no two strays share a line. A report names the command
before a stray and the text of the stray, and of findings alike in both it keeps the first. So a
stray is reported on its line unless an earlier one behind the same command has the same text. No
other findings on different lines are taken for one.
-/

namespace QueryLint
set_option autoImplicit false

open Document Issue

namespace Position

theorem line_le_after (p : Position) (t : Text) : p.line ≤ (p.after t).line := by
  induction t generalizing p with
  | nil => exact Nat.le_refl _
  | cons c t ih =>
    have hnext : p.line ≤ (p.next c).line := by
      unfold next
      split <;> simp
    exact Nat.le_trans hnext (ih (p.next c))

end Position

namespace Tokens

theorem line_le_of_mem_strays (p : Position) (count : Nat) (cs : List Chunk) :
    ∀ s ∈ (ofChunks p count cs).strays, p.line ≤ s.start.line := by
  induction cs generalizing p count with
  | nil => simp [ofChunks]
  | cons chunk cs ih =>
    have hlater := fun count s hs => Nat.le_trans (p.line_le_after chunk.text) (ih _ count s hs)
    cases chunk with
    | skipped t => exact hlater count
    | stray t => exact List.forall_mem_cons.2 ⟨Nat.le_refl _, hlater count⟩
    | clause cl => exact hlater (count + 1)

/-- Behind the end of a line, strays are on later lines. -/
theorem line_lt_of_mem_strays {v : Text} (hv : EndsLine v) (isKeyword : Text → Bool) (p : Position)
    (count : Nat) : ∀ s ∈ (ofChunks p count (Chunk.ofText isKeyword v)).strays,
      p.line < s.start.line := by
  rcases hv.cases with rfl | ⟨u, rfl⟩
  · simp [ofChunks]
  · have hcut : Chunk.Cut isKeyword (('\n' : CodeUnit) :: u) [.skipped ['\n']] u := Chunk.cut_first rfl
    rw [hcut.ofText_eq]
    intro s hs
    have hline : (p.after ['\n']).line ≤ s.start.line := line_le_of_mem_strays _ count _ s hs
    exact hline

theorem strays_pairwise_line (isKeyword : Text → Bool) (t : Text) (p : Position) (count : Nat) :
    (ofChunks p count (Chunk.ofText isKeyword t)).strays.Pairwise
      fun s s' => s.start.line < s'.start.line := by
  induction ht : t.length using Nat.strong_induction_on generalizing t p count with
  | _ length ih =>
    subst ht
    cases t with
    | nil => simp [ofChunks]
    | cons c u =>
      have hsplit := Chunk.first_append_drop isKeyword c u
      have hrest := fun p count =>
        ih (u.drop ((Chunk.first isKeyword c u).text.length - 1)).length
          (by rw [List.length_drop, List.length_cons]; omega) _ p count rfl
      rw [Chunk.ofText_cons]
      have hform := Chunk.first_form isKeyword c u
      generalize Chunk.first isKeyword c u = chunk at hsplit hrest hform ⊢
      cases hform with
      | layout => exact hrest _ count
      | lineComment => exact hrest _ count
      | blockComment => exact hrest _ count
      | clause => exact hrest _ (count + 1)
      | stray =>
        refine List.pairwise_cons.2 ⟨fun s hs => ?_, hrest _ count⟩
        have hends := Chunk.endsLine_of_firstLine hsplit.symm
        have hlater := line_lt_of_mem_strays hends isKeyword _ count s hs
        exact Nat.lt_of_le_of_lt (p.line_le_after _) hlater

end Tokens

namespace Issue

def isStray (i : Issue) : Bool := i.code = Rule.code .strayText

theorem filter_isStray {rules : List Rule} {issues : List Issue}
    (h : ∀ i ∈ issues, i.code ∈ rules.map Rule.code) (hrules : Rule.strayText ∉ rules) :
    issues.filter isStray = [] := by
  refine List.filter_eq_nil_iff.2 fun i hi hstray => hrules ?_
  obtain ⟨rule, hrule, hcode⟩ := List.mem_map.1 (h i hi)
  rw [isStray, decide_eq_true_eq, ← hcode, Rule.code_inj] at hstray
  exact hstray ▸ hrule

end Issue

namespace Document
variable (dialect : Dialect) (text : Text)

def strayIssues : List Issue :=
  (Tokens.ofText dialect.isKeyword text).strays.map (strayIssue (parse dialect text).commands)

theorem filter_isStray_parse :
    (parse dialect text).issues.filter isStray = strayIssues dialect text := by
  have hsited := Assembly.sited_ofTokens dialect (Tokens.ofText dialect.isKeyword text).tokens
  have hassembly := filter_isStray (fun i hi => (hsited.issues i hi).code_mem) (by simp [Assembly.rules])
  have hstrays : (strayIssues dialect text).filter isStray = strayIssues dialect text := by
    simp [strayIssues, List.filter_eq_self, isStray, strayIssue]
  refine (List.filter_append _ _).trans ?_
  rw [hassembly]
  exact hstrays

theorem mem_commands_of_scopes {c : Command}
    (hc : c ∈ (parse dialect text).scopes.flatMap Scope.commands) : c ∈ (parse dialect text).commands := by
  have hperm := scopes_perm (parts dialect text)
  rw [← root_parse, ← blocks_parse, ← commands_parse] at hperm
  refine hperm.mem_iff.1 ?_
  simpa [scopes, rootScope, List.flatMap_map, Block.scope] using hc

/-- The index of a command tells the command. -/
theorem eq_of_index_eq {c c' : Command} (hc : c ∈ (parse dialect text).commands)
    (hc' : c' ∈ (parse dialect text).commands) (h : c.index = c'.index) : c = c' := by
  have hnodup := nodup_index_commands dialect text
  rw [← commands_parse] at hnodup
  exact List.inj_on_of_nodup_map hnodup hc hc' h

/-- Strays are taken for one if they have the same text and the same command before them. -/
theorem identity_strayIssue (commands : List Command) (s s' : Stray) :
    (strayIssue commands s).identity = (strayIssue commands s').identity ↔
      s.text = s'.text ∧ s.after = s'.after := by
  have hruled : ∀ s : Stray, (strayIssue commands s).Ruled := fun s => ⟨.strayText, rfl, rfl⟩
  rw [identity_eq_iff (hruled s).zero_not_mem (hruled s').zero_not_mem]
  have hmessage : (strayIssue commands s).message = (strayIssue commands s').message ↔
      s.text = s'.text := by
    simp [strayIssue]
  have hindex : (strayIssue commands s).commandIndex = (strayIssue commands s').commandIndex ↔
      s.after = s'.after := by
    simp only [strayIssue]
    cases s.after <;> cases s'.after <;> (simp; try omega)
  rw [hmessage, hindex]
  simp [strayIssue, and_comm]

end Document

namespace Analysis
variable {σ : Type} (dialect : Dialect) (options : Options) (elapsed : Elapsed)
variable (lookup : Option (Lookup σ)) (s : σ) (text : Text)

theorem findings_cases {i : Issue} (hi : i ∈ (findingsOf dialect text options lookup s).lists.flatten) :
    (∃ stray ∈ (Tokens.ofText dialect.isKeyword text).strays,
      i = strayIssue (parse dialect text).commands stray) ∨
    i = Rules.Structure.emptyQuery ∨ ∃ c ∈ (parse dialect text).commands, i.At c := by
  have hscopes : ∀ {rules : List Rule},
      i.MadeAt rules ((parse dialect text).scopes.flatMap Scope.commands) →
      ∃ c ∈ (parse dialect text).commands, i.At c :=
    fun h => (h.mono fun c hc => mem_commands_of_scopes dialect text hc).located
  simp only [Findings.lists, List.flatten_cons, List.flatten_nil, List.append_nil,
    List.mem_append] at hi
  rcases hi with hi | hi | hi | hi | hi
  · rcases List.mem_append.1 hi with hi | hi
    · rcases issues_parse_cases dialect text hi with hmade | hstray
      · exact .inr (.inr hmade.located)
      · exact .inl hstray
    · split at hi
      · exact .inr (.inl (List.mem_singleton.1 hi))
      · obtain ⟨c, hc, hi⟩ := List.mem_flatMap.1 hi
        obtain ⟨hmade, -⟩ := Rules.Structure.critical_commandIssues c i hi
        exact .inr (.inr (hmade.mono (by simpa using hc)).located)
  · obtain ⟨scope, hscope, c, hc, hat⟩ := Rules.Ordering.issues_at dialect text i hi
    exact .inr (.inr ⟨c, mem_commands_of_scopes dialect text (List.mem_flatMap.2 ⟨scope, hscope, hc⟩), hat⟩)
  · exact .inr (.inr (hscopes (madeAt_fields _ options lookup s i hi)))
  · exact .inr (.inr (hscopes (Rules.Performance.madeAt_issues _ _ _ i hi)))
  · exact .inr (.inr (Rules.Style.madeAt_issues _ i hi).located)

/-- Findings that are taken for one are on one line, unless they are about strays. -/
theorem line_eq_of_identity {i j : Issue}
    (hi : i ∈ (findingsOf dialect text options lookup s).lists.flatten)
    (hj : j ∈ (findingsOf dialect text options lookup s).lists.flatten)
    (h : i.identity = j.identity) :
    i.line = j.line ∨ i.code = Rule.code .strayText ∧ j.code = Rule.code .strayText := by
  have hruled := ruled_findings dialect options lookup s text
  obtain ⟨hindex, hcode, -⟩ :=
    (identity_eq_iff (hruled i hi).zero_not_mem (hruled j hj).zero_not_mem).1 h
  rcases findings_cases dialect options lookup s text hi with ⟨stray, -, rfl⟩ | hi
  · exact .inr ⟨rfl, hcode.symm⟩
  rcases findings_cases dialect options lookup s text hj with ⟨stray, -, rfl⟩ | hj
  · exact .inr ⟨hcode, rfl⟩
  left
  rcases hi with rfl | ⟨c, hc, hci, hline, -⟩
  · rcases hj with rfl | ⟨c', -, hcj, -⟩
    · rfl
    · rw [hcj] at hindex
      exact absurd hindex (by simp [Rules.Structure.emptyQuery, ofQuery])
  · rcases hj with rfl | ⟨c', hc', hcj, hline', -⟩
    · rw [hci] at hindex
      exact absurd hindex (by simp [Rules.Structure.emptyQuery, ofQuery])
    · rw [hci, hcj, Int.natCast_inj] at hindex
      rw [hline, hline', eq_of_index_eq dialect text hc hc' hindex]

theorem filter_isStray_findings :
    (findingsOf dialect text options lookup s).lists.flatten.filter isStray = strayIssues dialect text := by
  have hcommands : ∀ i ∈ (if (parse dialect text).commands.isEmpty then [Rules.Structure.emptyQuery]
      else (parse dialect text).commands.flatMap Rules.Structure.commandIssues),
      i.code ∈ (Rule.emptyQuery :: Rules.Structure.rules).map Rule.code := by
    split
    · simp [Rules.Structure.emptyQuery, ofQuery]
    · intro i hi
      obtain ⟨c, -, hi⟩ := List.mem_flatMap.1 hi
      exact List.mem_cons_of_mem _ (Rules.Structure.critical_commandIssues c i hi).1.code_mem
  have hstructural : (findingsOf dialect text options lookup s).structural.filter isStray =
      strayIssues dialect text := by
    refine (List.filter_append _ _).trans ?_
    rw [filter_isStray_parse, filter_isStray hcommands (by simp [Rules.Structure.rules]), List.append_nil]
  have hordering : (findingsOf dialect text options lookup s).ordering.filter isStray = [] :=
    filter_isStray (fun i hi => (Rules.Ordering.ruled_issues _ i hi).code_mem)
      (by simp [Rules.Ordering.rules])
  have hfields : (findingsOf dialect text options lookup s).fields.filter isStray = [] :=
    filter_isStray (fun i hi => (madeAt_fields _ options lookup s i hi).code_mem)
      (by simp [Rules.Fields.rules])
  have hperformance : (findingsOf dialect text options lookup s).performance.filter isStray = [] :=
    filter_isStray (fun i hi => (Rules.Performance.madeAt_issues _ _ _ i hi).code_mem)
      (by simp [Rules.Performance.rules])
  have hstyle : (findingsOf dialect text options lookup s).style.filter isStray = [] :=
    filter_isStray (fun i hi => (Rules.Style.madeAt_issues _ i hi).code_mem) (by simp [Rules.Style.rules])
  simp only [Findings.lists, List.flatten_cons, List.flatten_nil, List.append_nil, List.filter_append,
    hstructural, hordering, hfields, hperformance, hstyle]

theorem mem_report_isStray (h : Rule.code .strayText ∉ options.disabledRules) (i : Issue) :
    i ∈ (run dialect options elapsed lookup s text).report.issues ∧ i.code = Rule.code .strayText ↔
      i ∈ distinct [] (strayIssues dialect text) := by
  have hmerge := filter_merge (ruled_findings dialect options lookup s text)
    (fun code => code = Rule.code .strayText) options.disabledRules
  have henabled : (strayIssues dialect text).filter (fun i => !options.disabledRules.contains i.code) =
      strayIssues dialect text := by
    simpa [strayIssues, List.filter_eq_self, strayIssue] using fun _ _ => h
  have hfilter : (run dialect options elapsed lookup s text).report.issues.filter isStray =
      (distinct [] (strayIssues dialect text)).mergeSort precedes := by
    refine hmerge.trans ?_
    unfold merge
    rw [← List.filter_flatten]
    exact congrArg (fun issues => (distinct [] issues).mergeSort precedes)
      ((congrArg _ (filter_isStray_findings dialect options lookup s text)).trans henabled)
  have hsorted : i ∈ distinct [] (strayIssues dialect text) ↔
      i ∈ (run dialect options elapsed lookup s text).report.issues.filter isStray := by
    rw [hfilter, List.mem_mergeSort]
  rw [hsorted, List.mem_filter, isStray, decide_eq_true_eq]

theorem strays_split {before behind before' behind' : List Stray} {stray stray' : Stray}
    (h : (Tokens.ofText dialect.isKeyword text).strays = before ++ stray :: behind)
    (h' : (Tokens.ofText dialect.isKeyword text).strays = before' ++ stray' :: behind')
    (hline : stray.start.line = stray'.start.line) : before = before' ∧ stray = stray' := by
  have hsorted := Tokens.strays_pairwise_line dialect.isKeyword text .start 0
  have hsides : ∀ {xs ys : List Stray} {y : Stray},
      (Tokens.ofText dialect.isKeyword text).strays = xs ++ y :: ys →
      (∀ x ∈ xs, decide (y.start.line ≤ x.start.line) = false) ∧
        ∀ z ∈ y :: ys, decide (y.start.line ≤ z.start.line) = true := by
    intro xs ys y hxs
    have hpairwise : (xs ++ y :: ys).Pairwise fun s s' => s.start.line < s'.start.line := hxs ▸ hsorted
    rw [List.pairwise_append, List.pairwise_cons] at hpairwise
    obtain ⟨-, ⟨hys, -⟩, hxy⟩ := hpairwise
    refine ⟨fun x hx => ?_, List.forall_mem_cons.2 ⟨by simp, fun z hz => ?_⟩⟩
    · simpa using hxy x hx y List.mem_cons_self
    · simpa using Nat.le_of_lt (hys z hz)
  obtain ⟨hbefore, hbehind⟩ := hsides h
  obtain ⟨hbefore', hbehind'⟩ := hsides h'
  rw [← hline] at hbefore' hbehind'
  obtain ⟨hfront, hback⟩ := append_inj_of_test (h.symm.trans h') hbefore hbehind hbefore' hbehind'
  exact ⟨hfront, List.head_eq_of_cons_eq hback⟩

/-- A stray is reported on its line unless an earlier one behind the same command has the same text.
Other findings on different lines are never taken for one. -/
theorem stray_reported_iff (h : Rule.code .strayText ∉ options.disabledRules) :
    (∀ before stray behind, (Tokens.ofText dialect.isKeyword text).strays = before ++ stray :: behind →
      ((∃ i ∈ (run dialect options elapsed lookup s text).report.issues,
          i.code = Rule.code .strayText ∧ i.line = stray.start.line) ↔
        ∀ earlier ∈ before, ¬(earlier.text = stray.text ∧ earlier.after = stray.after))) ∧
    ∀ i ∈ (findingsOf dialect text options lookup s).lists.flatten,
      ∀ j ∈ (findingsOf dialect text options lookup s).lists.flatten, i.identity = j.identity →
        i.line = j.line ∨ i.code = Rule.code .strayText ∧ j.code = Rule.code .strayText := by
  refine ⟨fun before stray behind hsplit => ?_, fun i hi j hj => ?_⟩
  · have hmem := mem_report_isStray dialect options elapsed lookup s text h
    constructor
    · rintro ⟨i, hi, hcode, hline⟩ earlier hearlier hsame
      obtain ⟨-, front, back, hissues, hfront⟩ := mem_distinct.1 ((hmem i).1 ⟨hi, hcode⟩)
      obtain ⟨before', rest, hstrays, rfl, hrest⟩ := List.map_eq_append_iff.1 hissues
      obtain ⟨stray', behind', rfl, rfl, -⟩ := List.map_eq_cons_iff.1 hrest
      obtain ⟨rfl, rfl⟩ := strays_split dialect text hsplit hstrays (Int.natCast_inj.1 hline.symm)
      exact hfront _ (List.mem_map_of_mem hearlier) ((identity_strayIssue _ earlier stray).2 hsame)
    · intro hnew
      have hkept : strayIssue (parse dialect text).commands stray ∈ distinct [] (strayIssues dialect text) := by
        refine mem_distinct.2 ⟨by simp, before.map (strayIssue (parse dialect text).commands),
          behind.map (strayIssue (parse dialect text).commands), by simp [strayIssues, hsplit], ?_⟩
        intro j hj hsame
        obtain ⟨earlier, hearlier, rfl⟩ := List.mem_map.1 hj
        exact hnew earlier hearlier ((identity_strayIssue _ earlier stray).1 hsame)
      obtain ⟨hreported, hcode⟩ := (hmem _).2 hkept
      exact ⟨_, hreported, hcode, rfl⟩
  · exact line_eq_of_identity dialect options lookup s text hi hj

theorem stray_reported_again : Rule.code .strayText ∉ ({} : Options).disabledRules ∧
    ∃ i ∈ (run Dialect.pipeline {} ⟨0, 0, 0⟩ none () "SOURCE x\n? a\nLOAD\n? a").report.issues,
      i.code = Rule.code .strayText ∧ i.line = 4 := by
  refine ⟨by simp, ?_⟩
  have hstrays : (Tokens.ofText Dialect.pipeline.isKeyword "SOURCE x\n? a\nLOAD\n? a").strays =
      [⟨"? a", ⟨9, 2, 1⟩, some 0⟩] ++ [⟨"? a", ⟨18, 4, 1⟩, some 1⟩] := by decide +kernel
  exact ((stray_reported_iff Dialect.pipeline {} ⟨0, 0, 0⟩ none () "SOURCE x\n? a\nLOAD\n? a"
    (by simp)).1 _ _ _ hstrays).2 (by decide)

/-- Of two strays alike behind one command only the first is reported. -/
theorem stray_not_reported :
    (Tokens.ofText Dialect.pipeline.isKeyword "SOURCE x\nLOAD\n? a\n? a").strays.map (·.start.line) = [3, 4] ∧
      ¬∃ i ∈ (run Dialect.pipeline {} ⟨0, 0, 0⟩ none () "SOURCE x\nLOAD\n? a\n? a").report.issues,
        i.code = Rule.code .strayText ∧ i.line = 4 := by
  refine ⟨by decide +kernel, ?_⟩
  rintro ⟨i, hi, hcode, hline⟩
  have hkept := (mem_report_isStray _ _ _ _ _ _ (by simp) i).1 ⟨hi, hcode⟩
  have hlines : ∀ i ∈ distinct [] (strayIssues Dialect.pipeline "SOURCE x\nLOAD\n? a\n? a"), i.line ≠ 4 := by
    decide +kernel
  exact hlines i hkept hline

end Analysis
end QueryLint
