import QueryLint.Proofs.UnknownFields

/-!
What a lookup is asked.

A lookup that writes down its questions and answers serves a check as well as the one it stands for, so
what it has written down afterwards is the course of the check: which categories were asked for, in
which order, and what the answer to each question was.
-/

namespace QueryLint
set_option autoImplicit false

variable {σ : Type}

namespace Lookup

/-- The questions that a lookup was asked, one after the other, each with its answer. -/
abbrev Transcript := List (Text × Finding)

def recorded (lookup : Lookup σ) : Lookup (σ × Transcript) := fun category s =>
  let (finding, source) := lookup category s.1
  (finding, source, s.2 ++ [(category, finding)])

variable (lookup : Lookup σ)

def transcript (s : σ) : List Text → Transcript
  | [] => []
  | category :: categories =>
    (category, (lookup category s).1) :: transcript (lookup category s).2 categories

variable (s : σ)

@[simp] theorem map_fst_transcript (categories : List Text) :
    (lookup.transcript s categories).map Prod.fst = categories := by
  induction categories generalizing s with
  | nil => rfl
  | cons category categories ih => rw [transcript, List.map_cons, ih]

/-- Every answer is what the lookup says once it has been asked for the categories in front. -/
theorem transcript_split {categories : List Text} {front back : Transcript} {category : Text}
    {finding : Finding} (h : lookup.transcript s categories = front ++ (category, finding) :: back) :
    finding = (lookup category (lookup.after s (front.map Prod.fst))).1 := by
  induction front generalizing s categories with
  | nil =>
    cases categories with
    | nil => cases h
    | cons name categories =>
      obtain ⟨heq, -⟩ := List.cons.inj h
      obtain ⟨rfl, rfl⟩ := Prod.mk.inj heq
      rfl
  | cons entry front ih =>
    cases categories with
    | nil => cases h
    | cons name categories =>
      obtain ⟨rfl, htail⟩ := List.cons.inj h
      exact ih _ htail

/-- Where no category is asked for twice, the answers in the transcript are those that are used. -/
theorem answer_of_mem_transcript {categories : List Text} (hnodup : categories.Nodup)
    {entry : Text × Finding} (h : entry ∈ lookup.transcript s categories) :
    lookup.answer s categories entry.1 = entry.2 := by
  obtain ⟨front, back, hsplit⟩ := List.append_of_mem h
  have hcategories : categories = front.map Prod.fst ++ entry.1 :: back.map Prod.fst := by
    rw [← lookup.map_fst_transcript s categories, hsplit, List.map_append, List.map_cons]
  have hfront : entry.1 ∉ front.map Prod.fst := by
    rw [hcategories, List.nodup_append] at hnodup
    exact fun hmem => hnodup.2.2 _ hmem _ List.mem_cons_self rfl
  have hanswer := lookup.answer_split s hfront (back.map Prod.fst)
  rw [← hcategories] at hanswer
  rw [hanswer, ← lookup.transcript_split s hsplit]

theorem after_recorded (earlier : Transcript) (categories : List Text) :
    lookup.recorded.after (s, earlier) categories =
      (lookup.after s categories, earlier ++ lookup.transcript s categories) := by
  induction categories generalizing s earlier with
  | nil => simp [after, transcript]
  | cons category categories ih =>
    have hstep := ih (lookup category s).2 (earlier ++ [(category, (lookup category s).1)])
    rw [List.append_assoc, List.singleton_append] at hstep
    exact hstep

theorem answer_recorded (earlier : Transcript) (categories : List Text) :
    lookup.recorded.answer (s, earlier) categories = lookup.answer s categories := by
  funext category
  rw [answer, after_recorded]
  rfl

end Lookup

namespace Rules.Fields

/-- The categories that the sources of a document name literally: those of the top level, and then those
of the blocks. -/
def literalCategories (d : Document) : List Text :=
  d.scopes.flatMap fun scope => (scope.commands.filter (·.hasRole .source)).filterMap literalCategory?

theorem mentions_eq (cs : List Command) :
    mentions cs = (cs.filter (·.hasRole .source)).filterMap literalCategory? := by
  induction cs with
  | nil => rfl
  | cons c cs ih =>
    rw [mentions, List.flatMap_cons, ← mentions, ih, List.filter_cons]
    split
    · cases hcategory : literalCategory? c <;> simp [hcategory]
    · rfl

theorem categories_eq (d : Document) : categories d = (literalCategories d).eraseDups := by
  simp only [categories, literalCategories, mentions_eq]

def failureEntry? (call : Text × Finding) : Option Log.Entry :=
  (failureReason? call.2).map (Log.lookupFailure call.1)

theorem flatMap_failures {answers : Text → Finding} {calls : Lookup.Transcript}
    (h : ∀ call ∈ calls, answers call.1 = call.2) :
    (calls.map Prod.fst).flatMap (failures answers) = calls.filterMap failureEntry? := by
  induction calls with
  | nil => rfl
  | cons call calls ih =>
    obtain ⟨hcall, hcalls⟩ := List.forall_mem_cons.1 h
    rw [List.map_cons, List.flatMap_cons, ih hcalls, failures, hcall, ← failureEntry?,
      List.filterMap_cons]
    cases failureEntry? call <;> rfl

theorem level_of_failureEntry? {call : Text × Finding} {e : Log.Entry} (h : failureEntry? call = some e) :
    e.level = .warn := by
  obtain ⟨reason, -, rfl⟩ := Option.map_eq_some_iff.1 h
  rfl

/-- Every category is asked for once, when it is named first. Each question that fails is logged, and the
issues are what is said of the commands with the answers that were given. -/
theorem check_recorded (d : Document) (lookup : Lookup σ) (s : σ) :
    let checked := check d lookup s
    ∃ calls : Lookup.Transcript,
      check d lookup.recorded (s, []) = (checked.1, (checked.2.1, calls), checked.2.2) ∧
      (calls.map Prod.fst).Nodup ∧
      calls.map Prod.fst = (literalCategories d).eraseDups ∧
      (∀ front category finding back, calls = front ++ (category, finding) :: back →
        finding = (lookup category (lookup.after s (front.map Prod.fst))).1) ∧
      checked.2.2 = calls.filterMap failureEntry? ∧
      (∀ e ∈ checked.2.2, e.level = .warn) ∧
      ∃ answers : Text → Finding, (∀ call ∈ calls, answers call.1 = call.2) ∧
        checked.1 = (d.scopes.flatMap fun scope =>
          eachAfter (remarks answers d.dialect.implicitFields) [] scope.commands) ∧
        ∀ before c, Judged answers d.dialect.implicitFields before c
          (remarks answers d.dialect.implicitFields before c) := by
  have hnodup : (categories d).Nodup := by
    rw [categories_eq]
    exact nodup_eraseDups _
  have hanswers : ∀ call ∈ lookup.transcript s (categories d),
      lookup.answer s (categories d) call.1 = call.2 :=
    fun call hcall => lookup.answer_of_mem_transcript s hnodup hcall
  have hlog := flatMap_failures hanswers
  rw [lookup.map_fst_transcript] at hlog
  intro checked
  have hchecked : checked = _ := check_eq d lookup s
  refine ⟨lookup.transcript s (categories d), ?_, ?_, ?_, fun front category finding back hsplit => ?_, ?_,
    fun e he => ?_, lookup.answer s (categories d), hanswers, ?_, judged_remarks _ _⟩
  · rw [check_eq, lookup.after_recorded, lookup.answer_recorded, List.nil_append, hchecked]
  · rwa [lookup.map_fst_transcript]
  · rw [lookup.map_fst_transcript, categories_eq]
  · exact lookup.transcript_split s hsplit
  · rw [hchecked]
    exact hlog
  · rw [hchecked] at he
    obtain ⟨call, -, hentry⟩ := List.mem_filterMap.1 (hlog ▸ he)
    exact level_of_failureEntry? hentry
  · rw [hchecked]

/-- A lookup that fails at first and answers later. The top level is served before the block, and the
category that has failed is not asked for again. -/
theorem check_recorded_unsteady :
    let lookup : Lookup Nat := fun _ n => (if n = 0 then .failed "busy" else .found [], n + 1)
    let d := Document.parse Dialect.pipeline
      "BLOCK x\nSOURCE b\nSOURCE a\nEND\nSOURCE $p\nSOURCE a\nPROJECT [y]\nSOURCE a"
    (check d lookup.recorded (0, [])).2.1.2 =
        [(Text.ofString "a", .failed "busy"), (Text.ofString "b", .found [])] ∧
      (check d lookup 0).2.2 = [Log.lookupFailure "a" "busy"] := by
  intro lookup d
  have hcategories : (literalCategories d).eraseDups = [Text.ofString "a", Text.ofString "b"] := by
    decide +kernel
  obtain ⟨calls, hrecorded, -, hnames, hreplies, hlog, -⟩ := check_recorded d lookup 0
  rw [hcategories] at hnames
  obtain ⟨⟨a, first⟩, later, rfl, rfl, hlater⟩ := List.map_eq_cons_iff.1 hnames
  obtain ⟨⟨b, second⟩, rfl, rfl⟩ := List.map_eq_singleton_iff.1 hlater
  obtain rfl : first = .failed "busy" := hreplies [] _ first [_] rfl
  obtain rfl : second = .found [] := hreplies [_] _ second [] rfl
  refine ⟨by rw [hrecorded], ?_⟩
  rw [hlog]
  rfl

end Rules.Fields
end QueryLint
