import QueryLint.Proofs.Partition
import QueryLint.Proofs.Splice
import QueryLint.Proofs.Verdicts

/-!
Documents that the structural rules pass in silence.

All that the rules find is critical, but for a name that two blocks share. So silence is two things:
nothing critical is found, and the named blocks have names of their own. Openers and closers raise no
complaint if they take turns, whatever stands between them.
-/

namespace QueryLint
set_option autoImplicit false

open Issue Document

namespace Document

def OpenersNamed (cs : List Command) : Prop := ∀ c ∈ cs, c.role? = some .blockOpen → c.Named

theorem openersNamed_plain {c : Command} (h : c.role? ≠ some .blockOpen) (cs : List Command) :
    OpenersNamed (c :: cs) ↔ OpenersNamed cs := by
  simp [OpenersNamed, h]

theorem openersNamed_opener {c : Command} (h : c.role? = some .blockOpen) (cs : List Command) :
    OpenersNamed (c :: cs) ↔ c.Named ∧ OpenersNamed cs := by
  simp [OpenersNamed, h]

/-- Parts are orderly if openers and closers take turns; an open block counts as its opener. -/
theorem orderly_group {st : Option OpenBlock} (hst : ∀ b ∈ st, b.opener.role? = some .blockOpen)
    (cs : List Command) :
    (∀ part ∈ group st cs, part.Orderly) ↔
      OpenersNamed ((st.map OpenBlock.opener).toList ++ cs) ∧
        Alternate (marks ((st.map OpenBlock.opener).toList ++ cs)) := by
  induction cs generalizing st with
  | nil =>
    cases st with
    | none => simp [group, OpenersNamed, marks, Alternate.nil]
    | some b =>
      have hlone : marks [b.opener] = [.blockOpen] := marks_opener [] (hst b rfl)
      simp [group, OpenBlock.part, Part.Orderly, hlone, Alternate.not_opener]
  | cons c cs ih =>
    have hstart (hopen : c.role? = some .blockOpen) :=
      @ih (some (.start c)) fun b hb => by cases hb; exact hopen
    cases st with
    | none =>
      simp only [group, Option.map_none, Option.toList_none, List.nil_append]
      by_cases hopen : c.role? = some .blockOpen
      · rw [if_pos hopen]
        exact hstart hopen
      · rw [if_neg hopen, List.forall_mem_cons, openersNamed_plain hopen, Part.Orderly]
        by_cases hclose : c.role? = some .blockClose
        · simp [hclose, marks_closer, Alternate.not_closer]
        · simpa [hclose, marks_plain cs hopen hclose] using @ih none (by simp)
    | some b =>
      -- behind the opener of `b` the next mark has to be a closer
      have hb := hst b rfl
      simp only [group, Option.map_some, Option.toList_some, List.singleton_append]
      by_cases hopen : c.role? = some .blockOpen
      · simp [hopen, marks_opener, hb, Alternate.not_nested, OpenBlock.part, Part.Orderly]
      · rw [if_neg hopen]
        by_cases hclose : c.role? = some .blockClose
        · rw [if_pos hclose, List.forall_mem_cons, @ih none (by simp), openersNamed_opener hb,
            openersNamed_plain hopen, marks_opener _ hb, marks_closer _ hclose, Alternate.pair_iff]
          simp [OpenBlock.add, OpenBlock.part, Part.Orderly, and_assoc]
        · rw [if_neg hclose, @ih (some (b.add c)) fun b' hb' => by cases hb'; exact hb]
          simp [OpenBlock.add, openersNamed_opener hb, openersNamed_plain hopen, marks_opener _ hb,
            marks_plain cs hopen hclose]

/-- No two blocks share a name, unless it is empty. -/
def NamesDistinct (blocks : List Block) : Prop :=
  blocks.Pairwise fun b b' => b.name = b'.name → b.name = []

theorem namesDistinct_concat (blocks : List Block) (b : Block) :
    NamesDistinct (blocks ++ [b]) ↔
      NamesDistinct blocks ∧ (!b.name.isEmpty && blocks.any fun b' => b'.name = b.name) = false := by
  rw [NamesDistinct, List.pairwise_append]
  refine and_congr_right fun _ => ?_
  simp only [List.pairwise_singleton, List.mem_singleton, forall_eq, true_and]
  cases hname : b.name with
  | nil => simp
  | cons c cs =>
    simp only [List.isEmpty_cons, Bool.not_false, Bool.true_and, List.any_eq_false,
      decide_eq_true_eq]
    refine forall₂_congr fun b' _ => ⟨fun h heq => ?_, fun h heq => absurd heq h⟩
    simpa [heq] using h heq

namespace Assembly

/-- Whatever was found is critical, unless the name of a block repeats. -/
def Grave (a : Assembly) : Prop :=
  (∀ i ∈ a.issues, i.severity = .critical) ↔ NamesDistinct a.blocks

section Grave
variable {a : Assembly} (h : a.Grave)
include h

theorem grave_report {issue : Issue} (hissue : issue.severity = .critical) :
    (a.report issue).Grave := by
  simpa [Grave, report, or_imp, forall_and, hissue] using h

theorem grave_endBlock (b : OpenBlock) (closerIndex : Option Nat) :
    (a.endBlock b closerIndex).Grave := by
  rw [Grave, blocks_endBlock, namesDistinct_concat, endBlock]
  dsimp only
  split
  · rename_i hrepeated
    simp [report, Rule.severity, hrepeated]
  · rename_i hfresh
    rw [Bool.not_eq_true] at hfresh
    rw [hfresh, eq_self, and_true]
    exact h

theorem grave_addOpener (opener : Command) : (a.addOpener opener).Grave := by
  -- the opener may lack a name, after what was found about the block that it ends
  have hname : ∀ {a : Assembly}, a.Grave → ∀ (message : Text) (suggestion : Option Text),
      (if opener.declaredName?.isNone && opener.payload.isSome then
        a.report (.ofCommand opener .missingBlockName message suggestion) else a).Grave := by
    intro a ha message suggestion
    split
    · exact grave_report ha rfl
    · exact ha
  unfold addOpener
  cases a.current with
  | none => exact hname h _ _
  | some b => exact hname (grave_endBlock (grave_report h rfl) b none) _ _

theorem grave_addCloser (closer : Command) : (a.addCloser closer).Grave := by
  unfold addCloser
  cases a.current with
  | none => exact grave_report h rfl
  | some b =>
    refine grave_endBlock ?_ _ _
    exact h

theorem grave_addPlain (c : Command) : (a.addPlain c).Grave := by
  unfold addPlain
  cases a.current <;> exact h

theorem grave_add (dialect : Dialect) (token : Token) : (add dialect a token).Grave := by
  rw [add_eq]
  split
  · exact grave_addOpener h _
  · exact grave_addCloser h _
  · exact grave_addPlain h _

theorem grave_foldl (dialect : Dialect) (tokens : List Token) :
    (tokens.foldl (add dialect) a).Grave := by
  induction tokens generalizing a with
  | nil => exact h
  | cons token tokens ih => exact ih (grave_add h dialect token)

theorem grave_finish : a.finish.Grave := by
  unfold finish
  cases a.current with
  | none => exact h
  | some b => exact grave_endBlock (grave_report h rfl) b none

end Grave

theorem grave_ofTokens (dialect : Dialect) (tokens : List Token) : (ofTokens dialect tokens).Grave := by
  have hstart : start.Grave := by simp [Grave, start, NamesDistinct]
  exact grave_finish (grave_foldl hstart dialect tokens)

end Assembly

end Document

namespace Command

theorem isSome_payload_ofToken (dialect : Dialect) (scope : Option Text) (index : Nat) (token : Token)
    (hdelimiter : (ofToken dialect scope index token).delimiterFault = none)
    (hpayload : (ofToken dialect scope index token).payloadFault = none) :
    (ofToken dialect scope index token).payload.isSome =
      (ofToken dialect scope index token).payloadText.isSome := by
  have hfault : token.fault = none := hdelimiter
  simp only [ofToken, readPayload, hfault] at hpayload ⊢
  cases htext : token.payload with
  | none => rfl
  | some raw =>
    simp only [htext] at hpayload ⊢
    cases hread : Payload.parse raw.text with
    | error fault => simp [hread] at hpayload
    | ok parsed => rfl

theorem exists_token_of_mem {dialect : Dialect} {index : Nat} {tokens : List Token} {c : Command}
    (h : c ∈ ofTokens dialect index tokens) :
    ∃ (i : Nat) (token : Token), c = ofToken dialect none i token := by
  induction tokens generalizing index with
  | nil => cases h
  | cons token tokens ih =>
    rcases List.mem_cons.1 h with rfl | h
    · exact ⟨index, token, rfl⟩
    · exact ih h

end Command

theorem Value.isEmpty_eq_false (v : Value) : v.isEmpty = false ↔ v ≠ .object [] ∧ v ≠ .array [] := by
  cases v <;> simp [isEmpty]

namespace Document

/-- What a text must be for the structural rules to have nothing to say. -/
structure WellFormed (dialect : Dialect) (text : Text) : Prop where
  inhabited : (parse dialect text).commands ≠ []
  unstrayed : (Tokens.ofText dialect.isKeyword text).strays = []
  paired : Alternate (marks (parse dialect text).commands)
  named : ∀ c ∈ (parse dialect text).commands, c.role? = some .blockOpen →
    c.payload.isSome = true → c.declaredName?.isSome = true
  distinct : NamesDistinct (parse dialect text).blocks
  readable : ∀ c ∈ (parse dialect text).commands, c.delimiterFault = none ∧ c.payloadFault = none
  required : ∀ c ∈ (parse dialect text).commands, ∀ spec, c.spec = some spec →
    spec.payload = .required → ∃ v, c.payload = some v ∧ v ≠ .object [] ∧ v ≠ .array []
  excluded : ∀ c ∈ (parse dialect text).commands, ∀ spec, c.spec = some spec →
    spec.payload = .none → c.payloadText = none
  accepted : ∀ c ∈ (parse dialect text).commands, ∀ spec, c.spec = some spec →
    ∀ v, c.payload = some v → spec.accepts ≠ [] → v.shape ∈ spec.accepts

section Parse
variable (dialect : Dialect) (text : Text)

theorem orderly_parts : (∀ part ∈ parts dialect text, part.Orderly) ↔
    OpenersNamed (parse dialect text).commands ∧ Alternate (marks (parse dialect text).commands) := by
  have hroles := map_commands_group Command.role? (fun _ _ => rfl) none (raw dialect text)
  rw [← parts_eq, ← commands_parse, pending, List.nil_append] at hroles
  have hnamed : OpenersNamed (parse dialect text).commands ↔ OpenersNamed (raw dialect text) :=
    forall_raw fun _ _ => Iff.rfl
  rw [hnamed, marks_congr _ hroles, parts_eq]
  exact orderly_group (by simp) (raw dialect text)

theorem isSome_payload : ∀ c ∈ (parse dialect text).commands, c.delimiterFault = none →
    c.payloadFault = none → c.payload.isSome = c.payloadText.isSome := by
  refine (forall_raw fun _ _ => Iff.rfl).2 ?_
  intro c hc
  rw [raw, ← ofTokens_ofChunks dialect 0 0] at hc
  obtain ⟨i, token, rfl⟩ := Command.exists_token_of_mem hc
  exact Command.isSome_payload_ofToken dialect none i token

end Parse

end Document

theorem Issue.eq_nil_iff_mild (found : List Issue) :
    found = [] ↔ Mild found ∧ ∀ i ∈ found, i.severity = .critical := by
  constructor
  · rintro rfl
    simp
  · rintro ⟨hmild, hcritical⟩
    exact List.eq_nil_iff_forall_not_mem.2 fun i hi => hmild i hi (hcritical i hi)

namespace Rules.Structure

/-- What a specification asks of a payload that is read whenever it is there. -/
theorem meets_iff (spec : Spec) {payload : Option Value} {text : Option Text}
    (hread : payload.isSome = text.isSome) : Meets spec payload text ↔
      (spec.payload = .required → ∃ v, payload = some v ∧ v ≠ .object [] ∧ v ≠ .array []) ∧
        (spec.payload = .none → text = none) ∧
        ∀ v, payload = some v → spec.accepts ≠ [] → v.shape ∈ spec.accepts := by
  refine and_congr (imp_congr_right fun _ => ?_) Iff.rfl
  rw [← hread]
  cases payload with
  | none => simp
  | some v => simp [Value.isEmpty_eq_false]

variable (dialect : Dialect) (text : Text)

/-- The only finding that is not critical is about the names of blocks. -/
theorem critical_issues : (∀ i ∈ issues (parse dialect text), i.severity = .critical) ↔
    NamesDistinct (parse dialect text).blocks := by
  have hstrays : ∀ (commands : List Command) (strays : List Stray),
      ∀ i ∈ strays.map (strayIssue commands), i.severity = .critical :=
    fun _ _ => List.forall_mem_map.2 fun _ _ => rfl
  have hcommands : ∀ commands : List Command,
      ∀ i ∈ (if commands.isEmpty then [emptyQuery] else commands.flatMap commandIssues),
        i.severity = .critical := by
    intro commands
    split
    · simp [emptyQuery, ofQuery, Rule.severity]
    · intro i hi
      obtain ⟨c, -, hi⟩ := List.mem_flatMap.1 hi
      exact (critical_commandIssues c i hi).2
  -- beside the findings of the assembly there are those at strays and commands, all of them critical
  refine Iff.trans ?_ (Assembly.grave_ofTokens dialect (Tokens.ofText dialect.isKeyword text).tokens)
  simp only [issues, parse, List.forall_mem_append]
  exact (and_iff_left (hcommands _)).trans (and_iff_left (hstrays _ _))

/-- The structural rules are silent on well-formed texts and on no others. -/
theorem issues_eq_nil_iff : issues (parse dialect text) = [] ↔ WellFormed dialect text := by
  have hread := isSome_payload dialect text
  rw [eq_nil_iff_mild, critical_issues, mild_issues, mild_issues_parse, orderly_parts,
    ← strays_ofChunks .start 0, ne_eq, ← commands_parse_eq_nil]
  simp only [commandIssues_eq_nil]
  constructor
  · rintro ⟨⟨⟨⟨hnamed, hpaired⟩, hstrays⟩, hinhabited, hcommands⟩, hdistinct⟩
    have hmeets := fun c hc spec hspec =>
      (meets_iff spec (hread c hc (hcommands c hc).1 (hcommands c hc).2.1)).1
        ((hcommands c hc).2.2 spec hspec)
    exact {
      inhabited := hinhabited
      unstrayed := hstrays
      paired := hpaired
      named := fun c hc hopen hsome => by simpa [Command.Named, hsome] using hnamed c hc hopen
      distinct := hdistinct
      readable := fun c hc => ⟨(hcommands c hc).1, (hcommands c hc).2.1⟩
      required := fun c hc spec hspec => (hmeets c hc spec hspec).1
      excluded := fun c hc spec hspec => (hmeets c hc spec hspec).2.1
      accepted := fun c hc spec hspec => (hmeets c hc spec hspec).2.2 }
  · intro h
    refine ⟨⟨⟨⟨?_, h.paired⟩, h.unstrayed⟩, h.inhabited, ?_⟩, h.distinct⟩
    · intro c hc hopen
      have hnamed := h.named c hc hopen
      unfold Command.Named
      cases hsome : c.payload.isSome with
      | false => simp
      | true => simpa using hnamed hsome
    · intro c hc
      obtain ⟨hdelimiter, hpayload⟩ := h.readable c hc
      refine ⟨hdelimiter, hpayload, fun spec hspec => ?_⟩
      exact (meets_iff spec (hread c hc hdelimiter hpayload)).2
        ⟨h.required c hc spec hspec, h.excluded c hc spec hspec, h.accepted c hc spec hspec⟩

end Rules.Structure
end QueryLint
