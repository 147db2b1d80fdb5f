import QueryLint.Dialect.Builtin
import QueryLint.Proofs.KeyedRules
import QueryLint.Proofs.Partition
import QueryLint.Proofs.RowData

/-!
The order of the keys in a payload.

The reader rejects an object that has a key twice, so in a payload that was read every key has at most one
entry. Entries in another order are then the same key by key, and no rule tells the difference.
-/

namespace QueryLint
set_option autoImplicit false

/-- A list has at most one element of each key, so its elements of a key are in every order the same. -/
theorem filter_eq_of_perm {α κ : Type} [DecidableEq κ] {key : α → κ} {xs ys : List α} (h : xs.Perm ys)
    (hkeys : (xs.map key).Nodup) (k : κ) : (ys.filter fun y => key y = k) = xs.filter fun x => key x = k := by
  have hperm := h.filter fun x => key x = k
  have hnodup : ((xs.filter fun x => key x = k).map key).Nodup := hkeys.sublist (List.filter_sublist.map key)
  have hkey : ∀ x ∈ xs.filter fun x => key x = k, key x = k :=
    fun x hx => of_decide_eq_true (List.mem_filter.1 hx).2
  generalize (xs.filter fun x => key x = k) = zs at hperm hnodup hkey
  -- Two elements of one key would be one key twice, and a list of one element has no other order.
  match zs with
  | [] => exact hperm.symm.eq_nil
  | [z] => exact List.perm_singleton.1 hperm.symm
  | z :: z' :: zs =>
    have hsame : key z = key z' := (hkey z (by simp)).trans (hkey z' (by simp)).symm
    simp [hsame] at hnodup

namespace Value

/-- Payloads that are the same but for the order of the entries of an object. -/
inductive Reordered : Value → Value → Prop where
  | same (v : Value) : Reordered v v
  | object {entries entries' : List (Key × Value)} : entries.Perm entries' →
      Reordered (.object entries) (.object entries')

theorem Reordered.sameByKey {v v' : Value} (h : v.Reordered v') (hkeys : v.keys.Nodup) : v.SameByKey v' := by
  cases h with
  | same => exact .same v
  | object hperm => exact .object (filter_eq_of_perm hperm hkeys)

end Value

/-- Commands that are the same but for the order of the entries of the payload and how it is written. -/
structure Command.Reordered (c c' : Command) : Prop where
  index : c'.index = c.index
  name : c'.name = c.name
  keyword : c'.keyword = c.keyword
  spec : c'.spec = c.spec
  line : c'.line = c.line
  scope : c'.scope = c.scope
  payload : Option.Rel Value.Reordered c.payload c'.payload
  payloadText : c'.payloadText.isSome = c.payloadText.isSome
  payloadFault : c'.payloadFault = c.payloadFault
  delimiterFault : c'.delimiterFault = c.delimiterFault

def Command.UniqueKeys (c : Command) : Prop := ∀ v, c.payload = some v → v.keys.Nodup

namespace Command.Reordered
variable {c c' : Command}

theorem sameByKey (h : c.Reordered c') (hkeys : c.UniqueKeys) : c.SameByKey c' := by
  refine ⟨h.index, h.name, h.keyword, h.spec, h.line, h.scope, ?_, h.payloadText⟩
  rcases cases_of_rel h.payload with ⟨hnone, hnone'⟩ | ⟨v, v', hsome, hsome', hv⟩
  · rw [hnone, hnone']
    exact .none
  · rw [hsome, hsome']
    exact .some (hv.sameByKey (hkeys v hsome))

theorem within (h : c.Reordered c') (scope : Option Text) :
    Command.Reordered { c with scope } { c' with scope } :=
  ⟨h.index, h.name, h.keyword, h.spec, h.line, rfl, h.payload, h.payloadText, h.payloadFault,
    h.delimiterFault⟩

/-- Tokens with payloads that are read as the same in another order make commands that differ in nothing
else. -/
theorem ofToken (dialect : Dialect) (scope : Option Text) (index : Nat) {k k' : Token} {raw raw' : RawPayload}
    {v v' : Value} {notes notes' : List Payload.Note} (hname : k'.name = k.name)
    (hline : k'.start.line = k.start.line) (hpayload : k.payload = some raw ∧ k'.payload = some raw')
    (hfault : k.fault = none ∧ k'.fault = none) (hparse : Payload.parse raw.text = .ok ⟨v, notes⟩)
    (hparse' : Payload.parse raw'.text = .ok ⟨v', notes'⟩) (hv : v.Reordered v') :
    (Command.ofToken dialect scope index k).Reordered (.ofToken dialect scope index k') := by
  have hreading : readPayload k = some (.ok ⟨v, notes⟩) := by
    simp only [readPayload, hpayload.1, hfault.1, hparse]
  have hreading' : readPayload k' = some (.ok ⟨v', notes'⟩) := by
    simp only [readPayload, hpayload.2, hfault.2, hparse']
  unfold Command.ofToken
  rw [hreading, hreading', hname, hfault.1, hfault.2, hpayload.1, hpayload.2]
  exact ⟨rfl, rfl, rfl, rfl, hline, rfl, .some hv, rfl, rfl, rfl⟩

end Command.Reordered

theorem Command.congruent_reordered : Congruent fun c c' => c.Reordered c' ∧ c.UniqueKeys where
  index h := h.1.index
  role h := (h.1.sameByKey h.2).role?_eq
  name h := h.1.name
  line h := h.1.line
  scope h := h.1.scope
  declaredName h := (h.1.sameByKey h.2).declaredName?_eq
  payload h := by
    rw [← Option.not_isNone, (h.1.sameByKey h.2).payload_isNone_eq, Option.not_isNone]
  within scope h := ⟨h.1.within scope, h.2⟩

theorem Payload.nodup_keys_of_parse {t : Text} {v : Value} {notes : List Note}
    (h : parse t = .ok ⟨v, notes⟩) : v.keys.Nodup := by
  obtain ⟨d, ⟨hd, -⟩, rfl⟩ := exists_derives_of_parse h
  cases hd with
  | @object entries trailing _ hkeys _ =>
    rw [Derivation.value, Derivation.entriesValue_eq, Value.keys, List.map_map]
    exact hkeys
  | array => exact List.nodup_nil
  | quoted => exact List.nodup_nil
  | word hw =>
    rw [Derivation.value]
    cases hw <;> exact List.nodup_nil

namespace Document
variable {dialect : Dialect} {text : Text}

theorem uniqueKeys_raw {c : Command} (hc : c ∈ raw dialect text) : c.UniqueKeys := by
  intro v hv
  obtain ⟨t, notes, hparse⟩ := parse_of_raw_payload hc hv
  exact Payload.nodup_keys_of_parse hparse

theorem uniqueKeys_parse {c : Command} (hc : c ∈ (parse dialect text).commands) : c.UniqueKeys := by
  intro v hv
  obtain ⟨t, notes, hparse⟩ := parse_of_payload hc hv
  exact Payload.nodup_keys_of_parse hparse

theorem Related.imp {R S : Command → Command → Prop} {d d' : Document} (h : d.Related R d')
    (hcommands : ∀ c ∈ d.commands, ∀ c', R c c' → S c c')
    (hscopes : ∀ c ∈ d.scopes.flatMap Scope.commands, ∀ c', R c c' → S c c') : d.Related S d' := by
  refine ⟨h.dialect, forall₂_imp_mem h.commands hcommands, forall₂_imp_mem h.root fun c hc => ?_,
    forall₂_imp_mem h.blocks fun b hb b' hrel => ?_, h.issues⟩
  · exact hscopes c (List.mem_flatMap.2 ⟨d.rootScope, List.mem_cons_self, hc⟩)
  · refine ⟨hrel.name, forall₂_imp_mem hrel.commands fun c hc => ?_, hrel.openerIndex, hrel.closerIndex⟩
    exact hscopes c (List.mem_flatMap.2 ⟨b.scope, List.mem_cons_of_mem _ (List.mem_map_of_mem hb), hc⟩)

theorem related_sameByKey {d' : Document} (h : (parse dialect text).Related Command.Reordered d') :
    (parse dialect text).Related Command.SameByKey d' := by
  have hshared := (divided_parse dialect text).shared
  refine h.imp (fun c hc c' hrel => ?_) fun c hc c' hrel => ?_
  · exact hrel.sameByKey (uniqueKeys_parse hc)
  · exact hrel.sameByKey (uniqueKeys_parse (hshared.mem_iff.1 hc))

/-- Texts whose payloads differ in the order of keys are read as documents that do so, with the same
findings. -/
theorem related_parse_reordered {text' : Text}
    (hcommands : List.Forall₂ Command.Reordered (raw dialect text) (raw dialect text'))
    (hstrays : List.Forall₂ Stray.Agree (Tokens.ofText dialect.isKeyword text).strays
      (Tokens.ofText dialect.isKeyword text').strays) :
    (parse dialect text).Related Command.Reordered (parse dialect text') := by
  have hunique : List.Forall₂ (fun c c' => c.Reordered c' ∧ c.UniqueKeys) (raw dialect text)
      (raw dialect text') :=
    forall₂_imp_mem hcommands fun c hc c' hrel => ⟨hrel, uniqueKeys_raw hc⟩
  rw [raw_eq, raw_eq] at hunique
  have hrelated := parse_related Command.congruent_reordered dialect hunique hstrays
  exact hrelated.imp (fun c _ c' h => h.1) fun c _ c' h => h.1

end Document

/-- A row that is written in another order is read as a payload in another order. -/
theorem SampleRow.parse_payload_perm {row row' : SampleRow} (h : row.Perm row')
    (hkeys : (Record.keys row).Nodup) (hline : row.OneLine) :
    ∃ v v' notes notes', Payload.parse row.payload = .ok ⟨v, notes⟩ ∧
      Payload.parse row'.payload = .ok ⟨v', notes'⟩ ∧ v.Reordered v' := by
  have hkeys' : (Record.keys row').Nodup := (h.map Prod.fst).nodup_iff.1 hkeys
  have hline' : row'.OneLine := fun pair hpair => hline pair (h.mem_iff.2 hpair)
  obtain ⟨notes, hparse⟩ := parse_payload hkeys hline
  obtain ⟨notes', hparse'⟩ := parse_payload hkeys' hline'
  have harranged := ((Record.arranged_perm row).trans h).trans (Record.arranged_perm row').symm
  exact ⟨_, _, notes, notes', hparse, hparse', .object (harranged.map _)⟩

namespace Rules

theorem Structure.commandIssues_reordered {c c' : Command} (h : c.Reordered c') (hkeys : c.UniqueKeys) :
    commandIssues c' = commandIssues c := by
  have hsame := h.sameByKey hkeys
  have hreading : readingIssues c' = readingIssues c := by
    simp only [readingIssues, h.delimiterFault, h.payloadFault, hsame.issue_eq, h.name]
  have hcontract : contractIssues c' = contractIssues c := funext (contractIssues_same hsame)
  rw [commandIssues, hreading, hcontract, h.spec, commandIssues]

theorem Structure.issues_reordered {d d' : Document} (h : d.Related Command.Reordered d')
    (hkeys : ∀ c ∈ d.commands, c.UniqueKeys) : issues d' = issues d := by
  have hsame : List.Forall₂ (fun c c' => commandIssues c' = commandIssues c) d.commands d'.commands :=
    forall₂_imp_mem h.commands fun c hc c' hrel => commandIssues_reordered hrel (hkeys c hc)
  have hcommands : d'.commands.map commandIssues = d.commands.map commandIssues := map_eq_of_forall₂ hsame id
  unfold issues
  rw [h.issues, isEmpty_of_forall₂ h.commands, List.flatMap_def, List.flatMap_def, hcommands]

/-- The order of the keys in a payload makes no difference to a command whose payload has no key twice. No
payload that was read has one twice, so the order makes none to the rules, nor to how a text is put together. -/
theorem blind_to_key_order :
    (∀ (c : Command) (entries entries' : List (Key × Value)), c.payload = some (.object entries) →
      (entries.map (·.1.text)).Nodup → entries.Perm entries' →
      let c' := { c with payload := some (.object entries') }
      c'.declaredName? = c.declaredName? ∧ c'.declaredNameValue? = c.declaredNameValue? ∧
      c'.referencedName? = c.referencedName? ∧ c'.referencedFields = c.referencedFields ∧
      c'.aggregateFunction? = c.aggregateFunction? ∧ c'.timeBucket? = c.timeBucket? ∧
      c'.comparison? = c.comparison? ∧ c'.definedFields = c.definedFields ∧
      ∀ spec, Ordering.forbiddenIssues c' spec = Ordering.forbiddenIssues c spec) ∧
    ∀ (dialect : Dialect) (text : Text),
      (∀ c ∈ (Document.parse dialect text).commands, ∀ entries, c.payload = some (.object entries) →
        (entries.map (·.1.text)).Nodup) ∧
      (∀ d', (Document.parse dialect text).Related Command.Reordered d' →
        Ordering.issues d' = Ordering.issues (Document.parse dialect text) ∧
        (∀ {σ : Type} (lookup : Lookup σ) (s : σ),
          Fields.check d' lookup s = Fields.check (Document.parse dialect text) lookup s) ∧
        (∀ fallback ratio, Performance.issues d' fallback ratio =
          Performance.issues (Document.parse dialect text) fallback ratio) ∧
        Structure.issues d' = Structure.issues (Document.parse dialect text)) ∧
      ∀ text', List.Forall₂ Command.Reordered (Document.raw dialect text) (Document.raw dialect text') →
        List.Forall₂ Stray.Agree (Tokens.ofText dialect.isKeyword text).strays
          (Tokens.ofText dialect.isKeyword text').strays →
        (Document.parse dialect text).Related Command.Reordered (Document.parse dialect text') := by
  refine ⟨fun c entries entries' hpayload hkeys hperm => ?_, fun dialect text => ⟨?_, ?_, ?_⟩⟩
  · have hsame : c.SameByKey { c with payload := some (.object entries') } :=
      ⟨rfl, rfl, rfl, rfl, rfl, rfl, hpayload ▸ .some (.object (filter_eq_of_perm hperm hkeys)), rfl⟩
    exact ⟨hsame.declaredName?_eq, hsame.declaredNameValue?_eq, hsame.referencedName?_eq,
      hsame.referencedFields_eq, hsame.aggregateFunction?_eq, hsame.timeBucket?_eq, hsame.comparison?_eq,
      hsame.definedFields_eq, Ordering.forbiddenIssues_same hsame⟩
  · exact fun c hc entries hpayload => Document.uniqueKeys_parse hc _ hpayload
  · intro d' h
    have hsame := Document.related_sameByKey h
    exact ⟨Ordering.issues_same hsame, fun lookup s => Fields.check_same lookup hsame s,
      Performance.issues_same hsame, Structure.issues_reordered h fun c hc => Document.uniqueKeys_parse hc⟩
  · exact fun text' hcommands hstrays => Document.related_parse_reordered hcommands hstrays

/-- Both keys are forbidden. They are reported in the order of the specification, also where the text has them
the other way round. -/
theorem blind_to_key_order_forbidden :
    let text : Text := "GROUP \x7b'key':'a','value':'b'\x7d"
    let text' : Text := "GROUP \x7b'value':'b','key':'a'\x7d"
    Ordering.issues (Document.parse Dialect.mxql text') = Ordering.issues (Document.parse Dialect.mxql text) ∧
      Structure.issues (Document.parse Dialect.mxql text') =
        Structure.issues (Document.parse Dialect.mxql text) ∧
      (Ordering.issues (Document.parse Dialect.mxql text')).map Issue.message =
        ["GROUP uses 'key' parameter - should use 'pk' instead",
          "GROUP uses 'value' parameter - this is UPDATE syntax, not GROUP",
          "Query has no data-loading command"].map Text.ofString := by
  intro text text'
  let row : SampleRow := [("key", .text "a"), ("value", .text "b")]
  let row' : SampleRow := [("value", .text "b"), ("key", .text "a")]
  have htokens : (Tokens.ofText Dialect.mxql.isKeyword text).tokens =
        [⟨"GROUP", ⟨0, 1, 1⟩, 29, some ⟨row.payload, ⟨6, 1, 7⟩, true⟩, none⟩] ∧
      (Tokens.ofText Dialect.mxql.isKeyword text').tokens =
        [⟨"GROUP", ⟨0, 1, 1⟩, 29, some ⟨row'.payload, ⟨6, 1, 7⟩, true⟩, none⟩] := by decide +kernel
  have hstrays : (Tokens.ofText Dialect.mxql.isKeyword text).strays = [] ∧
      (Tokens.ofText Dialect.mxql.isKeyword text').strays = [] := by decide +kernel
  have hline : row.OneLine := by
    refine List.forall_mem_cons.2 ⟨⟨by decide, ?_⟩, List.forall_mem_cons.2 ⟨⟨by decide, ?_⟩, nofun⟩⟩
    · exact (by decide : CodeUnit.ofChar '\n' ∉ Text.ofString "a")
    · exact (by decide : CodeUnit.ofChar '\n' ∉ Text.ofString "b")
  obtain ⟨v, v', notes, notes', hparse, hparse', hv⟩ :=
    SampleRow.parse_payload_perm (List.Perm.swap _ _ _ : row.Perm row') (by decide) hline
  have hcommands : List.Forall₂ Command.Reordered (Document.raw Dialect.mxql text)
      (Document.raw Dialect.mxql text') := by
    rw [Document.raw_eq, Document.raw_eq, htokens.1, htokens.2]
    exact .cons (.ofToken _ _ _ rfl rfl ⟨rfl, rfl⟩ ⟨rfl, rfl⟩ hparse hparse' hv) .nil
  obtain ⟨-, hblind⟩ := blind_to_key_order
  obtain ⟨-, hissues, hrelated⟩ := hblind Dialect.mxql text
  have hstray : List.Forall₂ Stray.Agree (Tokens.ofText Dialect.mxql.isKeyword text).strays
      (Tokens.ofText Dialect.mxql.isKeyword text').strays := by
    rw [hstrays.1, hstrays.2]
    exact .nil
  obtain ⟨hordering, -, -, hstructure⟩ := hissues _ (hrelated text' hcommands hstray)
  refine ⟨hordering, hstructure, ?_⟩
  rw [hordering]
  decide +kernel

end Rules
end QueryLint
