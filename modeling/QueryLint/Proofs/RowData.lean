import QueryLint.Proofs.Commands
import QueryLint.Proofs.Notation
import QueryLint.Proofs.Samples
import QueryLint.Proofs.Splice

/-!
Sample rows as plain data.

The numbers of a row are positive, so every finite one is read back from its notation, and the
payload of a row is the row again as plain data.
-/

namespace QueryLint
set_option autoImplicit false

open Payload

namespace Payload

theorem number_of_wellFormed {d : Derivation} (h : d.WellFormed) {x : Number} {raw : Text}
    (hvalue : d.value = .number x raw) : Number.ofLiteral? raw = some x := by
  cases h with
  | object => simp [Derivation.value] at hvalue
  | array => simp [Derivation.value] at hvalue
  | quoted => simp [Derivation.value] at hvalue
  | word hw =>
    rw [Derivation.value] at hvalue
    subst hvalue
    cases hw with
    | number hn => exact hn

theorem number_of_first? {t : Text} {parsed : Parsed} (h : parse t = .ok parsed) {keys : List Text}
    {key raw : Text} {x : Number} (hfirst : parsed.value.first? keys = some (key, .number x raw)) :
    Number.ofLiteral? raw = some x := by
  obtain ⟨d, ⟨hd, -⟩, hvalue⟩ := exists_derives_of_parse h
  obtain ⟨k, -, hk⟩ := List.exists_of_findSome?_eq_some hfirst
  rw [← hvalue] at hk
  cases hd with
  | @object entries trailing hentries =>
    rw [Derivation.value, Derivation.entriesValue_eq] at hk
    simp only [Value.get?, Option.map_map, Option.map_eq_some_iff] at hk
    obtain ⟨entry, hfind, heq⟩ := hk
    obtain ⟨source, hsource, rfl⟩ := List.mem_map.1 (List.mem_of_find?_eq_some hfind)
    simp only [Function.comp_apply, Prod.mk.injEq] at heq
    exact number_of_wellFormed (hentries source hsource) heq.2
  | array => simp [Derivation.value, Value.get?] at hk
  | quoted => simp [Derivation.value, Value.get?] at hk
  | @word text meaning hw =>
    rw [Derivation.value] at hk
    cases hw <;> simp [Value.get?] at hk

end Payload

theorem parse_of_raw_payload {dialect : Dialect} {text : Text} {c : Command}
    (hc : c ∈ Document.raw dialect text) {v : Value} (hv : c.payload = some v) :
    ∃ t notes, Payload.parse t = .ok ⟨v, notes⟩ := by
  obtain ⟨front, back, hsplit⟩ := List.append_of_mem hc
  obtain ⟨pre, cl, post, -, -, rfl, -⟩ := commandsOf_split dialect hsplit
  obtain ⟨name, gap, payload, tail⟩ := cl
  cases payload with
  | none => simp [Command.ofClause, Token.ofClause, Command.ofToken, Command.readPayload] at hv
  | some payload =>
    obtain ⟨t, bracketed, fault⟩ := payload
    cases fault with
    | some fault => simp [Command.ofClause, Token.ofClause, Command.ofToken, Command.readPayload] at hv
    | none =>
      cases hparse : Payload.parse t with
      | error fault =>
        simp [Command.ofClause, Token.ofClause, Command.ofToken, Command.readPayload, hparse] at hv
      | ok parsed =>
        simp only [Command.ofClause, Token.ofClause, Command.ofToken, Command.readPayload, hparse,
          Option.some.injEq] at hv
        exact ⟨t, parsed.notes, by rw [hparse, ← hv]⟩

theorem parse_of_payload {dialect : Dialect} {text : Text} {c : Command}
    (hc : c ∈ (Document.parse dialect text).commands) {v : Value} (hv : c.payload = some v) :
    ∃ t notes, Payload.parse t = .ok ⟨v, notes⟩ := by
  have hmap := Document.map_commands_group Command.payload (fun _ _ => rfl) none
    (Document.raw dialect text)
  rw [← Document.parts_eq, ← Document.commands_parse, Document.pending, List.nil_append] at hmap
  have hmem : some v ∈ (Document.raw dialect text).map Command.payload := by
    rw [← hmap, ← hv]
    exact List.mem_map_of_mem hc
  obtain ⟨c', hc', hv'⟩ := List.mem_map.1 hmem
  exact parse_of_raw_payload hc' hv'

namespace Number

theorem unsigned_ofDecimal (d : Decimal) : (ofDecimal false d).Unsigned := by
  unfold ofDecimal
  dsimp only
  split
  · exact ⟨rfl, le_rfl⟩
  · split
    · rfl
    · split
      · exact ⟨rfl, le_rfl⟩
      · exact unsigned_round d.value_nonneg

theorem isPositive_ofDecimal_negative (d : Decimal) : (ofDecimal true d).isPositive = false := by
  have hzero : (0 : Number) = finite false 0 := ofNat_eq (by norm_num)
  have hfinite : ∀ m : ℚ, 0 ≤ m → (finite true m).isPositive = false := by
    intro m hm
    have hnot : ¬0 < -m := by linarith
    rw [isPositive, hzero]
    exact decide_eq_false hnot
  have hinfinite : (infinite true).isPositive = false := by
    rw [isPositive, hzero]
    rfl
  unfold ofDecimal
  dsimp only
  split
  · exact hfinite 0 le_rfl
  · split
    · exact hinfinite
    · split
      · exact hfinite 0 le_rfl
      · unfold round
        split
        · exact hinfinite
        · exact hfinite _ (nearest_nonneg d.value_nonneg)

theorem unsigned_of_literal {raw : Text} {x : Number} (h : ofLiteral? raw = some x)
    (hx : x.isPositive = true) : x.Unsigned := by
  unfold ofLiteral? at h
  split at h
  · cases h
  · split at h
    · obtain ⟨n, -, rfl⟩ := Option.map_eq_some_iff.1 h
      rw [isPositive_ofDecimal_negative] at hx
      cases hx
    · obtain ⟨n, -, rfl⟩ := Option.map_eq_some_iff.1 h
      exact unsigned_ofDecimal _

end Number

theorem Duration.unsigned_ofText? {t : Text} {ms : Number} (h : Duration.ofText? t = some ms) :
    ms.Unsigned := by
  unfold ofText? at h
  split at h
  · rename_i number unit hsplit
    have hms : number * Number.ofNat unit.milliseconds = ms := by
      unfold positive? at h
      split at h
      · exact Option.some.inj h
      · cases h
    have hread : ∀ (whole : Text) (fraction : Option Text) (rest : Text),
        (if (whole.isEmpty || decide (fraction = some [])) = true then none
        else if (rest.dropWhile CodeUnit.isSpace).isEmpty = true then
          some (Number.ofDecimal false (Numeral.toDecimal ⟨whole, fraction, none⟩), TimeUnit.millisecond)
        else (TimeUnit.ofSymbol? (rest.dropWhile CodeUnit.isSpace)).map fun u =>
          (Number.ofDecimal false (Numeral.toDecimal ⟨whole, fraction, none⟩), u)) =
            some (number, unit) → number.Unsigned := by
      intro whole fraction rest heq
      split at heq
      · cases heq
      · split at heq
        · cases heq
          exact Number.unsigned_ofDecimal _
        · obtain ⟨u, -, hu⟩ := Option.map_eq_some_iff.1 heq
          cases hu
          exact Number.unsigned_ofDecimal _
    have hnumber : number.Unsigned := hread _ _ _ hsplit
    rw [← hms]
    exact hnumber.mul (Number.unsigned_ofNat _)
  · cases h

theorem Samples.unsigned_timeStep? {dialect : Dialect} {text : Text} {step : Number}
    (h : Samples.timeStep? (Document.parse dialect text) = some step) : step.Unsigned := by
  obtain ⟨bucket, hbucket, rfl⟩ := Option.map_eq_some_iff.1 h
  obtain ⟨c, hc, hproperty⟩ := List.exists_of_findSome?_eq_some hbucket
  cases hduration : Duration.ofValue? bucket with
  | none => exact Number.unsigned_ofNat _
  | some ms =>
    rw [Option.getD_some]
    unfold Duration.ofValue? at hduration
    split at hduration
    · rename_i x raw
      unfold Command.timeBucket? Command.property? at hproperty
      split at hproperty
      · rename_i payload spec hpayload hspec
        obtain ⟨⟨key, value⟩, hfirst, rfl⟩ := Option.map_eq_some_iff.1 hproperty
        obtain ⟨t, notes, hparse⟩ := parse_of_payload (List.mem_filter.1 hc).1 hpayload
        have hliteral := Payload.number_of_first? hparse hfirst
        unfold Duration.positive? at hduration
        split at hduration
        · rename_i hpositive
          cases hduration
          exact Number.unsigned_of_literal hliteral hpositive
        · cases hduration
      · cases hproperty
    · obtain ⟨t, -, ht⟩ := Option.bind_eq_some_iff.1 hduration
      exact Duration.unsigned_ofText? ht

theorem Series.ofName_bounds (name : Text) :
    (1 ≤ (Series.ofName name).base ∧ (Series.ofName name).base ≤ 1000) ∧
      1 ≤ (Series.ofName name).step ∧ (Series.ofName name).step ≤ 10 := by
  unfold Series.ofName
  dsimp only
  repeat' split
  all_goals decide

theorem Samples.positive_of_mem_row {fields : List Field} {types : Record FieldType} {timeField : Text}
    {step : Option Number} {i : Nat} (hstep : ∀ s ∈ step, s.Unsigned) {pair : Text × Sample}
    (h : pair ∈ Samples.row fields types timeField step i) {x : Number} (hx : pair.2 = .number x) :
    x.Positive := by
  obtain ⟨-, ⟨s, hs, rfl⟩ | ⟨f, -, rfl⟩⟩ := Samples.mem_row h
  · cases hx
    have hfirst : Samples.firstTime = .finite false 1700000000000 :=
      Number.ofNat_eq (by norm_num)
    rw [hfirst]
    exact Number.positive_add (by norm_num) ((Number.unsigned_ofNat i).mul (hstep s hs))
  · generalize (Record.get? types f.name).getD .string = type at hx
    cases type with
    | string => cases hx
    | number =>
      cases hx
      obtain ⟨⟨hlow, hhigh⟩, -⟩ := Series.ofName_bounds f.name
      rw [Number.ofNat_eq (hhigh.trans (by norm_num))]
      exact Number.positive_add (by exact_mod_cast hlow)
        ((Number.unsigned_ofNat i).mul (Number.unsigned_ofNat _))

namespace Sample

/-- The plain data of a sample once it was written and read: numbers that are not finite are words. -/
def readBack : Sample → Json
  | number x => if x.isFinite then .number x else .text x.toText
  | text t => .text t

theorem plain_value {v : Sample} (h : ∀ x, v = .number x → x.Positive) : v.value.plain = v.readBack := by
  cases v with
  | text t => simp [value, Value.plain, readBack]
  | number x =>
    have hx := h x rfl
    cases x with
    | nan =>
      have hword : classify Number.nan.toText = .bare Number.nan.toText := by
        rw [← wordValue_iff_classify]
        exact .bare (by decide) (by decide) (by decide) (by decide +kernel)
      simp [value, hword, Value.plain, readBack, Number.isFinite]
    | infinite negative =>
      obtain rfl : negative = false := hx
      have hword : classify (Number.infinite false).toText = .bare (Number.infinite false).toText := by
        rw [← wordValue_iff_classify]
        exact .bare (by decide) (by decide) (by decide) (by decide +kernel)
      simp [value, hword, Value.plain, readBack, Number.isFinite]
    | finite negative m =>
      obtain ⟨rfl, hm, hgrid, hbound⟩ := hx
      have hword : classify (Number.finite false m).toText =
          .number (.finite false m) (Number.finite false m).toText := by
        rw [← wordValue_iff_classify]
        exact .number (Number.ofLiteral?_toText hm hgrid hbound)
      simp [value, hword, Value.plain, readBack, Number.isFinite]

end Sample

theorem Value.plainEntries_eq {entries : List (Key × Value)} {out : Record Json}
    (hnodup : (Record.keys out ++ entries.map (·.1.text)).Nodup)
    (hkeys : ∀ entry ∈ entries, entry.1.text ≠ Record.reservedKey) :
    Value.plainEntries entries out = out ++ entries.map fun entry => (entry.1.text, entry.2.plain) := by
  induction entries generalizing out with
  | nil => simp [Value.plainEntries]
  | cons entry entries ih =>
    obtain ⟨key, v⟩ := entry
    have hkey : key.text ∉ Record.keys out := by
      intro hmem
      rw [List.map_cons, List.nodup_append] at hnodup
      exact hnodup.2.2 _ hmem _ List.mem_cons_self rfl
    have hset : Record.assign key.text v.plain out = out ++ [(key.text, v.plain)] := by
      rw [Record.assign, if_neg (hkeys _ List.mem_cons_self), Record.set_of_not_mem hkey]
    rw [Value.plainEntries, hset, ih ?_ fun e he => hkeys e (List.mem_cons_of_mem _ he)]
    · simp
    · simpa [Record.keys] using hnodup

theorem SampleRow.plain_value {row : SampleRow} (harranged : Record.arranged row = row)
    (hnodup : (Record.keys row).Nodup) (hkeys : ∀ pair ∈ row, pair.1 ≠ Record.reservedKey)
    (hnumbers : ∀ pair ∈ row, ∀ x, pair.2 = .number x → x.Positive) :
    (SampleRow.value row).plain = .object (row.map fun pair => (pair.1, pair.2.readBack)) := by
  have hentries : Value.plainEntries (row.map fun pair => (key pair, pair.2.value)) [] =
      row.map fun pair => (pair.1, pair.2.readBack) := by
    rw [Value.plainEntries_eq]
    · rw [List.nil_append, List.map_map]
      refine List.map_congr_left fun pair hpair => ?_
      simp [key, Sample.plain_value (hnumbers pair hpair)]
    · simpa [Record.keys, Function.comp_def, key] using hnodup
    · intro entry hentry
      obtain ⟨pair, hpair, rfl⟩ := List.mem_map.1 hentry
      exact hkeys pair hpair
  rw [SampleRow.value, Value.plain, hentries, Record.arranged_map fun pair : Text × Sample => pair.2.readBack,
    harranged]

end QueryLint
