import QueryLint.Dialect.Builtin
import QueryLint.Proofs.FieldReferences
import QueryLint.Proofs.RowData
import QueryLint.Proofs.WholeNumbers

/-!
Sample rows column by column.

A row has a value for every field and, when the query groups by time, one for the time. Down a column texts
are numbered and numbers grow, since whole numbers below 2 ^ 53 are added and multiplied without rounding.
-/

namespace QueryLint
set_option autoImplicit false

namespace Record
variable {α γ : Type}

/-- Where the values go by the keys, a key that is taken has its value. -/
theorem get?_foldl_assign (key : γ → Text) (f : Text → α) (xs : List γ) (r : Record α) (k : Text) :
    get? (xs.foldl (fun r x => assign (key x) (f (key x)) r) r) k =
      if k ∈ xs.map key ∧ k ≠ reservedKey then some (f k) else get? r k := by
  induction xs generalizing r with
  | nil => simp
  | cons x xs ih =>
    rw [List.foldl_cons, ih, get?_assign, List.map_cons]
    by_cases hx : k = key x
    · subst hx
      by_cases hreserved : key x = reservedKey <;> simp [hreserved]
    · simp [hx]

end Record

theorem Duration.isPositive_of_ofValue? {v : Value} {ms : Number} (h : Duration.ofValue? v = some ms) :
    ms.isPositive = true := by
  have hpositive : ∀ {x : Number}, positive? x = some ms → ms.isPositive = true := by
    intro x hx
    unfold positive? at hx
    split at hx
    · rename_i hpos
      cases hx
      exact hpos
    · cases hx
  unfold ofValue? at h
  split at h
  · exact hpositive h
  · obtain ⟨t, -, ht⟩ := Option.bind_eq_some_iff.1 h
    unfold ofText? at ht
    split at ht
    · exact hpositive ht
    · cases ht

namespace Samples

def GroupsByTime (d : Document) : Prop := ∃ c ∈ d.commands, c.hasRole .group ∧ c.timeBucket?.isSome

theorem isSome_timeStep? (d : Document) : (timeStep? d).isSome = true ↔ GroupsByTime d := by
  simp [timeStep?, GroupsByTime, List.findSome?_isSome_iff, and_assoc]

theorem isPositive_timeStep? {d : Document} {step : Number} (h : timeStep? d = some step) :
    step.isPositive = true := by
  obtain ⟨bucket, -, rfl⟩ := Option.map_eq_some_iff.1 h
  cases hduration : Duration.ofValue? bucket with
  | none => exact Number.ofNat_lt (by norm_num : 0 < 60000) (by norm_num)
  | some ms => exact Duration.isPositive_of_ofValue? hduration

end Samples

namespace Samples
variable {fields : List Field} {types : Record FieldType} {timeField : Text} {step : Option Number}
  {i : Nat}

theorem get?_row (k : Text) : Record.get? (row fields types timeField step i) k =
    if (∃ f ∈ fields, f.name = k ∧ ¬(step.isSome = true ∧ k = timeField)) ∧ k ≠ Record.reservedKey then
      some (.ofField k ((Record.get? types k).getD .string) i)
    else if k = timeField ∧ timeField ≠ Record.reservedKey then
      step.map fun s => .number (firstTime + Number.ofNat i * s)
    else none := by
  have hnodup := ((Record.arranged_perm _).map Prod.fst).nodup_iff.1
    (nodup_keys_row fields types timeField step i)
  have htaken : k ∈ (fields.filter fun f => !(step.isSome && f.name = timeField)).map Field.name ↔
      ∃ f ∈ fields, f.name = k ∧ ¬(step.isSome = true ∧ k = timeField) := by
    simp only [List.mem_map, List.mem_filter, Bool.not_eq_true', ← Bool.not_eq_true, Bool.and_eq_true,
      decide_eq_true_eq]
    constructor
    · rintro ⟨f, ⟨hf, hother⟩, rfl⟩
      exact ⟨f, hf, rfl, hother⟩
    · rintro ⟨f, hf, rfl, hother⟩
      exact ⟨f, ⟨hf, hother⟩, rfl⟩
  -- A field of the name of the time is left out, so the loop over the fields keeps the time.
  unfold row
  rw [Record.get?_arranged hnodup, Record.get?_foldl_assign Field.name
    (fun k => Sample.ofField k ((Record.get? types k).getD .string) i)]
  simp only [htaken]
  refine ite_congr rfl (fun _ => rfl) fun _ => ?_
  cases step with
  | none => simp [Record.get?]
  | some s => rw [Record.get?_assign]; rfl

theorem get?_row_time {s : Number} (htime : timeField ≠ Record.reservedKey) :
    Record.get? (row fields types timeField (some s) i) timeField =
      some (.number (firstTime + Number.ofNat i * s)) := by
  rw [get?_row, if_neg (by simp), if_pos ⟨rfl, htime⟩, Option.map_some]

theorem get?_row_field {f : Field} (hf : f ∈ fields) (hname : f.name ≠ Record.reservedKey)
    (hother : ¬(step.isSome = true ∧ f.name = timeField)) :
    Record.get? (row fields types timeField step i) f.name =
      some (.ofField f.name ((Record.get? types f.name).getD .string) i) := by
  rw [get?_row, if_pos ⟨⟨f, hf, rfl, hother⟩, hname⟩]

end Samples

namespace Sample

theorem ofField_number (name : Text) {i : Nat} (hi : i < 2 ^ 32) : ofField name .number i =
    number (.ofNat ((Series.ofName name).base + i * (Series.ofName name).step)) := by
  obtain ⟨⟨-, hbase⟩, -, hstep⟩ := Series.ofName_bounds name
  have hproduct : i * (Series.ofName name).step ≤ 2 ^ 32 * 10 := Nat.mul_le_mul hi.le hstep
  rw [ofField, Number.ofNat_mul (by omega) (by omega), Number.ofNat_add (by omega) (by omega)]

theorem exists_number_iff (name : Text) (type : FieldType) (i : Nat) :
    (∃ x, ofField name type i = number x) ↔ type = .number := by
  cases type <;> simp [ofField]

end Sample

namespace SampleRow

/-- Two rows have numbers under a key, and the second has the greater one. -/
def Grows (key : Text) (r r' : SampleRow) : Prop :=
  ∃ x y, Record.get? r key = some (.number x) ∧ Record.get? r' key = some (.number y) ∧ x.lt y

def Differ (key : Text) (r r' : SampleRow) : Prop :=
  ∃ s t, Record.get? r key = some (.text s) ∧ Record.get? r' key = some (.text t) ∧ s ≠ t

end SampleRow

namespace Samples

theorem pairwise_range_map {α : Type} {R : α → α → Prop} {f : Nat → α} {n : Nat}
    (h : ∀ i j, i < j → j < n → R (f i) (f j)) : ((List.range n).map f).Pairwise R := by
  refine List.pairwise_map.2 (List.Pairwise.imp_of_mem ?_ List.pairwise_lt_range)
  intro i j _ hj hij
  exact h i j hij (List.mem_range.1 hj)

section
variable {fields : List Field} {types : Record FieldType} {timeField : Text} {step : Option Number}
variable {f : Field} (hf : f ∈ fields) (hname : f.name ≠ Record.reservedKey)
variable (hother : ¬(step.isSome = true ∧ f.name = timeField))
include hf hname hother

theorem grows_row_field (htype : Record.get? types f.name = some .number) {i j : Nat} (hij : i < j)
    (hj : j < 2 ^ 32) : SampleRow.Grows f.name (row fields types timeField step i)
      (row fields types timeField step j) := by
  have hvalue : ∀ k < 2 ^ 32, Record.get? (row fields types timeField step k) f.name =
      some (.number (.ofNat ((Series.ofName f.name).base + k * (Series.ofName f.name).step))) := by
    intro k hk
    rw [get?_row_field hf hname hother, htype, Option.getD_some, Sample.ofField_number _ hk]
  obtain ⟨⟨-, hbase⟩, hstep⟩ := Series.ofName_bounds f.name
  have hless : i * (Series.ofName f.name).step < j * (Series.ofName f.name).step :=
    Nat.mul_lt_mul_of_pos_right hij hstep.1
  have hbound : j * (Series.ofName f.name).step ≤ 2 ^ 32 * 10 := Nat.mul_le_mul hj.le hstep.2
  refine ⟨_, _, hvalue i (hij.trans hj), hvalue j hj, ?_⟩
  exact Number.ofNat_lt (Nat.add_lt_add_left hless _) (by omega)

theorem differ_row_field (htype : Record.get? types f.name = some .string) {i j : Nat} (hij : i ≠ j) :
    SampleRow.Differ f.name (row fields types timeField step i) (row fields types timeField step j) := by
  have hvalue : ∀ i, Record.get? (row fields types timeField step i) f.name =
      some (.text ("sample-" ++ Text.ofNat (i + 1))) := by
    intro i
    rw [get?_row_field hf hname hother, htype]
    rfl
  refine ⟨_, _, hvalue i, hvalue j, fun heq => hij ?_⟩
  exact Nat.succ_injective (Text.ofNat_injective (List.append_cancel_left heq))

end

theorem grows_row_time {fields : List Field} {types : Record FieldType} {timeField : Text} {step : Nat}
    (htime : timeField ≠ Record.reservedKey) (hstep : 0 < step) {n i j : Nat} (hij : i < j) (hj : j < n)
    (hbound : 1700000000000 + n * step < 2 ^ 53) :
    SampleRow.Grows timeField (row fields types timeField (some (.ofNat step)) i)
      (row fields types timeField (some (.ofNat step)) j) := by
  have hless : i * step < j * step := Nat.mul_lt_mul_of_pos_right hij hstep
  have hproduct : j * step ≤ n * step := Nat.mul_le_mul_right _ hj.le
  have hrows : n ≤ n * step := Nat.le_mul_of_pos_right _ hstep
  have hsteps : step ≤ n * step := Nat.le_mul_of_pos_left _ (by omega)
  have htimes : ∀ k ≤ j, firstTime + Number.ofNat k * Number.ofNat step =
      Number.ofNat (1700000000000 + k * step) := by
    intro k hk
    have hle : k * step ≤ j * step := Nat.mul_le_mul_right _ hk
    rw [Number.ofNat_mul (by omega) (by omega)]
    exact Number.ofNat_add (by norm_num) (by omega)
  refine ⟨_, _, get?_row_time htime, get?_row_time htime, ?_⟩
  rw [htimes i hij.le, htimes j le_rfl]
  exact Number.ofNat_lt (Nat.add_lt_add_left hless _) (by omega)

theorem get?_types (d : Document) (count : Option Number) (name : Text) :
    Record.get? (ofDocument d count).types name =
      if (timeStep? d).isSome = true ∧ name = d.dialect.timeField then some .number
      else Record.get? (Field.types d) name := by
  unfold ofDocument
  dsimp only
  cases (timeStep? d).isSome with
  | false => simp
  | true => simp [Record.get?_set]

theorem rows_ofDocument (d : Document) {n : Nat} (hn : n < 2 ^ 32) :
    (ofDocument d (some (.ofNat n))).rows = (List.range n).map
      (row (Field.ofDocument d) (Field.types d) d.dialect.timeField (timeStep? d)) := by
  unfold ofDocument
  rw [Option.getD_some, Number.countBelow?_ofNat (hn.le.trans (by norm_num)), Option.getD_some]

theorem number_iff_of_mem_row {d : Document} (count : Option Number) {i : Nat} {pair : Text × Sample}
    (h : pair ∈ row (Field.ofDocument d) (Field.types d) d.dialect.timeField (timeStep? d) i) :
    (∃ x, pair.2 = .number x) ↔ Record.get? (ofDocument d count).types pair.1 = some .number := by
  obtain ⟨key, v⟩ := pair
  have hvalue := (Record.get?_eq_some_iff (nodup_keys_row _ _ _ _ i)).2 h
  rw [get?_row] at hvalue
  rw [get?_types]
  by_cases htimed : (timeStep? d).isSome = true ∧ key = d.dialect.timeField
  · obtain ⟨step, hstep⟩ := Option.isSome_iff_exists.1 htimed.1
    rw [if_neg fun hfield => hfield.1.elim fun f hf => hf.2.2 htimed] at hvalue
    split at hvalue
    · rw [hstep, Option.map_some, Option.some.injEq] at hvalue
      rw [if_pos htimed, ← hvalue]
      exact ⟨fun _ => rfl, fun _ => ⟨_, rfl⟩⟩
    · cases hvalue
  · rw [if_neg htimed]
    split at hvalue
    · cases hvalue
      rw [Sample.exists_number_iff]
      cases Record.get? (Field.types d) key <;> simp
    · split at hvalue
      · rename_i htime
        have hstep : timeStep? d = none :=
          Option.not_isSome_iff_eq_none.1 fun hsome => htimed ⟨hsome, htime.1⟩
        rw [hstep] at hvalue
        cases hvalue
      · cases hvalue

/-- A row has a value for every field and the time when the query groups by time, a number where the type
says so. Down the rows texts differ and numbers grow. The time is a number whatever else the query does with
its field, and it grows while it stays exact. -/
theorem ofDocument_columns {d : Document} {n : Nat} (hn : n < 2 ^ 32)
    (htime : d.dialect.timeField ≠ Record.reservedKey)
    (hfields : ∀ f ∈ Field.ofDocument d, f.name ≠ Record.reservedKey) :
    let made := ofDocument d (some (.ofNat n))
    made.rows.length = n ∧
    (∀ row ∈ made.rows, (Record.keys row).Nodup ∧
      (∀ key, key ∈ Record.keys row ↔
        (∃ f ∈ Field.ofDocument d, f.name = key) ∨ (GroupsByTime d ∧ key = d.dialect.timeField)) ∧
      ∀ pair ∈ row, (∃ x, pair.2 = .number x) ↔ Record.get? made.types pair.1 = some .number) ∧
    (∀ f ∈ Field.ofDocument d, Record.get? made.types f.name = some .string →
      made.rows.Pairwise (SampleRow.Differ f.name)) ∧
    (∀ f ∈ Field.ofDocument d, Record.get? made.types f.name = some .number →
      ¬(GroupsByTime d ∧ f.name = d.dialect.timeField) → made.rows.Pairwise (SampleRow.Grows f.name)) ∧
    (GroupsByTime d → (∀ row ∈ made.rows, ∃ x, Record.get? row d.dialect.timeField = some (.number x)) ∧
      ∀ step : Nat, timeStep? d = some (.ofNat step) → 1700000000000 + n * step < 2 ^ 53 →
        made.rows.Pairwise (SampleRow.Grows d.dialect.timeField)) := by
  intro made
  have hrows := rows_ofDocument d hn
  refine ⟨by rw [hrows, List.length_map, List.length_range], ?_, ?_, ?_, ?_⟩
  · intro row hrow
    rw [hrows] at hrow
    obtain ⟨i, -, rfl⟩ := List.mem_map.1 hrow
    refine ⟨nodup_keys_row _ _ _ _ i, fun key => ?_, fun pair hpair => number_iff_of_mem_row _ hpair⟩
    rw [mem_keys_row, isSome_timeStep?, or_comm, and_iff_right_iff_imp]
    rintro (⟨f, hf, rfl⟩ | ⟨-, rfl⟩)
    · exact hfields f hf
    · exact htime
  · intro f hf htype
    rw [get?_types] at htype
    split at htype
    · cases htype
    · rename_i hother
      rw [hrows]
      exact pairwise_range_map fun i j hij _ =>
        differ_row_field hf (hfields f hf) hother htype hij.ne
  · intro f hf htype hother
    rw [← isSome_timeStep?] at hother
    rw [get?_types, if_neg hother] at htype
    rw [hrows]
    exact pairwise_range_map fun i j hij hj =>
      grows_row_field hf (hfields f hf) hother htype hij (hj.trans hn)
  · intro hgroups
    obtain ⟨step, hstep⟩ := Option.isSome_iff_exists.1 ((isSome_timeStep? d).2 hgroups)
    rw [hrows, hstep]
    refine ⟨fun row hrow => ?_, fun step hwhole hbound => ?_⟩
    · obtain ⟨i, -, rfl⟩ := List.mem_map.1 hrow
      exact ⟨_, get?_row_time htime⟩
    · obtain rfl := Option.some.inj hwhole
      exact pairwise_range_map fun i j hij hj =>
        grows_row_time htime (Number.pos_of_isPositive (isPositive_timeStep? hstep)) hij hj hbound

/-- Three rows for a query that groups by time and has the time among its fields. -/
theorem ofDocument_columns_time :
    let d := Document.parse Dialect.mxql
      "GROUP \x7btimeunit: 5m, pk: [time, host]\x7d\nUPDATE \x7bkey: cpu, value: avg\x7d"
    let made := ofDocument d (some 3)
    made.rows.length = 3 ∧ made.rows.Pairwise (SampleRow.Grows "time") ∧
      made.rows.Pairwise (SampleRow.Differ "host") ∧ made.rows.Pairwise (SampleRow.Grows "cpu") := by
  intro d made
  have hfound : (∀ f ∈ Field.ofDocument d, f.name ≠ Record.reservedKey) ∧
      timeStep? d = some (.ofNat 300000) ∧
      (∃ f ∈ Field.ofDocument d, f.name = "host" ∧ Record.get? made.types f.name = some .string) ∧
      ∃ f ∈ Field.ofDocument d, f.name = "cpu" ∧ Record.get? made.types f.name = some .number ∧
        f.name ≠ d.dialect.timeField := by
    decide +kernel
  obtain ⟨hfields, hstep, ⟨host, hmem, hname, htype⟩, cpu, hmem', hname', htype', hother⟩ := hfound
  obtain ⟨hlength, -, htexts, hnumbers, htimes⟩ :=
    ofDocument_columns (by norm_num : 3 < 2 ^ 32)
      (by decide : d.dialect.timeField ≠ Record.reservedKey) hfields
  have hgroups : GroupsByTime d := (isSome_timeStep? d).1 (by rw [hstep]; rfl)
  refine ⟨hlength, (htimes hgroups).2 _ hstep (by norm_num), ?_, ?_⟩
  · rw [← hname]
    exact htexts host hmem htype
  · rw [← hname']
    exact hnumbers cpu hmem' htype' fun htimed => hother htimed.2

end Samples
end QueryLint
