import QueryLint.Proofs.Checks
import QueryLint.Settings

/-!
Settings in layers.

Settings are told from their members, one for each setting. So both what is accepted as settings and what becomes of
them under layers is said key by key: members are accepted exactly if every key has the value that it should have, and
layers leave a key with the value of the last layer that defines it.
-/

namespace QueryLint.Settings
set_option autoImplicit false

open Schema

/-- Every setting has a value that is allowed for it. -/
structure IsValid (s : Settings) : Prop where
  granularityRatio : s.granularityRatio.isPositive = true
  timeRange : ∀ x ∈ s.timeRange, x.isInteger = true ∧ x.isPositive = true
  sampleRows : s.sampleRows.isInteger = true ∧ Number.le 1 s.sampleRows = true ∧ Number.le s.sampleRows 100 = true
  disabledRules : ∀ rule ∈ s.disabledRules, rule ≠ []
  categories : ∀ directory ∈ s.categories, directory ≠ []

theorem isValid_default : ({} : Settings).IsValid where
  granularityRatio := by decide +kernel
  timeRange := nofun
  sampleRows := by decide +kernel
  disabledRules := nofun
  categories := nofun

theorem ne_nan_of_isPositive {x : Number} (h : x.isPositive = true) : x ≠ .nan := by
  have hnan : ∀ y : Number, y.lt .nan = false := fun y => by cases y <;> rfl
  rintro rfl
  rw [Number.isPositive, hnan] at h
  cases h

theorem ne_nan_of_isInteger {x : Number} (h : x.isInteger = true) : x ≠ .nan := by
  rintro rfl
  cases h

theorem accepts_dialect : Accepts (choice dialectChoices) (fun b => .text b.name) fun _ => True :=
  (accepts_choice (by decide)).congr fun b => by cases b <;> decide

theorem accepts_granularityRatio : Accepts (number fun x => [positive x]) .number (·.isPositive = true) :=
  (accepts_number _).congr fun x => by
    simpa [positive] using ne_nan_of_isPositive

theorem accepts_timeRange : Accepts (number fun x => [whole x, positive x]) .number
    fun x => x.isInteger = true ∧ x.isPositive = true :=
  (accepts_number _).congr fun x => by
    simpa [whole, positive] using fun h _ => ne_nan_of_isInteger h

theorem accepts_sampleRows : Accepts (number fun x => [whole x, atLeast 1 x, atMost 100 x]) .number
    fun x => x.isInteger = true ∧ Number.le 1 x = true ∧ Number.le x 100 = true :=
  (accepts_number _).congr fun x => by
    change _ ↔ x.isInteger = true ∧ Number.le (.ofNat 1) x = true ∧ Number.le x (.ofNat 100) = true
    simpa [whole, atLeast, atMost] using fun h _ _ => ne_nan_of_isInteger h

theorem accepts_disabledRules : Accepts (list nonEmptyText) .texts fun rules => ∀ rule ∈ rules, rule ≠ [] :=
  accepts_nonEmptyText.list

theorem get?_members (s : Settings) :
    Record.get? s.members "dialect" = some (.text s.dialect.name) ∧
    Record.get? s.members "granularityRatio" = some (.number s.granularityRatio) ∧
    Record.get? s.members "timeRangeMs" = s.timeRange.map .number ∧
    Record.get? s.members "sampleRows" = some (.number s.sampleRows) ∧
    Record.get? s.members "disabledRules" = some (.texts s.disabledRules) ∧
    Record.get? s.members "categoriesDir" = s.categories.map .text := by
  unfold members
  cases s.timeRange <;> cases s.categories <;> simp +decide [Json.optional, Record.get?_cons]

theorem others_members (s : Settings) : others names s.members = [] := by
  unfold members others
  cases s.timeRange <;> cases s.categories <;> simp +decide [Json.optional, names]

theorem nodup_keys_members (s : Settings) : (Record.keys s.members).Nodup := by
  unfold members
  cases s.timeRange <;> cases s.categories <;> simp +decide [Json.optional, Record.keys]

/-- Each setting that has a default is always a member. -/
theorem get?_members_or (s : Settings) {key : Text} (hkey : key ∈ names) :
    (Record.get? s.members key).or (Record.get? ({} : Settings).members key) = Record.get? s.members key := by
  obtain ⟨hdialect, hratio, hrange, hrows, hrules, hcategories⟩ := get?_members s
  obtain ⟨-, -, hrange', -, -, hcategories'⟩ := get?_members {}
  simp only [names, List.mem_cons, List.not_mem_nil, or_false] at hkey
  rcases hkey with rfl | rfl | rfl | rfl | rfl | rfl
  · rw [hdialect, Option.some_or]
  · rw [hratio, Option.some_or]
  · rw [hrange, hrange']
    exact Option.or_none
  · rw [hrows, Option.some_or]
  · rw [hrules, Option.some_or]
  · rw [hcategories, hcategories']
    exact Option.or_none

/-- Members are accepted as settings exactly if no other member is among them and they make the settings valid: every
setting is the member of its name, or the default where there is none. -/
theorem ofMembers_eq_valid_iff {path : List Text} {given : Record Json} {s : Settings} :
    ofMembers path given = .valid s ↔ s.IsValid ∧ others names given = [] ∧ ∀ key ∈ names,
      Record.get? s.members key = (Record.get? given key).or (Record.get? ({} : Settings).members key) := by
  obtain ⟨hdialect, hratio, hrange, hrows, hrules, hcategories⟩ := get?_members s
  obtain ⟨hdialect', hratio', hrange', hrows', hrules', hcategories'⟩ := get?_members {}
  rw [ofMembers, seqLeft_eq_valid_iff, nothingBeyond_eq_valid_iff]
  simp only [seq_eq_valid_iff, map_eq_valid_iff, exists_exists_and_eq_and, member,
    accepts_dialect.withDefault trivial, accepts_granularityRatio.withDefault isValid_default.granularityRatio,
    accepts_timeRange.optional, accepts_sampleRows.withDefault isValid_default.sampleRows,
    accepts_disabledRules.withDefault isValid_default.disabledRules, accepts_nonEmptyText.optional]
  simp only [names, List.forall_mem_cons, hdialect, hratio, hrange, hrows, hrules, hcategories, hdialect', hratio',
      hrange', hrows', hrules', hcategories', List.not_mem_nil, false_implies, implies_true, and_true]
  simp only [Option.map_none, Option.or_none]
  constructor
  · rintro ⟨⟨_, ⟨_, ⟨_, ⟨_, ⟨dialect, hd, ratio, ⟨hg, hpositive⟩, rfl⟩, range, ⟨ht, hranges⟩, rfl⟩, rows, ⟨hr, hcounts⟩,
      rfl⟩, rules, ⟨hl, hlisted⟩, rfl⟩, directory, ⟨hc, hnamed⟩, rfl⟩, hothers⟩
    exact ⟨⟨hpositive, hranges, hcounts, hlisted, hnamed⟩, hothers, hd, hg, ht, hr, hl, hc⟩
  · rintro ⟨hvalid, hothers, hd, hg, ht, hr, hl, hc⟩
    exact ⟨⟨_, ⟨_, ⟨_, ⟨_, ⟨s.dialect, hd, s.granularityRatio, ⟨hg, hvalid.granularityRatio⟩, rfl⟩, s.timeRange,
      ⟨ht, hvalid.timeRange⟩, rfl⟩, s.sampleRows, ⟨hr, hvalid.sampleRows⟩, rfl⟩, s.disabledRules,
      ⟨hl, hvalid.disabledRules⟩, rfl⟩, s.categories, ⟨hc, hvalid.categories⟩, rfl⟩, hothers⟩

theorem ofMembers_members {path : List Text} {s : Settings} (h : s.IsValid) : ofMembers path s.members = .valid s := by
  refine ofMembers_eq_valid_iff.2 ⟨h, others_members s, ?_⟩
  intro key hkey
  exact (get?_members_or s hkey).symm

theorem ofJson_object_eq_ok_iff {given : Record Json} {source : Option Text} {s : Settings} :
    ofJson (some (.object given)) source = .ok s ↔ ofMembers [] given = .valid s := by
  simp only [ofJson, object]
  cases ofMembers [] given <;> simp

theorem ofJson_eq_ok_iff_of_source {raw : Option Json} {source : Option Text} (source' : Option Text) {s : Settings} :
    ofJson raw source = .ok s ↔ ofJson raw source' = .ok s := by
  simp only [ofJson]
  generalize object ofMembers _ _ = checked
  cases checked <;> simp

namespace Layer

def value? (layer : Layer) (key : Text) : Option Json := (Record.get? layer.entries key).join

theorem mem_defined {layer : Layer} {key : Text} {value : Json} :
    (key, value) ∈ layer.defined ↔ (key, some value) ∈ layer.entries := by
  simp [defined]

theorem keys_defined_sublist (layer : Layer) : (Record.keys layer.defined).Sublist (Record.keys layer.entries) := by
  unfold defined
  induction layer.entries with
  | nil => exact .slnil
  | cons entry entries ih =>
    obtain ⟨key, _ | value⟩ := entry
    · exact .cons key ih
    · exact .cons_cons key ih

theorem get?_defined (layer : Layer) (key : Text) : Record.get? layer.defined key = layer.value? key := by
  have hnodup : (Record.keys layer.defined).Nodup := layer.distinct.sublist layer.keys_defined_sublist
  apply Option.ext
  intro value
  rw [Record.get?_eq_some_iff hnodup, mem_defined, ← Record.get?_eq_some_iff layer.distinct, value?,
    Option.join_eq_some_iff]

end Layer

/-- The value of the last layer that defines a key. -/
def lastValue? (layers : List Layer) (key : Text) : Option Json := layers.reverse.findSome? (·.value? key)

theorem lastValue?_singleton (layer : Layer) (key : Text) : lastValue? [layer] key = layer.value? key := by
  simp [lastValue?]

theorem lastValue?_append (layers layers' : List Layer) (key : Text) :
    lastValue? (layers ++ layers') key = (lastValue? layers' key).or (lastValue? layers key) := by
  rw [lastValue?, List.reverse_append, List.findSome?_append]
  rfl

theorem Overlay.put_of_ne {key : Text} (h : key ≠ Record.reservedKey) (o : Overlay) (value : Json) :
    o.put key value = { o with front := Record.set key value o.front } := by
  unfold Overlay.put
  exact if_neg h

theorem cover_defined (o : Overlay) (layer : Layer) :
    o.cover layer.defined = { o with front := layer.defined.foldl (fun r m => Record.set m.1 m.2 r) o.front } := by
  have hunreserved : ∀ m ∈ layer.defined, m.1 ≠ Record.reservedKey := by
    rintro ⟨key, value⟩ hm rfl
    exact layer.unreserved (layer.keys_defined_sublist.mem (Record.mem_keys_iff.2 ⟨value, hm⟩))
  unfold Overlay.cover
  generalize layer.defined = ms at hunreserved
  induction ms generalizing o with
  | nil => rfl
  | cons m ms ih =>
    obtain ⟨hm, hms⟩ := List.forall_mem_cons.1 hunreserved
    rw [List.foldl_cons, List.foldl_cons, ih _ hms, Overlay.put_of_ne hm]

theorem exists_foldl_cover {o : Overlay} (h : (Record.keys o.front).Nodup) (layers : List Layer) :
    ∃ front, (layers.map Layer.defined).foldl Overlay.cover o = { o with front } ∧ (Record.keys front).Nodup ∧
      ∀ key, Record.get? front key = (lastValue? layers key).or (Record.get? o.front key) := by
  induction layers using List.reverseRecOn with
  | nil => exact ⟨o.front, rfl, h, fun key => rfl⟩
  | append_singleton layers layer ih =>
    obtain ⟨front, hfold, hnodup, hget⟩ := ih
    rw [List.map_append, List.foldl_append, hfold, List.map_singleton, List.foldl_cons, List.foldl_nil, cover_defined]
    refine ⟨_, rfl, Record.nodup_keys_foldl_set hnodup _, ?_⟩
    intro key
    rw [Record.get?_foldl_set (layer.distinct.sublist layer.keys_defined_sublist), Layer.get?_defined, hget,
      lastValue?_append, lastValue?_singleton, Option.or_assoc]

/-- Layers are accepted exactly if they define settings only and the settings are valid that are as the last layer
says that defines them, or else as before. -/
theorem override_eq_ok_iff {base s : Settings} {layers : List Layer} :
    override base layers = .ok s ↔ s.IsValid ∧ (∀ key, key ∉ names → lastValue? layers key = none) ∧
      ∀ key ∈ names, Record.get? s.members key = (lastValue? layers key).or (Record.get? base.members key) := by
  obtain ⟨front, hfold, hnodup, hget⟩ := exists_foldl_cover (o := { front := base.members })
    (nodup_keys_members base) layers
  have hmembers : Overlay.members { front } = Record.arranged front := by simp [Overlay.members, Record.arranged]
  have hbase := others_eq_nil_iff.1 (others_members base)
  rw [override, merge, hfold, hmembers, ofJson_object_eq_ok_iff, ofMembers_eq_valid_iff, others_eq_nil_iff]
  simp only [Record.get?_arranged hnodup, hget]
  refine and_congr_right fun _ => and_congr ?_ ?_
  · refine forall₂_congr fun key hkey => ?_
    rw [hbase key hkey, Option.or_none]
  · refine forall₂_congr fun key hkey => ?_
    rw [Option.or_assoc, get?_members_or base hkey]

/-- Data that is accepted as settings makes them valid, each as the data says or else as it is by default. -/
theorem of_ofJson {raw : Option Json} {source : Option Text} {s : Settings} (h : ofJson raw source = .ok s) :
    s.IsValid ∧ ∀ key ∈ names, Record.get? s.members key =
      (raw.bind (Json.get? key)).or (Record.get? ({} : Settings).members key) := by
  have hobject : ∀ given, ofJson (some (.object given)) source = .ok s → s.IsValid ∧ ∀ key ∈ names,
      Record.get? s.members key = (Record.get? given key).or (Record.get? ({} : Settings).members key) := by
    intro given hgiven
    obtain ⟨hvalid, -, hget⟩ := ofMembers_eq_valid_iff.1 (ofJson_object_eq_ok_iff.1 hgiven)
    exact ⟨hvalid, hget⟩
  match raw with
  | none | some .null => exact hobject [] h
  | some (.object given) => exact hobject given h
  | some (.bool _) | some (.number _) | some (.text _) | some (.instant _) | some (.array _) => cases h

theorem ofJson_members {s : Settings} (h : s.IsValid) (source : Option Text) :
    ofJson (some (.object s.members)) source = .ok s :=
  ofJson_object_eq_ok_iff.2 (ofMembers_members h)

theorem ofJson_none (source : Option Text) : ofJson none source = .ok {} := by
  change ofJson (some (.object [])) source = .ok {}
  exact ofJson_object_eq_ok_iff.2 (ofMembers_eq_valid_iff.2 ⟨isValid_default, rfl, fun _ _ => rfl⟩)

/-- Layers may be laid on in several steps. -/
theorem override_append_eq_ok_iff {base s s' : Settings} {layers layers' : List Layer}
    (h : override base layers = .ok s) :
    override base (layers ++ layers') = .ok s' ↔ override s layers' = .ok s' := by
  obtain ⟨-, hothers, hget⟩ := override_eq_ok_iff.1 h
  rw [override_eq_ok_iff, override_eq_ok_iff]
  refine and_congr_right fun _ => and_congr ?_ ?_
  · refine forall₂_congr fun key hkey => ?_
    rw [lastValue?_append, hothers key hkey, Option.or_none]
  · refine forall₂_congr fun key hkey => ?_
    rw [lastValue?_append, hget key hkey, Option.or_assoc]

end QueryLint.Settings
