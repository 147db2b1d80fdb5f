import QueryLint.Proofs.Category.Catalogs
import QueryLint.Proofs.Checks
import QueryLint.Proofs.Json.Storage

/-!
An index that is made from metadata files survives being written: its document is read back and passes the
checks of an index, with every key and every list in its place. Only a zero loses its sign.
-/

namespace QueryLint
set_option autoImplicit false

open Schema

namespace Schema

theorem all_texts (path : List Text) (ts : List Text) (n : Nat) :
    Checked.all (((ts.map Json.text).zipIdx n).map fun (item, i) => text (path ++ [Text.ofNat i]) (some item)) =
      .valid ts := by
  induction ts generalizing n with
  | nil => rfl
  | cons t ts ih =>
    rw [List.map_cons, List.zipIdx_cons, List.map_cons, Checked.all, ih (n + 1)]
    rfl

theorem list_texts (path : List Text) (ts : List Text) : list text path (some (.texts ts)) = .valid ts :=
  all_texts path ts 0

theorem all_entries {α : Type} {check : Check α} {write : α → Json} {r : Record α}
    (h : ∀ pair ∈ r, ∀ path, check path (some (write pair.2)) = .valid pair.2) (path : List Text) :
    Checked.all ((r.map fun pair => (pair.1, write pair.2)).map fun (key, value) =>
      Prod.mk key <$> check (path ++ [key]) (some value)) = .valid r := by
  have hvalid := @all_map_valid (Text × α) (Text × α)
    (fun pair => Prod.mk pair.1 <$> check (path ++ [pair.1]) (some (write pair.2))) id r ?_
  · rw [List.map_id] at hvalid
    rw [List.map_map]
    exact hvalid
  · intro pair hpair
    rw [h pair hpair]
    rfl

theorem recordOf_map {α : Type} {check : Check α} {write : α → Json} {r : Record α}
    (h : ∀ pair ∈ r, ∀ path, check path (some (write pair.2)) = .valid pair.2)
    (hkeys : Record.reservedKey ∉ Record.keys r) (path : List Text) :
    recordOf check path (some (.object (r.map fun pair => (pair.1, write pair.2)))) = .valid r := by
  have hfilter : (r.filter fun entry => decide (entry.1 ≠ Record.reservedKey)) = r := by
    rw [List.filter_eq_self]
    intro entry hentry
    apply decide_eq_true
    intro heq
    exact hkeys (heq ▸ List.mem_map_of_mem hentry)
  rw [recordOf, all_entries h, Checked.map, hfilter]

def Scalar.IsPlain : Scalar → Prop
  | text _ => True
  | number x => x.IsPlain

def Scalar.stored : Scalar → Scalar
  | text t => text t
  | number x => number x.unsignedZero

theorem scalar_toJson {s : Scalar} (h : s.IsPlain) (path : List Text) : scalar path (some s.toJson) = .valid s := by
  match s, h with
  | .text t, _ => rfl
  | .number (.finite negative m), _ => rfl

end Schema

namespace Category

theorem interval_of_valid {path : List Text} {members : Record Json} {c : Category}
    (h : ofMembers path members = .valid c) :
    member path members "interval" (withDefault (.text []) scalar) = .valid c.interval := by
  obtain ⟨_, hfields, _, -, rfl⟩ := seq_eq_valid_iff.1 h
  obtain ⟨_, htags, _, -, rfl⟩ := seq_eq_valid_iff.1 hfields
  obtain ⟨_, hplatforms, _, -, rfl⟩ := seq_eq_valid_iff.1 htags
  obtain ⟨_, hkeys, _, -, rfl⟩ := seq_eq_valid_iff.1 hplatforms
  obtain ⟨_, htitle, interval, hinterval, rfl⟩ := seq_eq_valid_iff.1 hkeys
  obtain ⟨_, hname, _, -, rfl⟩ := seq_eq_valid_iff.1 htitle
  obtain ⟨_, -, rfl⟩ := map_eq_valid_iff.1 hname
  exact hinterval

theorem get?_of_interval {path : List Text} {members : Record Json} {c : Category}
    (h : ofMembers path members = .valid c) {x : Number} (hx : c.interval = .number x) :
    Record.get? members "interval" = some (.number x) := by
  have hmember := interval_of_valid h
  rw [hx, member] at hmember
  cases hget : Record.get? members "interval" with
  | none =>
    rw [hget] at hmember
    cases hmember
  | some j =>
    rw [hget] at hmember
    cases j with
    | number y =>
      cases y with
      | nan => cases hmember
      | infinite negative =>
        cases hmember
        rfl
      | finite negative m =>
        cases hmember
        rfl
    | null => cases hmember
    | bool b => cases hmember
    | text t => cases hmember
    | instant t => cases hmember
    | array items => cases hmember
    | object members => cases hmember

end Category

namespace Catalog

theorem readAs_eq_ok {α : Type} {disk : Disk} {path : Text} {check : Json → Checked α} {a : α}
    (h : readAs disk path check = .ok a) :
    ∃ content j, disk.read path = .ok content ∧ Json.read content = some j ∧ check j = .valid a := by
  unfold readAs at h
  split at h
  · cases h
  rename_i content hcontent
  split at h
  · cases h
  rename_i j hj
  split at h
  · rename_i found hvalid
    cases h
    exact ⟨content, j, hcontent, hj, hvalid⟩
  · cases h

theorem readAs_of_valid {α : Type} {disk : Disk} {path content : Text} {check : Json → Checked α} {j : Json} {a : α}
    (hread : disk.read path = .ok content) (hj : Json.read content = some j) (hvalid : check j = .valid a) :
    readAs disk path check = .ok a := by
  simp only [readAs, hread, hj, hvalid]

theorem readFile_eq_ok_iff {disk : Disk} {directory file : Text} {c : Category} :
    readFile disk directory file = .ok c ↔ readAs disk (Path.join directory file) Category.ofJson = .ok c := by
  unfold readFile
  dsimp only
  cases readAs disk (Path.join directory file) Category.ofJson with
  | error problem => exact ⟨nofun, nofun⟩
  | ok found =>
    constructor
    · intro h
      cases h
      rfl
    · intro h
      cases h
      rfl

theorem IsMetadata.inFormat {disk : Disk} {directory file : Text} {c : Category} (h : IsMetadata disk directory file c)
    {x : Number} (hx : c.interval = .number x) : x.InFormat := by
  obtain ⟨names, -, -, -, hread⟩ := h
  obtain ⟨content, j, -, hj, hvalid⟩ := readAs_eq_ok (readFile_eq_ok_iff.1 hread)
  cases j with
  | object members => exact Json.inFormat_of_read hj (Category.get?_of_interval hvalid hx)
  | null => cases hvalid
  | bool b => cases hvalid
  | number y => cases hvalid
  | text t => cases hvalid
  | instant t => cases hvalid
  | array items => cases hvalid

end Catalog

namespace Json

theorem isPlain_object {α : Type} {r : Record α} (h : Record.IsListing r) {write : α → Json}
    (hwrite : ∀ pair ∈ r, (write pair.2).IsPlain) :
    (object (r.map fun pair => (pair.1, write pair.2))).IsPlain := by
  refine .object (h.map write).nodup (h.map write).arranged ?_
  intro member hmember
  obtain ⟨pair, hpair, rfl⟩ := List.mem_map.1 hmember
  exact hwrite pair hpair

theorem isPlain_named {members : Record Json} (names : List Text) (hkeys : Record.keys members = names)
    (hnames : names.Nodup ∧ ∀ name ∈ names, Record.isIndex name = false)
    (hmembers : ∀ member ∈ members, member.2.IsPlain) : (object members).IsPlain := by
  refine .object (by rw [hkeys]; exact hnames.1) (Record.arranged_of_not_isIndex ?_) hmembers
  intro member hmember
  apply hnames.2
  rw [← hkeys]
  exact List.mem_map_of_mem hmember

theorem isPlain_texts (ts : List Text) : (texts ts).IsPlain := by
  refine .array ?_
  intro item hitem
  obtain ⟨t, -, rfl⟩ := List.mem_map.1 hitem
  exact .text t

theorem isPlain_scalar {s : Scalar} (h : s.IsPlain) : s.toJson.IsPlain := by
  match s, h with
  | .text t, _ => exact .text t
  | .number x, hx => exact .number hx

theorem indented_stored (depth : Nat) (s : Scalar) : indented depth s.stored.toJson = indented depth s.toJson := by
  match s with
  | .text t => rfl
  | .number .nan => rfl
  | .number (.infinite _) => rfl
  | .number (.finite negative m) => exact (Number.finite negative m).toText_unsignedZero

end Json

namespace IndexEntry

def stored (e : IndexEntry) : IndexEntry := { e with interval := e.interval.stored }

/-- An entry that is read back once it has been written. -/
structure IsStorable (e : IndexEntry) : Prop where
  interval : e.interval.IsPlain
  languages : Record.IsListing e.languages

theorem recordOf_files {files : Record Text} (h : Record.reservedKey ∉ Record.keys files) (path : List Text) :
    recordOf text path (some (.object (files.map fun (language, file) => (language, .text file)))) = .valid files :=
  recordOf_map (fun _ _ _ => rfl) h path

theorem ofMembers_toJson {e : IndexEntry} (h : e.IsStorable) (path : List Text) :
    object ofMembers path (some e.toJson) = .valid e := by
  simp +decide only [object, toJson, ofMembers, member, Record.get?_cons, ↓reduceIte, list_texts,
    recordOf_files h.languages.unreserved, scalar_toJson h.interval]
  rfl

theorem isPlain_toJson {e : IndexEntry} (h : e.IsStorable) : e.toJson.IsPlain := by
  refine Json.isPlain_named ["title", "interval", "pk", "platforms", "languages", "tags", "fields"] rfl (by decide) ?_
  simp only [List.forall_mem_cons, List.not_mem_nil, false_implies, implies_true, and_true]
  exact ⟨.text _, Json.isPlain_scalar h.interval, Json.isPlain_texts _, Json.isPlain_texts _,
    Json.isPlain_object h.languages fun _ _ => .text _, Json.isPlain_texts _, Json.isPlain_texts _⟩

theorem indented_stored (depth : Nat) (e : IndexEntry) :
    Json.indented depth e.stored.toJson = Json.indented depth e.toJson := by
  simp only [stored, toJson, Json.indented, Json.indentedMembers, Json.indented_stored]

end IndexEntry

namespace CategoryIndex

def stored (index : CategoryIndex) : CategoryIndex :=
  { index with categories := index.categories.map fun pair => (pair.1, pair.2.stored) }

/-- An index that is read back once it has been written. -/
structure IsStorable (index : CategoryIndex) : Prop where
  categories : Record.IsListing index.categories
  entries : ∀ pair ∈ index.categories, pair.2.IsStorable
  products : Record.IsListing index.products
  keywords : Record.IsListing index.keywords

theorem recordOf_entries {index : CategoryIndex} (h : index.IsStorable) (path : List Text) :
    recordOf (object IndexEntry.ofMembers) path (some (.object
      (index.categories.map fun (name, entry) => (name, entry.toJson)))) = .valid index.categories := by
  refine recordOf_map (fun pair hpair => ?_) h.categories.unreserved path
  exact IndexEntry.ofMembers_toJson (h.entries pair hpair)

section Lists
variable {lists : Record (List Text)} (h : Record.IsListing lists)
include h

theorem recordOf_lists (path : List Text) :
    recordOf (list text) path (some (.object (lists.map fun (key, names) => (key, .texts names)))) = .valid lists :=
  recordOf_map (fun pair _ path => list_texts path pair.2) h.unreserved path

theorem isPlain_lists : (Json.object (lists.map fun (key, names) => (key, .texts names))).IsPlain :=
  Json.isPlain_object h fun _ _ => Json.isPlain_texts _

end Lists

theorem ofJson_toJson {index : CategoryIndex} (h : index.IsStorable) : ofJson index.toJson = .valid index := by
  simp +decide only [ofJson, object, toJson, ofMembers, member, Record.get?_cons, ↓reduceIte, recordOf_entries h,
    recordOf_lists h.products, recordOf_lists h.keywords]
  rfl

theorem isPlain_toJson {index : CategoryIndex} (h : index.IsStorable) : index.toJson.IsPlain := by
  refine Json.isPlain_named ["categories", "products", "keywords"] rfl (by decide) ?_
  simp only [List.forall_mem_cons, List.not_mem_nil, false_implies, implies_true, and_true]
  refine ⟨?_, isPlain_lists h.products, isPlain_lists h.keywords⟩
  exact Json.isPlain_object h.categories fun pair hpair => IndexEntry.isPlain_toJson (h.entries pair hpair)

theorem indentedMembers_stored (depth : Nat) (index : CategoryIndex) :
    Json.indentedMembers depth (index.stored.categories.map fun (name, entry) => (name, entry.toJson)) =
      Json.indentedMembers depth (index.categories.map fun (name, entry) => (name, entry.toJson)) := by
  simp only [Json.indentedMembers_eq, stored, List.map_map]
  apply List.map_congr_left
  rintro ⟨name, entry⟩ -
  simp only [Function.comp_apply, Json.memberForm, IndexEntry.indented_stored]

theorem document_stored (index : CategoryIndex) : index.stored.toJson.document = index.toJson.document := by
  simp only [Json.document, toJson, Json.indented, Json.indentedMembers, indentedMembers_stored]
  rfl

/-- An index that is made from metadata is read back, but for the signs of zeros. -/
theorem isStorable_stored {files : Record Category}
    (h : ∀ file ∈ files, ∀ x, file.2.interval = .number x → x.isFinite = true ∧ x.InFormat) :
    (ofCategories files).stored.IsStorable where
  categories := (Record.isListing_arranged (nodup_keys_categories files) (unreserved_categories files)).map _
  entries := by
    intro pair hpair
    obtain ⟨entry, hentry, rfl⟩ := List.mem_map.1 hpair
    obtain ⟨-, -, hreflects⟩ := reflects_of_get? ((Record.get?_eq_some_iff (nodup_keys_ofCategories files)).2 hentry)
    refine ⟨?_, hreflects.isListing⟩
    obtain ⟨file, hfile, heq⟩ := interval_of_mem ((Record.arranged_perm _).mem_iff.1 hentry)
    change entry.2.interval.stored.IsPlain
    cases hinterval : entry.2.interval with
    | text t => trivial
    | number x =>
      obtain ⟨hfinite, hformat⟩ := h file hfile x (heq.symm.trans hinterval)
      exact Number.isPlain_unsignedZero hfinite hformat
  products := Record.isListing_arranged (tidy_products files).keys (tidy_products files).unreserved
  keywords := Record.isListing_arranged (tidy_keywords files).keys (tidy_keywords files).unreserved

theorem stored_eq_self {files : Record Category} (h : ∀ file ∈ files, file.2.interval ≠ .number (.finite true 0)) :
    (ofCategories files).stored = ofCategories files := by
  have hcategories : ((ofCategories files).categories.map fun pair => (pair.1, pair.2.stored)) =
      (ofCategories files).categories := by
    conv => rhs; rw [← List.map_id (ofCategories files).categories]
    apply List.map_congr_left
    rintro ⟨name, entry⟩ hentry
    obtain ⟨file, hfile, heq⟩ := interval_of_mem ((Record.arranged_perm _).mem_iff.1 hentry)
    have hinterval : entry.interval.stored = entry.interval := by
      rw [show entry.interval = file.2.interval from heq]
      cases hkind : file.2.interval with
      | text t => rfl
      | number x =>
        have hx : x ≠ .finite true 0 := by
          rintro rfl
          exact h file hfile hkind
        rw [Scalar.stored, Number.unsignedZero_eq_self hx]
    rw [IndexEntry.stored, hinterval]
    rfl
  rw [stored, hcategories]

end CategoryIndex
end QueryLint
