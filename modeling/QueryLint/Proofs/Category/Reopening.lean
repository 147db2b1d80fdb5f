import QueryLint.Proofs.Category.StoredIndex
import QueryLint.Proofs.Outcomes

/-!
A catalog that is opened from a written index answers like the catalog that wrote it.

What a catalog remembers never changes an answer: as long as it agrees with the files, an answer depends on
the index and the files alone. The two catalogs have the same files, and indices that differ in the sign of a
zero at most, which no answer shows.
-/

namespace QueryLint
set_option autoImplicit false

namespace CategoryIndex

theorem get?_stored (index : CategoryIndex) (name : Text) :
    Record.get? index.stored.categories name = (Record.get? index.categories name).map (·.stored) := by
  simp only [stored]
  induction index.categories with
  | nil => rfl
  | cons pair categories ih =>
    obtain ⟨key, entry⟩ := pair
    rw [List.map_cons, Record.get?_cons, Record.get?_cons, ih]
    split <;> rfl

theorem keys_stored (index : CategoryIndex) : Record.keys index.stored.categories = Record.keys index.categories := by
  simp [stored, Record.keys]

theorem search_stored (index : CategoryIndex) (compare : Text → Text → Ordering) (query : Text) (limit : Number) :
    index.stored.search compare query limit = index.search compare query limit := by
  have hpoints : ∀ word, index.stored.namePoints word = index.namePoints word := by
    intro word
    rw [namePoints, keys_stored]
    rfl
  have hranking : index.stored.ranking compare query = index.ranking compare query := by
    rw [ranking, ranking, hpoints]
    rfl
  have hresult : index.stored.result = index.result := by
    funext hit
    rw [result, result, get?_stored]
    cases Record.get? index.categories hit.1 <;> rfl
  rw [search, search, hranking, hresult]

end CategoryIndex

namespace Catalog

def Faithful (disk : Disk) (c : Catalog) : Prop :=
  ∀ file category, Record.get? c.known file = some category → readFile disk c.directory file = .ok category

def told (disk : Disk) (directory : Text) (index : CategoryIndex) (name language : Text) :
    Except Failure (Option Category) :=
  match (Record.get? index.categories name).bind (·.file? language) with
  | none => .ok none
  | some file => (readFile disk directory file).map some

inductive Reaches (disk : Disk) (c : Catalog) : Catalog → Prop where
  | refl : Reaches disk c c
  | info {d e : Catalog} {name language : Text} {found : Option Category} : Reaches disk c d →
      d.info disk name language = .ok (found, e) → Reaches disk c e
  | lookup {d e : Catalog} {name : Text} {answer : Finding} : Reaches disk c d →
      Catalog.lookup disk name d = (answer, e) → Reaches disk c e

section Answers
variable {disk : Disk} {c d : Catalog}

theorem Faithful.category (h : c.Faithful disk) (file : Text) :
    (c.category disk file).map (·.1) = readFile disk c.directory file := by
  unfold Catalog.category
  cases hknown : Record.get? c.known file with
  | some found =>
    rw [h file found hknown]
    rfl
  | none => cases readFile disk c.directory file <;> rfl

theorem Faithful.of_category (h : c.Faithful disk) {file : Text} {found : Category}
    (hd : c.category disk file = .ok (found, d)) : d.Faithful disk ∧ d.directory = c.directory ∧ d.index = c.index := by
  unfold Catalog.category at hd
  split at hd
  · cases hd
    exact ⟨h, rfl, rfl⟩
  · obtain ⟨read, hread, heq⟩ := Except.exists_of_map_ok hd
    cases heq
    refine ⟨?_, rfl, rfl⟩
    intro other category hother
    rw [Record.get?_set] at hother
    split at hother
    · rename_i heq
      cases hother
      rw [heq]
      exact hread
    · exact h other category hother

theorem Faithful.info (h : c.Faithful disk) (name language : Text) :
    (c.info disk name language).map (·.1) = told disk c.directory c.index name language := by
  unfold Catalog.info told
  cases (Record.get? c.index.categories name).bind (·.file? language) with
  | none => rfl
  | some file =>
    dsimp only
    rw [← h.category file]
    cases c.category disk file <;> rfl

theorem Faithful.of_info (h : c.Faithful disk) {name language : Text} {found : Option Category}
    (hd : c.info disk name language = .ok (found, d)) :
    d.Faithful disk ∧ d.directory = c.directory ∧ d.index = c.index := by
  unfold Catalog.info at hd
  split at hd
  · cases hd
    exact ⟨h, rfl, rfl⟩
  · obtain ⟨⟨read, e⟩, hread, heq⟩ := Except.exists_of_map_ok hd
    cases heq
    exact h.of_category hread

theorem Faithful.attributes (h : c.Faithful disk) (name : Text) :
    (c.attributes disk name).map (·.1) =
      (told disk c.directory c.index name Category.defaultLanguage).map fun found => found.map (·.attributes) := by
  rw [← h.info, Catalog.attributes]
  cases c.info disk name Category.defaultLanguage <;> rfl

/-- What is found under a name, by the answer of the files. -/
def findingOf (answer : Except Failure (Option (List Attribute))) : Finding :=
  match answer with
  | .ok (some attributes) => .found (attributes.map (·.name))
  | .ok none => .missing
  | .error failure => .failed failure.message

theorem lookup_eq (disk : Disk) (name : Text) (c : Catalog) :
    (Catalog.lookup disk name c).1 = findingOf ((c.attributes disk name).map (·.1)) := by
  unfold Catalog.lookup
  match c.attributes disk name with
  | .ok (some attributes, d) => rfl
  | .ok (none, d) => rfl
  | .error failure => rfl

theorem Faithful.of_lookup (h : c.Faithful disk) {name : Text} {answer : Finding}
    (hd : Catalog.lookup disk name c = (answer, d)) :
    d.Faithful disk ∧ d.directory = c.directory ∧ d.index = c.index := by
  have hstep : ∀ {found e}, c.attributes disk name = .ok (found, e) →
      e.Faithful disk ∧ e.directory = c.directory ∧ e.index = c.index := by
    intro found e he
    obtain ⟨⟨category, f⟩, hinfo, heq⟩ := Except.exists_of_map_ok he
    cases heq
    exact h.of_info hinfo
  unfold Catalog.lookup at hd
  split at hd
  · rename_i hattributes
    cases hd
    exact hstep hattributes
  · rename_i hattributes
    cases hd
    exact hstep hattributes
  · cases hd
    exact ⟨h, rfl, rfl⟩

/-- Questions change neither the index nor the truth of what is remembered. -/
theorem Reaches.faithful (hd : Reaches disk c d) (h : c.Faithful disk) :
    d.Faithful disk ∧ d.directory = c.directory ∧ d.index = c.index := by
  induction hd with
  | refl => exact ⟨h, rfl, rfl⟩
  | info _ hinfo ih =>
    obtain ⟨hfaithful, hdirectory, hindex⟩ := ih
    obtain ⟨hfaithful', hdirectory', hindex'⟩ := hfaithful.of_info hinfo
    exact ⟨hfaithful', hdirectory'.trans hdirectory, hindex'.trans hindex⟩
  | lookup _ hlookup ih =>
    obtain ⟨hfaithful, hdirectory, hindex⟩ := ih
    obtain ⟨hfaithful', hdirectory', hindex'⟩ := hfaithful.of_lookup hlookup
    exact ⟨hfaithful', hdirectory'.trans hdirectory, hindex'.trans hindex⟩

theorem told_stored (disk : Disk) (directory : Text) (index : CategoryIndex) (name language : Text) :
    told disk directory index.stored name language = told disk directory index name language := by
  unfold told
  rw [CategoryIndex.get?_stored]
  cases Record.get? index.categories name <;> rfl

end Answers

/-- Two catalogs answer every question alike. -/
structure AnswersAlike (disk : Disk) (a b : Catalog) : Prop where
  info : ∀ name language, (b.info disk name language).map (·.1) = (a.info disk name language).map (·.1)
  attributes : ∀ name, (b.attributes disk name).map (·.1) = (a.attributes disk name).map (·.1)
  lookup : ∀ name, (Catalog.lookup disk name b).1 = (Catalog.lookup disk name a).1
  search : ∀ compare query limit, b.index.search compare query limit = a.index.search compare query limit
  ofProduct : ∀ product, b.index.ofProduct product = a.index.ofProduct product
  productNames : b.index.productNames = a.index.productNames

theorem answersAlike_of_stored {disk : Disk} {a b : Catalog} (ha : a.Faithful disk) (hb : b.Faithful disk)
    (hdirectory : b.directory = a.directory) (hindex : b.index = a.index.stored) : AnswersAlike disk a b := by
  have hattributes : ∀ name, (b.attributes disk name).map (·.1) = (a.attributes disk name).map (·.1) := by
    intro name
    rw [ha.attributes, hb.attributes, hdirectory, hindex, told_stored]
  refine ⟨?_, hattributes, ?_, ?_, ?_, ?_⟩
  · intro name language
    rw [ha.info, hb.info, hdirectory, hindex, told_stored]
  · intro name
    rw [lookup_eq, lookup_eq, hattributes]
  · intro compare query limit
    rw [hindex, CategoryIndex.search_stored]
  · intro product
    rw [hindex]
    rfl
  · rw [hindex]
    rfl

section Reopening
variable {disk disk' : Disk} {directory : Text} {files : Record Category}

theorem isName_indexFile : Path.IsName indexFile := ⟨by decide, by decide, by decide, by decide⟩

/-- Metadata files are still there when the index has been written. -/
theorem IsMetadata.readFile_of_write {file : Text} {c : Category} (h : IsMetadata disk directory file c) {text : Text}
    (hwrite : disk.write (indexPath directory) text = .ok disk') : readFile disk' directory file = .ok c := by
  obtain ⟨names, hlist, hmem, hends, hread⟩ := h
  have hfile : Path.IsName file := Disk.isName_of_mem_list hlist hmem
  have hne : file ≠ indexFile := by
    rintro rfl
    exact absurd hends (by decide)
  obtain ⟨content, j, hcontent, hj, hvalid⟩ := readAs_eq_ok (readFile_eq_ok_iff.1 hread)
  have hcontent' := Disk.read_of_write_other isName_indexFile hfile hne hwrite hcontent
  exact readFile_eq_ok_iff.2 (readAs_of_valid hcontent' hj hvalid)

theorem ofDirectory_of_write {index : CategoryIndex} (hindex : index.stored.IsStorable)
    (hwrite : disk.write (indexPath directory) index.toJson.document = .ok disk') :
    ofDirectory disk' directory false = .ok (⟨directory, index.stored, []⟩, []) := by
  obtain ⟨hexists, hread⟩ := Disk.read_of_write isName_indexFile hwrite
  rw [← CategoryIndex.document_stored] at hread
  have hstored := readAs_of_valid hread (Json.read_stored (CategoryIndex.isPlain_toJson hindex))
    (CategoryIndex.ofJson_toJson hindex)
  unfold ofDirectory ofIndexFile indexPath
  rw [hexists]
  simp only [hstored]
  rfl

end Reopening

/-- Where a file can be written, a catalog that is made anew writes its index, and the catalog that is opened from
it answers like the first one, whatever either was asked before. -/
theorem exists_reopened {disk : Disk} {directory : Text} (hdirectory : disk.isFile directory = false)
    (hplace : ∃ text disk', disk.write (indexPath directory) text = .ok disk')
    (hfinite : ∀ file c, IsMetadata disk directory file c → ∀ x, c.interval = .number x → x.isFinite = true) :
    ∃ a log path disk' b, ofDirectory disk directory true = .ok (a, log) ∧ a.writeIndex disk = .ok (path, disk') ∧
      ofDirectory disk' directory false = .ok (b, []) ∧ b.index = a.index.stored ∧
      ((∀ file c, IsMetadata disk directory file c → c.interval ≠ .number (.finite true 0)) → b.index = a.index) ∧
      ∀ a' b', Reaches disk' a a' → Reaches disk' b b' → AnswersAlike disk' a' b' := by
  obtain ⟨files, log, hbuild, hfiles⟩ := exists_build hdirectory
  obtain ⟨_, _, hplace⟩ := hplace
  obtain ⟨disk', hwrite⟩ := Disk.exists_write hplace (CategoryIndex.ofCategories files).toJson.document
  have hstorable : (CategoryIndex.ofCategories files).stored.IsStorable := by
    apply CategoryIndex.isStorable_stored
    intro file hfile x hx
    have hmeta := (hfiles.mem file.1 file.2).1 hfile
    exact ⟨hfinite _ _ hmeta x hx, hmeta.inFormat hx⟩
  refine ⟨_, log, indexPath directory, disk', _, hbuild, by simp only [writeIndex, hwrite],
    ofDirectory_of_write hstorable hwrite, rfl, ?_, ?_⟩
  · intro hsigns
    exact CategoryIndex.stored_eq_self fun file hfile => hsigns _ _ ((hfiles.mem file.1 file.2).1 hfile)
  · intro a' b' ha hb
    obtain ⟨hfaithful, hdirectory', hindex⟩ := ha.faithful fun file c hknown =>
      ((hfiles.mem file c).1 (Record.mem_of_get? hknown)).readFile_of_write hwrite
    obtain ⟨hfaithful', hdirectory'', hindex'⟩ := hb.faithful fun file c hknown => by cases hknown
    apply answersAlike_of_stored hfaithful hfaithful'
    · rw [hdirectory', hdirectory'']
    · rw [hindex, hindex']

/-- A category in two languages with an interval in each, and a file that is no metadata. -/
def intervalDisk : Disk where
  files := [("/m/db_ja.meta", "\x7b\"categoryName\":\"db\",\"interval\":-0.5\x7d"),
    ("/m/db.meta", "\x7b\"categoryName\":\"db\",\"interval\":\"5s\"\x7d"), ("/m/no.meta", "\x7b")]
  directories := []

theorem intervalDisk_intervals :
    ∀ file ∈ (Record.keys intervalDisk.files ++ intervalDisk.directories).filterMap (Disk.nameIn? "/m"),
      (readFile intervalDisk "/m" file).toOption.all (fun c => match c.interval with
        | .text _ => true
        | .number x => x.isFinite && x ≠ .finite true 0) = true := by
  decide +kernel

theorem intervalDisk_reopened :
    ∃ a log path disk' b, ofDirectory intervalDisk "/m" true = .ok (a, log) ∧
      a.writeIndex intervalDisk = .ok (path, disk') ∧ ofDirectory disk' "/m" false = .ok (b, []) ∧
      b.index = a.index ∧ ∀ a' b', Reaches disk' a a' → Reaches disk' b b' → AnswersAlike disk' a' b' := by
  have hnumber : ∀ file c, IsMetadata intervalDisk "/m" file c → ∀ x, c.interval = .number x →
      x.isFinite = true ∧ x ≠ .finite true 0 := by
    rintro file c ⟨names, hlist, hmem, -, hread⟩ x hx
    have hinterval := intervalDisk_intervals file (Disk.mem_of_mem_list hlist hmem)
    rw [hread] at hinterval
    simpa [Except.toOption, hx] using hinterval
  obtain ⟨a, log, path, disk', b, hopen, hwrite, hreopen, -, hindex, halike⟩ :=
    @exists_reopened intervalDisk "/m" (by decide +kernel) ⟨[], _, rfl⟩
      fun file c hmeta x hx => (hnumber file c hmeta x hx).1
  refine ⟨a, log, path, disk', b, hopen, hwrite, hreopen, hindex ?_, halike⟩
  intro file c hmeta hzero
  exact (hnumber file c hmeta _ hzero).2 rfl

end Catalog
end QueryLint
