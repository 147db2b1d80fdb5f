import QueryLint.Category.Catalog
import QueryLint.Proofs.Category.IndexContents

/-!
A catalog that was made from its metadata files agrees with them: the index names their categories
and, in each language, the last of their files; whatever is asked of an indexed category is answered
from memory, by one of these files; and the lists of names lead to indexed categories only.
-/

namespace QueryLint
set_option autoImplicit false

namespace Text

theorem le_refl (t : Text) : le t t = true := by
  induction t with
  | nil => rfl
  | cons c t ih => simp [le, ih]

theorem le_total (t u : Text) : (le t u || le u t) = true := by
  induction t generalizing u with
  | nil => rfl
  | cons c t ih =>
    cases u with
    | nil => rfl
    | cons d u =>
      have htail := ih u
      simp only [le, Bool.or_eq_true, Bool.and_eq_true, decide_eq_true_eq] at htail ⊢
      rcases Nat.lt_trichotomy c.toNat d.toNat with hlt | heq | hgt
      · exact Or.inl (Or.inl (UInt16.lt_iff_toNat_lt.2 hlt))
      · rcases htail with htail | htail
        · exact Or.inl (Or.inr ⟨UInt16.toNat_inj.1 heq, htail⟩)
        · exact Or.inr (Or.inr ⟨UInt16.toNat_inj.1 heq.symm, htail⟩)
      · exact Or.inr (Or.inl (UInt16.lt_iff_toNat_lt.2 hgt))

theorem le_trans {t u v : Text} (htu : le t u = true) (huv : le u v = true) : le t v = true := by
  induction t generalizing u v with
  | nil => rfl
  | cons c t ih =>
    cases u with
    | nil => cases htu
    | cons d u =>
      cases v with
      | nil => cases huv
      | cons e v =>
        simp only [le, Bool.or_eq_true, Bool.and_eq_true, decide_eq_true_eq] at htu huv ⊢
        rcases htu with hcd | ⟨rfl, htu⟩
        · rcases huv with hde | ⟨rfl, -⟩
          · exact Or.inl (UInt16.lt_trans hcd hde)
          · exact Or.inl hcd
        · rcases huv with hde | ⟨rfl, huv⟩
          · exact Or.inl hde
          · exact Or.inr ⟨rfl, ih htu huv⟩

theorem le_antisymm {t u : Text} (htu : le t u = true) (hut : le u t = true) : t = u := by
  induction t generalizing u with
  | nil =>
    cases u with
    | nil => rfl
    | cons d u => cases hut
  | cons c t ih =>
    cases u with
    | nil => cases htu
    | cons d u =>
      simp only [le, Bool.or_eq_true, Bool.and_eq_true, decide_eq_true_eq] at htu hut
      rcases htu with hcd | ⟨rfl, htu⟩
      · rcases hut with hdc | ⟨rfl, -⟩
        · exact absurd hdc (UInt16.lt_asymm hcd)
        · exact absurd hcd (UInt16.lt_irrefl _)
      · rcases hut with hcc | ⟨-, hut⟩
        · exact absurd hcc (UInt16.lt_irrefl _)
        · rw [ih htu hut]

theorem mergeSort_eq {ts us : List Text} (hperm : us.Perm ts) (hsorted : us.Pairwise fun t u => le t u = true) :
    ts.mergeSort le = us := by
  have hsort : (ts.mergeSort le).Pairwise fun t u => le t u = true :=
    @List.pairwise_mergeSort _ le (fun _ _ _ => le_trans) le_total ts
  have hsame : (ts.mergeSort le).Perm us := (List.mergeSort_perm ts le).trans hperm.symm
  exact List.Perm.eq_of_pairwise (fun _ _ _ _ => le_antisymm) hsort hsorted hsame

end Text

namespace CategoryIndex

/-- Of files in ascending order, the last one is the greatest. -/
theorem le_lastFile? {files : Record Category} (hsorted : files.Pairwise fun a b => Text.le a.1 b.1 = true)
    {name language : Text} {last : Text × Category} (h : lastFile? files name language = some last)
    {file : Text × Category} (hfile : file ∈ files) (hname : file.2.name = name)
    (hlanguage : Category.languageOf file.1 = language) : Text.le file.1 last.1 = true := by
  obtain ⟨-, later, earlier, hsplit, hlater⟩ := List.find?_eq_some_iff_append.1 h
  have hfiles : files = earlier.reverse ++ last :: later.reverse := by
    rw [← List.reverse_reverse files, hsplit]
    simp
  rw [hfiles] at hfile hsorted
  rcases List.mem_append.1 hfile with hearlier | hfile
  · exact (List.pairwise_append.1 hsorted).2.2 file hearlier last List.mem_cons_self
  · rcases List.mem_cons.1 hfile with rfl | hmem
    · exact Text.le_refl file.1
    · have hno := hlater file (List.mem_reverse.1 hmem)
      simp [hname, hlanguage] at hno

end CategoryIndex

namespace Catalog

section Files
variable (disk : Disk) (directory : Text)

/-- A file of the directory that holds the metadata of a category. -/
def IsMetadata (file : Text) (c : Category) : Prop :=
  ∃ names, disk.list directory = .ok names ∧ file ∈ names ∧
    Text.endsWith file Category.fileEnding = true ∧ readFile disk directory file = .ok c

def Tells (name language file : Text) : Prop :=
  ∃ c, IsMetadata disk directory file c ∧ c.name = name ∧ Category.languageOf file = language

/-- The last of the files that tell of a category in a language. -/
def TellsLast (name language file : Text) : Prop :=
  Tells disk directory name language file ∧
    ∀ other, Tells disk directory name language other → Text.le other file = true

/-- All metadata of the directory, in order of the file names. -/
structure Gathers (files : Record Category) : Prop where
  mem : ∀ file c, (file, c) ∈ files ↔ IsMetadata disk directory file c
  sorted : files.Pairwise fun a b => Text.le a.1 b.1 = true

end Files

section Gathered
variable {disk : Disk} {directory : Text} {files : Record Category}

theorem mem_readable {results : List (Text × Except Failure Category)} {file : Text} {c : Category} :
    (file, c) ∈ readable results ↔ (file, Except.ok c) ∈ results := by
  unfold readable
  rw [List.mem_filterMap]
  constructor
  · rintro ⟨⟨other, result⟩, hmem, hresult⟩
    cases result with
    | error failure => cases hresult
    | ok found =>
      cases hresult
      exact hmem
  · intro hmem
    exact ⟨(file, .ok c), hmem, rfl⟩

theorem pairwise_readable {results : List (Text × Except Failure Category)}
    (h : results.Pairwise fun a b => Text.le a.1 b.1 = true) :
    (readable results).Pairwise fun a b => Text.le a.1 b.1 = true := by
  apply List.Pairwise.filterMap _ _ h
  rintro ⟨file, result⟩ ⟨other, result'⟩ hle a ha b hb
  cases result with
  | error failure => cases ha
  | ok c =>
    cases result' with
    | error failure => cases hb
    | ok d =>
      cases ha
      cases hb
      exact hle

theorem gathers_readable {names : List Text} (h : disk.list directory = .ok names) :
    Gathers disk directory
      (readable ((metadataFiles names).map fun file => (file, readFile disk directory file))) where
  mem := by
    intro file c
    rw [mem_readable, List.mem_map]
    constructor
    · rintro ⟨other, hother, heq⟩
      obtain ⟨rfl, hread⟩ := Prod.mk.inj heq
      obtain ⟨hmem, hends⟩ := List.mem_filter.1 ((List.mergeSort_perm _ _).mem_iff.1 hother)
      exact ⟨names, h, hmem, hends, hread⟩
    · rintro ⟨listed, hlisted, hmem, hends, hread⟩
      rw [h] at hlisted
      cases hlisted
      exact ⟨file, (List.mergeSort_perm _ _).mem_iff.2 (List.mem_filter.2 ⟨hmem, hends⟩), by rw [hread]⟩
  sorted := by
    apply pairwise_readable
    rw [List.pairwise_map]
    change (metadataFiles names).Pairwise fun a b => Text.le a b = true
    exact @List.pairwise_mergeSort _ Text.le (fun _ _ _ => Text.le_trans) Text.le_total _

/-- Opening succeeds on every path that is no file; a directory that is missing has no metadata. -/
theorem exists_build (h : disk.isFile directory = false) :
    ∃ files log, build disk directory = .ok (⟨directory, .ofCategories files, files⟩, log) ∧
      Gathers disk directory files := by
  cases hdirectory : disk.isDirectory directory with
  | false =>
    have hlist : disk.list directory = .error (.missing directory) := by
      simp [Disk.list, h, hdirectory]
    have hempty : CategoryIndex.ofCategories [] = .empty := by
      simp [CategoryIndex.ofCategories, CategoryIndex.empty, Record.arranged]
    refine ⟨[], [], by simp [build, Disk.exists?, h, hdirectory, hempty], ?_, List.Pairwise.nil⟩
    intro file c
    refine ⟨fun hmem => absurd hmem List.not_mem_nil, ?_⟩
    rintro ⟨names, hnames, -⟩
    rw [hlist] at hnames
    cases hnames
  | true =>
    obtain ⟨names, hnames⟩ : ∃ names, disk.list directory = .ok names :=
      ⟨_, by simp [Disk.list, h, hdirectory]; rfl⟩
    have hexists : (!disk.exists? directory) = false := by simp [Disk.exists?, hdirectory]
    have hbuild := build.eq_1 disk directory
    rw [hexists, hnames, if_neg Bool.false_ne_true] at hbuild
    dsimp only at hbuild
    exact ⟨_, _, hbuild, gathers_readable hnames⟩

/-- A catalog that is opened without an index has the index of its metadata. -/
theorem exists_ofDirectory {rebuild : Bool} (hdirectory : disk.isFile directory = false)
    (hfresh : rebuild = true ∨ disk.exists? (indexPath directory) = false) :
    ∃ files log, ofDirectory disk directory rebuild = .ok (⟨directory, .ofCategories files, files⟩, log) ∧
      Gathers disk directory files := by
  obtain ⟨files, log, hbuild, hfiles⟩ := exists_build hdirectory
  refine ⟨files, log, ?_, hfiles⟩
  unfold ofDirectory
  rw [if_pos]
  · exact hbuild
  · rcases hfresh with rfl | hfresh
    · rfl
    · rw [hfresh]
      exact Bool.or_true rebuild

theorem Gathers.tellsLast_iff (h : Gathers disk directory files) {name language file : Text} :
    TellsLast disk directory name language file ↔
      ∃ c, CategoryIndex.lastFile? files name language = some (file, c) := by
  have htells : ∀ {other : Text × Category}, other ∈ files → other.2.name = name →
      Category.languageOf other.1 = language → Tells disk directory name language other.1 := by
    intro other hother hname hlanguage
    exact ⟨other.2, (h.mem _ _).1 hother, hname, hlanguage⟩
  constructor
  · rintro ⟨⟨c, hmeta, hname, hlanguage⟩, hlast⟩
    have hmem : (file, c) ∈ files := (h.mem file c).2 hmeta
    cases hfound : CategoryIndex.lastFile? files name language with
    | none => exact (CategoryIndex.lastFile?_eq_none_iff.1 hfound (file, c) hmem hname hlanguage).elim
    | some last =>
      obtain ⟨hmem', hname', hlanguage'⟩ := CategoryIndex.lastFile?_eq_some hfound
      have heq : last.1 = file := Text.le_antisymm (hlast _ (htells hmem' hname' hlanguage'))
        (CategoryIndex.le_lastFile? h.sorted hfound hmem hname hlanguage)
      exact ⟨last.2, by rw [← heq]⟩
  · rintro ⟨c, hfound⟩
    obtain ⟨hmem, hname, hlanguage⟩ := CategoryIndex.lastFile?_eq_some hfound
    refine ⟨htells hmem hname hlanguage, ?_⟩
    rintro other ⟨d, hmeta, hname', hlanguage'⟩
    have hother : (other, d) ∈ files := (h.mem other d).2 hmeta
    exact CategoryIndex.le_lastFile? h.sorted hfound hother hname' hlanguage'

theorem Gathers.get? (h : Gathers disk directory files) {file : Text} {c : Category}
    (hmem : (file, c) ∈ files) : Record.get? files file = some c := by
  apply Record.get?_of_unique hmem
  intro d hd
  obtain ⟨_, _, _, _, hread⟩ := (h.mem file c).1 hmem
  obtain ⟨_, _, _, _, hread'⟩ := (h.mem file d).1 hd
  rw [hread] at hread'
  exact (Except.ok.inj hread').symm

end Gathered

/-- A catalog agrees with the metadata of its directory. Its answers need no file any more: they are
the same on every disk. -/
structure Consistent (disk : Disk) (directory : Text) (c : Catalog) : Prop where
  nodup : (Record.keys c.index.categories).Nodup
  categories : ∀ name, name ∈ Record.keys c.index.categories ↔
    ∃ file category, IsMetadata disk directory file category ∧ category.name = name
  languages : ∀ name entry, Record.get? c.index.categories name = some entry → ∀ language file,
    Record.get? entry.languages language = some file ↔ TellsLast disk directory name language file
  attributes : ∀ name entry, Record.get? c.index.categories name = some entry → ∀ file category,
    TellsLast disk directory name Category.defaultLanguage file → IsMetadata disk directory file category →
      entry.tags = category.tags.map (·.name) ∧ entry.fields = category.fields.map (·.name)
  noAttributes : ∀ name entry, Record.get? c.index.categories name = some entry →
    (∀ file, ¬Tells disk directory name Category.defaultLanguage file) → entry.tags = [] ∧ entry.fields = []
  lookup : ∀ name entry, Record.get? c.index.categories name = some entry →
    (∃ file, Tells disk directory name Category.defaultLanguage file) → ∀ later,
      Catalog.lookup later name c = (.found (entry.tags ++ entry.fields), c)
  info : ∀ name ∈ Record.keys c.index.categories, ∀ later language,
    ∃ category, c.info later name language = .ok (some category, c) ∧ category.name = name
  listed : ∀ lists ∈ [c.index.products, c.index.keywords], ∀ list ∈ lists,
    list.2.Nodup ∧ ∀ name ∈ list.2, name ∈ Record.keys c.index.categories
  product : ∀ name ∈ Record.keys c.index.categories,
    (∃! product, product ∈ c.index.products ∧ name ∈ product.2) ∧
      ∀ product ∈ c.index.products, name ∈ product.2 → product.1 = Category.productOf name

section Answers
variable {disk : Disk} {directory : Text} {files : Record Category}
open CategoryIndex

theorem category_of_mem (hfiles : Gathers disk directory files) {file : Text} {c : Category}
    (hmem : (file, c) ∈ files) (index : CategoryIndex) (later : Disk) :
    category ⟨directory, index, files⟩ later file = .ok (c, ⟨directory, index, files⟩) := by
  simp only [category, hfiles.get? hmem]

theorem info_eq_some (hfiles : Gathers disk directory files) {index : CategoryIndex} {name language : Text}
    {entry : IndexEntry} (hentry : Record.get? index.categories name = some entry) {file : Text} {c : Category}
    (hfile : entry.file? language = some file) (hmem : (file, c) ∈ files) (later : Disk) :
    info ⟨directory, index, files⟩ later name language = .ok (some c, ⟨directory, index, files⟩) := by
  simp only [info, hentry, Option.bind_some, hfile, category_of_mem hfiles hmem]
  rfl

theorem lookup_eq_found (hfiles : Gathers disk directory files) {name : Text} {entry : IndexEntry}
    (hentry : Record.get? (ofCategories files).categories name = some entry)
    (htells : ∃ file, Tells disk directory name Category.defaultLanguage file) (later : Disk) :
    Catalog.lookup later name ⟨directory, ofCategories files, files⟩ =
      (.found (entry.tags ++ entry.fields), ⟨directory, ofCategories files, files⟩) := by
  obtain ⟨-, -, hreflects⟩ := reflects_of_get? hentry
  cases hlast : lastFile? files name Category.defaultLanguage with
  | none =>
    obtain ⟨file, c, hmeta, hname, hlanguage⟩ := htells
    exact (lastFile?_eq_none_iff.1 hlast (file, c) ((hfiles.mem file c).2 hmeta) hname hlanguage).elim
  | some last =>
    have hget := hreflects.languages Category.defaultLanguage
    rw [hlast, Option.map_some] at hget
    have hfile : entry.file? Category.defaultLanguage = some last.1 := by simp [IndexEntry.file?, hget]
    have hinfo := info_eq_some hfiles hentry hfile (lastFile?_eq_some hlast).1 later
    have hnames : entry.tags ++ entry.fields = last.2.attributes.map (·.name) := by
      rw [hreflects.tags, hreflects.fields, hlast]
      simp [Category.attributes]
    simp only [Catalog.lookup, attributes, hinfo, Except.map, Option.map_some, hnames]

theorem consistent_of_gathers (hfiles : Gathers disk directory files)
    (hnames : ∀ file ∈ files, file.2.name ≠ Record.reservedKey) :
    Consistent disk directory ⟨directory, ofCategories files, files⟩ where
  nodup := nodup_keys_ofCategories files
  categories := by
    intro name
    rw [mem_keys_ofCategories]
    constructor
    · rintro ⟨-, file, hfile, heq⟩
      exact ⟨file.1, file.2, (hfiles.mem _ _).1 hfile, heq⟩
    · rintro ⟨file, c, hmeta, rfl⟩
      have hmem : (file, c) ∈ files := (hfiles.mem file c).2 hmeta
      exact ⟨hnames _ hmem, (file, c), hmem, rfl⟩
  languages := by
    intro name entry hentry language file
    obtain ⟨-, -, hreflects⟩ := reflects_of_get? hentry
    rw [hreflects.languages, hfiles.tellsLast_iff, Option.map_eq_some_iff]
    constructor
    · rintro ⟨⟨found, c⟩, hfound, rfl⟩
      exact ⟨c, hfound⟩
    · rintro ⟨c, hfound⟩
      exact ⟨(file, c), hfound, rfl⟩
  attributes := by
    intro name entry hentry file c hlast hmeta
    obtain ⟨-, -, hreflects⟩ := reflects_of_get? hentry
    obtain ⟨d, hfound⟩ := hfiles.tellsLast_iff.1 hlast
    have hcd : d = c := by
      have hc := hfiles.get? ((hfiles.mem file c).2 hmeta)
      rw [hfiles.get? (lastFile?_eq_some hfound).1] at hc
      exact Option.some.inj hc
    rw [hreflects.tags, hreflects.fields, hfound, hcd]
    exact ⟨rfl, rfl⟩
  noAttributes := by
    intro name entry hentry hnone
    obtain ⟨-, -, hreflects⟩ := reflects_of_get? hentry
    have hlast : lastFile? files name Category.defaultLanguage = none := by
      apply lastFile?_eq_none_iff.2
      intro file hfile hname hlanguage
      exact hnone file.1 ⟨file.2, (hfiles.mem _ _).1 hfile, hname, hlanguage⟩
    rw [hreflects.tags, hreflects.fields, hlast]
    exact ⟨rfl, rfl⟩
  lookup := by
    intro name entry hentry htells later
    exact lookup_eq_found hfiles hentry htells later
  info := by
    intro name hname later language
    obtain ⟨entry, hentry⟩ := Option.ne_none_iff_exists'.1 (mt Record.get?_eq_none_iff.1 (not_not_intro hname))
    obtain ⟨-, hexists, hreflects⟩ := reflects_of_get? hentry
    obtain ⟨file, hmem, hfile, heq⟩ := hreflects.file? hexists language
    exact ⟨file.2, info_eq_some hfiles hentry hfile hmem later, heq⟩
  listed := by
    intro lists hlists list hlist
    rcases List.mem_cons.1 hlists with rfl | hlists
    · constructor
      · rw [← (tidy_products files).listed_of_mem (mem_products_iff.1 hlist)]
        exact (tidy_products files).names _
      · intro name hname
        obtain ⟨-, file, hfile, rfl⟩ := product_of_mem hlist hname
        exact mem_keys_ofCategories.2 ⟨hnames file hfile, file, hfile, rfl⟩
    · rw [List.mem_singleton.1 hlists] at hlist
      have hlisted := (tidy_keywords files).listed_of_mem (mem_keywords_iff.1 hlist)
      constructor
      · rw [← hlisted]
        exact (tidy_keywords files).names _
      · intro name hname
        rw [← hlisted] at hname
        obtain ⟨-, file, hfile, rfl, -⟩ := mem_listed_keyword.1 hname
        exact mem_keys_ofCategories.2 ⟨hnames file hfile, file, hfile, rfl⟩
  product := by
    intro name hname
    obtain ⟨-, hexists⟩ := mem_keys_ofCategories.1 hname
    exact ⟨existsUnique_product hexists, fun list hlist hmem => (product_of_mem hlist hmem).1⟩

end Answers

/-- A catalog that is made from the metadata of its directory agrees with them. -/
theorem exists_consistent {disk : Disk} {directory : Text} {rebuild : Bool}
    (hdirectory : disk.isFile directory = false)
    (hfresh : rebuild = true ∨ disk.exists? (indexPath directory) = false)
    (hnames : ∀ file c, IsMetadata disk directory file c → c.name ≠ Record.reservedKey) :
    ∃ c log, ofDirectory disk directory rebuild = .ok (c, log) ∧ Consistent disk directory c := by
  obtain ⟨files, log, hopen, hfiles⟩ := exists_ofDirectory hdirectory hfresh
  refine ⟨_, log, hopen, consistent_of_gathers hfiles fun file hfile => ?_⟩
  exact hnames file.1 file.2 ((hfiles.mem _ _).1 hfile)

/-- A category in two languages, the English one told twice, and a file that is no metadata. -/
def sampleDisk : Disk where
  files := [("/m/db_ko.meta", "\x7b\"categoryName\":\"db\"\x7d"),
    ("/m/db.meta", "\x7b\"categoryName\":\"db\",\"tags\":[\x7b\"tagName\":\"host\"\x7d]\x7d"),
    ("/m/db2.meta", "\x7b\"categoryName\":\"db\",\"fields\":[\x7b\"fieldName\":\"cpu\"\x7d]\x7d"),
    ("/m/no.meta", "")]
  directories := []

def sampleFiles : List Text := ["db.meta", "db2.meta", "db_ko.meta", "no.meta"]

/-- What the last English file and the Korean one tell. -/
def sampleIndex : CategoryIndex where
  categories := [("db", ⟨[], .text [], [], [], [("en", "db2.meta"), ("ko", "db_ko.meta")], [], ["cpu"]⟩)]
  products := [("db", ["db"])]
  keywords := [("db", ["db"])]

theorem index_sampleDisk : (ofDirectory sampleDisk "/m" true).toOption.map (·.1.index) = some sampleIndex := by
  have hnames : (((Record.keys sampleDisk.files ++ sampleDisk.directories).filterMap
      (Disk.nameIn? "/m")).eraseDups).mergeSort Text.le = sampleFiles :=
    Text.mergeSort_eq (by decide +kernel) (by decide +kernel)
  have hlist : sampleDisk.list "/m" = .ok sampleFiles := by
    rw [Disk.list, hnames]
    rfl
  have hfiles : metadataFiles sampleFiles = sampleFiles := Text.mergeSort_eq (by decide +kernel) (by decide +kernel)
  simp only [ofDirectory, build, hlist, hfiles]
  decide +kernel

theorem sampleDisk_consistent : ∃ c log, ofDirectory sampleDisk "/m" true = .ok (c, log) ∧ c.index = sampleIndex ∧
    Consistent sampleDisk "/m" c := by
  have hnames : ∀ file c, IsMetadata sampleDisk "/m" file c → c.name ≠ Record.reservedKey := by
    rintro file c ⟨names, hlist, hmem, -, hread⟩
    have hall : ∀ file ∈ (Record.keys sampleDisk.files ++ sampleDisk.directories).filterMap (Disk.nameIn? "/m"),
        (readFile sampleDisk "/m" file).toOption.all (·.name ≠ Record.reservedKey) = true := by
      decide +kernel
    have hname := hall file (Disk.mem_of_mem_list hlist hmem)
    rw [hread] at hname
    exact of_decide_eq_true hname
  obtain ⟨c, log, hopen, hconsistent⟩ := @exists_consistent sampleDisk "/m" true (by decide +kernel) (Or.inl rfl) hnames
  have hindex := index_sampleDisk
  rw [hopen] at hindex
  exact ⟨c, log, hopen, Option.some.inj hindex, hconsistent⟩

end Catalog
end QueryLint
