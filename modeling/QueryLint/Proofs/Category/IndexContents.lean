import Mathlib.Data.List.Induction
import QueryLint.Category.Index
import QueryLint.Proofs.Disks

/-!
What stands in the index of a list of metadata files: an entry for every category, made of the last
file in each language, and lists of names that follow from the files alone. Each fact is kept by
adding one more file.
-/

namespace QueryLint
set_option autoImplicit false

namespace Text

theorem lt_of_mem_scalars {t : Text} {n : Nat} (h : n ∈ scalars t) : n < 0x110000 := by
  fun_induction scalars t with
  | case1 => cases h
  | case2 c =>
    have hc := c.toNat_lt
    rw [List.mem_singleton.1 h]
    omega
  | case3 c d rest hpair ih =>
    rcases List.mem_cons.1 h with heq | h
    · simp only [CodeUnit.isHighSurrogate, CodeUnit.isLowSurrogate, Bool.and_eq_true, decide_eq_true_eq,
        UInt16.le_iff_toNat_le] at hpair
      have hhigh : c.toNat ≤ 0xDBFF := hpair.1.2
      have hlow : d.toNat ≤ 0xDFFF := hpair.2.2
      omega
    · exact ih h
  | case4 c d rest hpair ih =>
    have hc := c.toNat_lt
    rcases List.mem_cons.1 h with heq | h
    · omega
    · exact ih h

theorem mem_of_mem_scalars {t : Text} {c : CodeUnit} (h : c.toNat ∈ scalars t) : c ∈ t := by
  fun_induction scalars t with
  | case1 => cases h
  | case2 d =>
    rw [List.mem_singleton]
    exact UInt16.toNat_inj.1 (List.mem_singleton.1 h)
  | case3 d e rest hpair ih =>
    have hc := c.toNat_lt
    rcases List.mem_cons.1 h with heq | h
    · omega
    · exact List.mem_cons_of_mem _ (List.mem_cons_of_mem _ (ih h))
  | case4 d e rest hpair ih =>
    rcases List.mem_cons.1 h with heq | h
    · rw [UInt16.toNat_inj.1 heq]
      exact List.mem_cons_self
    · exact List.mem_cons_of_mem _ (ih h)

/-- The ranges of the table lead to letters of the Unicode range, behind the underscore. -/
theorem lowerRanges_bounds :
    ∀ r ∈ Case.lowerRanges, 0x60 ≤ r.image ∧ r.image + (r.last - r.first) < 0x110000 := by
  decide +kernel

theorem lowerScalar_bounds {n m : Nat} (hn : n < 0x110000) (h : m ∈ Case.lowerScalar n) :
    m < 0x110000 ∧ (m = 0x5F → n = 0x5F) := by
  unfold Case.lowerScalar at h
  split at h
  · rw [List.mem_singleton] at h
    split at h
    · rename_i hupper
      simp only [Bool.and_eq_true, decide_eq_true_eq] at hupper
      omega
    · omega
  · split at h
    · rcases List.mem_cons.1 h with h | h
      · omega
      · rw [List.mem_singleton] at h
        omega
    · rw [List.mem_singleton] at h
      cases hfind : Case.lowerRanges.findSome? (·.map? n) with
      | none =>
        rw [hfind, Option.getD_none] at h
        omega
      | some image =>
        rw [hfind, Option.getD_some] at h
        obtain ⟨r, hr, hmap⟩ := List.exists_of_findSome?_eq_some hfind
        have hbounds := lowerRanges_bounds r hr
        unfold Case.Range.map? at hmap
        split at hmap
        · rename_i hrange
          simp only [Bool.and_eq_true, decide_eq_true_eq] at hrange
          cases hmap
          omega
        · cases hmap

theorem lowerScalars_bounds {ns before : List Nat} (hns : ∀ n ∈ ns, n < 0x110000) {m : Nat}
    (h : m ∈ Case.lowerScalars before ns) : m < 0x110000 ∧ (m = 0x5F → 0x5F ∈ ns) := by
  induction ns generalizing before with
  | nil => cases h
  | cons n ns ih =>
    rw [Case.lowerScalars] at h
    rcases List.mem_append.1 h with h | h
    · split at h
      · rw [List.mem_singleton] at h
        split at h <;> omega
      · obtain ⟨hbound, hback⟩ := lowerScalar_bounds (hns n List.mem_cons_self) h
        refine ⟨hbound, ?_⟩
        intro hm
        rw [← hback hm]
        exact List.mem_cons_self
    · obtain ⟨hbound, hback⟩ := ih (fun k hk => hns k (List.mem_cons_of_mem _ hk)) h
      exact ⟨hbound, fun hm => List.mem_cons_of_mem _ (hback hm)⟩

theorem eq_of_underscore_mem_ofScalar {n : Nat} (hn : n < 0x110000)
    (h : CodeUnit.ofChar '_' ∈ CodeUnit.ofScalar n) : n = 0x5F := by
  have hunderscore : (CodeUnit.ofChar '_').toNat = 0x5F := by decide
  unfold CodeUnit.ofScalar at h
  split at h
  · have heq := congrArg UInt16.toNat (List.mem_singleton.1 h)
    rw [hunderscore, Nat.toUInt16_eq, UInt16.toNat_ofNat'] at heq
    omega
  · rcases List.mem_cons.1 h with h | h
    · have heq := congrArg UInt16.toNat h
      rw [hunderscore, Nat.toUInt16_eq, UInt16.toNat_ofNat'] at heq
      omega
    · have heq := congrArg UInt16.toNat (List.mem_singleton.1 h)
      rw [hunderscore, Nat.toUInt16_eq, UInt16.toNat_ofNat'] at heq
      omega

theorem underscore_mem_of_lower {t : Text} (h : CodeUnit.ofChar '_' ∈ lower t) :
    CodeUnit.ofChar '_' ∈ t := by
  obtain ⟨m, hm, hunit⟩ := List.mem_flatMap.1 h
  obtain ⟨hbound, hback⟩ := lowerScalars_bounds (fun n hn => lt_of_mem_scalars hn) hm
  exact mem_of_mem_scalars (c := CodeUnit.ofChar '_') (hback (eq_of_underscore_mem_ofScalar hbound hunit))

end Text

theorem Category.productOf_ne_reservedKey (name : Text) : productOf name ≠ Record.reservedKey := by
  intro heq
  have hunderscore : CodeUnit.ofChar '_' ∈ Record.reservedKey := by decide
  rw [← heq] at hunderscore
  have hpiece := Text.underscore_mem_of_lower hunderscore
  cases hsplit : Text.splitOn '_' name with
  | nil =>
    rw [hsplit] at hpiece
    cases hpiece
  | cons piece pieces =>
    rw [hsplit] at hpiece
    refine Text.not_mem_of_mem_splitOn (t := name) ?_ hpiece
    rw [hsplit]
    exact List.mem_cons_self

namespace CategoryIndex

def listed (lists : Record (List Text)) (key : Text) : List Text := (Record.get? lists key).getD []

section Names
variable (key name : Text) (lists : Record (List Text))

theorem listed_addName (k : Text) :
    listed (addName key name lists) k =
      if k = key ∧ key ≠ Record.reservedKey then
        if name ∈ listed lists key then listed lists key else listed lists key ++ [name]
      else listed lists k := by
  simp only [listed, addName, Record.get?_assign, List.contains_iff_mem]
  split
  · rfl
  · rfl

theorem mem_listed_addName {k n : Text} :
    n ∈ listed (addName key name lists) k ↔
      (n = name ∧ k = key ∧ k ≠ Record.reservedKey) ∨ n ∈ listed lists k := by
  rw [listed_addName]
  split
  · rename_i hk
    obtain ⟨rfl, hkey⟩ := hk
    split
    · rename_i hname
      constructor
      · exact Or.inr
      · rintro (⟨rfl, -⟩ | hn)
        · exact hname
        · exact hn
    · rw [List.mem_append, List.mem_singleton, or_comm]
      simp [hkey]
  · rename_i hk
    constructor
    · exact Or.inr
    · rintro (⟨rfl, rfl, hkey⟩ | hn)
      · exact absurd ⟨rfl, hkey⟩ hk
      · exact hn

theorem nodup_listed_addName (h : ∀ k, (listed lists k).Nodup) (k : Text) :
    (listed (addName key name lists) k).Nodup := by
  rw [listed_addName]
  split
  · split
    · exact h key
    · rename_i hname
      rw [List.nodup_append]
      refine ⟨h key, by simp, ?_⟩
      intro a ha b hb
      rw [List.mem_singleton.1 hb]
      rintro rfl
      exact hname ha
  · exact h k

end Names

/-- The index of files before its members are put in order. -/
def gathered (files : Record Category) : CategoryIndex :=
  files.foldl (fun index file => index.addCategory file.1 file.2) empty

def lastFile? (files : Record Category) (name language : Text) : Option (Text × Category) :=
  files.reverse.find? fun file => file.2.name = name && Category.languageOf file.1 = language

theorem gathered_concat (files : Record Category) (file : Text) (c : Category) :
    gathered (files ++ [(file, c)]) = (gathered files).addCategory file c := by
  simp [gathered]

theorem lastFile?_concat (files : Record Category) (file : Text) (c : Category) (name language : Text) :
    lastFile? (files ++ [(file, c)]) name language =
      if c.name = name ∧ Category.languageOf file = language then some (file, c)
      else lastFile? files name language := by
  rw [lastFile?, List.reverse_append, List.reverse_singleton, List.singleton_append, List.find?_cons]
  by_cases h : c.name = name ∧ Category.languageOf file = language
  · simp [h]
  · have hfalse : (decide (c.name = name) && decide (Category.languageOf file = language)) = false := by
      rw [← Bool.decide_and]
      exact decide_eq_false h
    rw [if_neg h, hfalse]
    rfl

theorem lastFile?_eq_some {files : Record Category} {name language : Text} {file : Text × Category}
    (h : lastFile? files name language = some file) :
    file ∈ files ∧ file.2.name = name ∧ Category.languageOf file.1 = language := by
  have hfound := List.find?_some h
  simp only [Bool.and_eq_true, decide_eq_true_eq] at hfound
  exact ⟨List.mem_reverse.1 (List.mem_of_find?_eq_some h), hfound⟩

theorem lastFile?_eq_none_iff {files : Record Category} {name language : Text} :
    lastFile? files name language = none ↔
      ∀ file ∈ files, file.2.name = name → Category.languageOf file.1 ≠ language := by
  simp [lastFile?]

theorem lastFile?_eq_none {files : Record Category} {name : Text} (h : ∀ file ∈ files, file.2.name ≠ name)
    (language : Text) : lastFile? files name language = none := by
  apply List.find?_eq_none.2
  intro file hfile
  simp [h file (List.mem_reverse.1 hfile)]

/-- An entry tells the last file in each language, and the attributes of the last one in the default
language. -/
structure Reflects (files : Record Category) (name : Text) (e : IndexEntry) : Prop where
  nodup : (Record.keys e.languages).Nodup
  languages : ∀ language, Record.get? e.languages language = (lastFile? files name language).map (·.1)
  tags : e.tags = ((lastFile? files name Category.defaultLanguage).map fun file =>
    file.2.tags.map (·.name)).getD []
  fields : e.fields = ((lastFile? files name Category.defaultLanguage).map fun file =>
    file.2.fields.map (·.name)).getD []

theorem reflects_ofCategory {files : Record Category} {name : Text}
    (h : ∀ file ∈ files, file.2.name ≠ name) (c : Category) : Reflects files name (.ofCategory c) := by
  have hnone := lastFile?_eq_none h
  exact ⟨List.nodup_nil, fun language => by rw [hnone]; rfl, by rw [hnone]; rfl, by rw [hnone]; rfl⟩

theorem Reflects.addFile {files : Record Category} {name : Text} {e : IndexEntry}
    (h : Reflects files name e) {file : Text} {c : Category} (hc : c.name = name) :
    Reflects (files ++ [(file, c)]) name (e.addFile file c) := by
  have hlanguages : (e.addFile file c).languages =
      Record.set (Category.languageOf file) file e.languages := by
    unfold IndexEntry.addFile
    dsimp only
    split <;> rfl
  refine ⟨?_, ?_, ?_, ?_⟩
  · rw [hlanguages]
    exact Record.nodup_keys_set h.nodup _ _
  · intro language
    rw [hlanguages, Record.get?_set, lastFile?_concat, h.languages]
    simp only [hc, true_and, eq_comm (a := language)]
    split <;> rfl
  · rw [lastFile?_concat]
    unfold IndexEntry.addFile
    dsimp only
    by_cases hlanguage : Category.languageOf file = Category.defaultLanguage
    · simp [hlanguage, hc]
    · simp [hlanguage, h.tags]
  · rw [lastFile?_concat]
    unfold IndexEntry.addFile
    dsimp only
    by_cases hlanguage : Category.languageOf file = Category.defaultLanguage
    · simp [hlanguage, hc]
    · simp [hlanguage, h.fields]

theorem Reflects.addOther {files : Record Category} {name : Text} {e : IndexEntry}
    (h : Reflects files name e) {file : Text} {c : Category} (hc : c.name ≠ name) :
    Reflects (files ++ [(file, c)]) name e := by
  have hlast : ∀ language, lastFile? (files ++ [(file, c)]) name language = lastFile? files name language := by
    intro language
    rw [lastFile?_concat, if_neg fun hboth => hc hboth.1]
  exact ⟨h.nodup, fun language => by rw [hlast]; exact h.languages language,
    by rw [hlast]; exact h.tags, by rw [hlast]; exact h.fields⟩

theorem Reflects.exists_of_mem {files : Record Category} {name : Text} {e : IndexEntry}
    (h : Reflects files name e) {language file : Text} (hmem : (language, file) ∈ e.languages) :
    ∃ c, lastFile? files name language = some (file, c) := by
  have hget := (Record.get?_eq_some_iff h.nodup).2 hmem
  rw [h.languages] at hget
  obtain ⟨⟨found, c⟩, hfound, rfl⟩ := Option.map_eq_some_iff.1 hget
  exact ⟨c, hfound⟩

theorem languageOf_mem (file : Text) :
    Category.languageOf file ∈ Category.defaultLanguage :: Category.namedLanguages := by
  unfold Category.languageOf
  dsimp only
  cases hfind : Category.namedLanguages.find? fun language =>
      Text.endsWith (Path.stem file Category.fileEnding) ("_" ++ language) with
  | none => exact List.mem_cons_self
  | some language => exact List.mem_cons_of_mem _ (List.mem_of_find?_eq_some hfind)

/-- The languages of an entry are those that file names tell. -/
theorem Reflects.isListing {files : Record Category} {name : Text} {e : IndexEntry} (h : Reflects files name e) :
    Record.IsListing e.languages := by
  have hplain : ∀ language ∈ Category.defaultLanguage :: Category.namedLanguages,
      Record.isIndex language = false ∧ language ≠ Record.reservedKey := by decide
  have hlanguages : ∀ pair ∈ e.languages, pair.1 ∈ Category.defaultLanguage :: Category.namedLanguages := by
    intro pair hpair
    obtain ⟨c, hlast⟩ := h.exists_of_mem hpair
    rw [← (lastFile?_eq_some hlast).2.2]
    exact languageOf_mem pair.2
  refine ⟨h.nodup, ?_, ?_⟩
  · apply Record.arranged_of_not_isIndex
    intro pair hpair
    exact (hplain _ (hlanguages pair hpair)).1
  · intro hmem
    obtain ⟨file, hpair⟩ := Record.mem_keys_iff.1 hmem
    exact (hplain _ (hlanguages _ hpair)).2 rfl

/-- In whatever language an entry is asked for, it gives a file of its category. -/
theorem Reflects.file? {files : Record Category} {name : Text} {e : IndexEntry} (h : Reflects files name e)
    (hfile : ∃ file ∈ files, file.2.name = name) (language : Text) :
    ∃ file ∈ files, e.file? language = some file.1 ∧ file.2.name = name := by
  have hof : ∀ pair ∈ e.languages, e.file? language = some pair.2 →
      ∃ file ∈ files, e.file? language = some file.1 ∧ file.2.name = name := by
    rintro ⟨l, file⟩ hmem hget
    obtain ⟨c, hlast⟩ := h.exists_of_mem hmem
    obtain ⟨hin, hname, -⟩ := lastFile?_eq_some hlast
    exact ⟨(file, c), hin, hget, hname⟩
  cases hasked : Record.get? e.languages language with
  | some file => exact hof _ (Record.mem_of_get? hasked) (by simp [IndexEntry.file?, hasked])
  | none =>
    cases hdefault : Record.get? e.languages Category.defaultLanguage with
    | some file => exact hof _ (Record.mem_of_get? hdefault) (by simp [IndexEntry.file?, hasked, hdefault])
    | none =>
      cases hlanguages : e.languages with
      | cons pair pairs =>
        refine hof pair (by rw [hlanguages]; exact List.mem_cons_self) ?_
        rw [hlanguages] at hasked hdefault
        simp [IndexEntry.file?, hlanguages, hasked, hdefault, Record.values]
      | nil =>
        -- The file that is known to be there has a language, and under it the entry has a file.
        obtain ⟨file, hin, hname⟩ := hfile
        have hnone := h.languages (Category.languageOf file.1)
        rw [hlanguages, Record.get?_nil, eq_comm, Option.map_eq_none_iff, lastFile?_eq_none_iff] at hnone
        exact absurd rfl (hnone file hin hname)

def Describes (files : Record Category) (name : Text) : Option IndexEntry → Prop
  | none => ∀ file ∈ files, file.2.name ≠ name
  | some e => (∃ file ∈ files, file.2.name = name) ∧ Reflects files name e

theorem Describes.reflects {files : Record Category} {name : Text} {found : Option IndexEntry}
    (h : Describes files name found) (c : Category) : Reflects files name (found.getD (.ofCategory c)) := by
  cases found with
  | none => exact reflects_ofCategory h c
  | some e => exact h.2

theorem describes_gathered {name : Text} (hname : name ≠ Record.reservedKey) (files : Record Category) :
    Describes files name (Record.get? (gathered files).categories name) := by
  induction files using List.reverseRecOn with
  | nil => exact fun file hfile => absurd hfile List.not_mem_nil
  | append_singleton files file ih =>
    obtain ⟨file, c⟩ := file
    rw [gathered_concat, addCategory]
    dsimp only
    rw [Record.get?_assign]
    by_cases hc : c.name = name
    · subst hc
      rw [if_pos ⟨rfl, hname⟩]
      exact ⟨⟨(file, c), by simp, rfl⟩, (ih.reflects c).addFile rfl⟩
    · rw [if_neg fun h => hc h.1.symm]
      cases hfound : Record.get? (gathered files).categories name with
      | none =>
        rw [hfound] at ih
        intro other hother
        rcases List.mem_append.1 hother with hother | hother
        · exact ih other hother
        · rw [List.mem_singleton.1 hother]
          exact hc
      | some e =>
        rw [hfound] at ih
        obtain ⟨⟨other, hother, heq⟩, hreflects⟩ := ih
        exact ⟨⟨other, List.mem_append_left _ hother, heq⟩, hreflects.addOther hc⟩

theorem nodup_keys_categories (files : Record Category) :
    (Record.keys (gathered files).categories).Nodup := by
  induction files using List.reverseRecOn with
  | nil => exact List.nodup_nil
  | append_singleton files file ih =>
    rw [gathered_concat]
    exact Record.nodup_keys_assign ih _ _

theorem interval_of_mem {files : Record Category} {entry : Text × IndexEntry}
    (h : entry ∈ (gathered files).categories) : ∃ file ∈ files, entry.2.interval = file.2.interval := by
  induction files using List.reverseRecOn generalizing entry with
  | nil => cases h
  | append_singleton files file ih =>
    obtain ⟨file, c⟩ := file
    have hlater : ∀ {e : Text × IndexEntry}, e ∈ (gathered files).categories →
        ∃ other ∈ files ++ [(file, c)], e.2.interval = other.2.interval := by
      intro e he
      obtain ⟨other, hother, heq⟩ := ih he
      exact ⟨other, List.mem_append_left _ hother, heq⟩
    rw [gathered_concat] at h
    rcases Record.mem_assign h with ⟨rfl, -⟩ | h
    · have hkept : ∀ e : IndexEntry, (e.addFile file c).interval = e.interval := by
        intro e
        unfold IndexEntry.addFile
        dsimp only
        split <;> rfl
      rw [hkept]
      cases hfound : Record.get? (gathered files).categories c.name with
      | none => exact ⟨(file, c), by simp, rfl⟩
      | some e => exact hlater (Record.mem_of_get? hfound)
    · exact hlater h

theorem unreserved_categories (files : Record Category) :
    Record.reservedKey ∉ Record.keys (gathered files).categories := by
  induction files using List.reverseRecOn with
  | nil => exact List.not_mem_nil
  | append_singleton files file ih =>
    rw [gathered_concat, addCategory, Record.mem_keys_assign, not_or]
    exact ⟨fun h => h.2 rfl, ih⟩

theorem mem_listed_keywords (name : Text) (keywords : List Text) (lists : Record (List Text)) {k n : Text} :
    n ∈ listed (keywords.foldl (fun lists keyword => addName keyword name lists) lists) k ↔
      (n = name ∧ k ∈ keywords ∧ k ≠ Record.reservedKey) ∨ n ∈ listed lists k := by
  induction keywords generalizing lists with
  | nil => simp
  | cons keyword keywords ih =>
    rw [List.foldl_cons, ih, mem_listed_addName, List.mem_cons]
    constructor
    · rintro (⟨hn, hk, hkey⟩ | ⟨hn, hk, hkey⟩ | hn)
      · exact Or.inl ⟨hn, Or.inr hk, hkey⟩
      · exact Or.inl ⟨hn, Or.inl hk, hkey⟩
      · exact Or.inr hn
    · rintro (⟨hn, hk | hk, hkey⟩ | hn)
      · exact Or.inr (Or.inl ⟨hn, hk, hkey⟩)
      · exact Or.inl ⟨hn, hk, hkey⟩
      · exact Or.inr (Or.inr hn)

theorem mem_listed_products {files : Record Category} {product name : Text} :
    name ∈ listed (gathered files).products product ↔
      product = Category.productOf name ∧ ∃ file ∈ files, file.2.name = name := by
  induction files using List.reverseRecOn with
  | nil => simp [gathered, empty, listed]
  | append_singleton files file ih =>
    obtain ⟨file, c⟩ := file
    rw [gathered_concat, addCategory]
    dsimp only
    rw [mem_listed_addName, ih]
    constructor
    · rintro (⟨rfl, rfl, -⟩ | ⟨hproduct, other, hother, hname⟩)
      · exact ⟨rfl, (file, c), by simp, rfl⟩
      · exact ⟨hproduct, other, List.mem_append_left _ hother, hname⟩
    · rintro ⟨rfl, other, hother, hname⟩
      rcases List.mem_append.1 hother with hother | hother
      · exact Or.inr ⟨rfl, other, hother, hname⟩
      · rw [List.mem_singleton.1 hother] at hname
        subst hname
        exact Or.inl ⟨rfl, rfl, Category.productOf_ne_reservedKey _⟩

theorem mem_listed_keyword {files : Record Category} {keyword name : Text} :
    name ∈ listed (gathered files).keywords keyword ↔
      keyword ≠ Record.reservedKey ∧ ∃ file ∈ files, file.2.name = name ∧ keyword ∈ file.2.keywords := by
  induction files using List.reverseRecOn with
  | nil => simp [gathered, empty, listed]
  | append_singleton files file ih =>
    obtain ⟨file, c⟩ := file
    rw [gathered_concat, addCategory]
    dsimp only
    rw [mem_listed_keywords, ih]
    constructor
    · rintro (⟨rfl, hkeyword, hkey⟩ | ⟨hkey, other, hother, hname⟩)
      · exact ⟨hkey, (file, c), by simp, rfl, hkeyword⟩
      · exact ⟨hkey, other, List.mem_append_left _ hother, hname⟩
    · rintro ⟨hkey, other, hother, hname, hkeyword⟩
      rcases List.mem_append.1 hother with hother | hother
      · exact Or.inr ⟨hkey, other, hother, hname, hkeyword⟩
      · rw [List.mem_singleton.1 hother] at hname hkeyword
        exact Or.inl ⟨hname.symm, hkeyword, hkey⟩

/-- Lists of names with one list for each key and no name twice in it. -/
structure Tidy (lists : Record (List Text)) : Prop where
  keys : (Record.keys lists).Nodup
  names : ∀ key, (listed lists key).Nodup
  unreserved : Record.reservedKey ∉ Record.keys lists

theorem tidy_nil : Tidy [] := ⟨List.nodup_nil, fun _ => List.nodup_nil, List.not_mem_nil⟩

theorem Tidy.addName {lists : Record (List Text)} (h : Tidy lists) (key name : Text) :
    Tidy (addName key name lists) where
  keys := Record.nodup_keys_assign h.keys _ _
  names := nodup_listed_addName key name lists h.names
  unreserved := by
    intro hmem
    rcases Record.mem_keys_assign.1 hmem with ⟨-, hkey⟩ | hmem
    · exact hkey rfl
    · exact h.unreserved hmem

theorem Tidy.addKeywords {lists : Record (List Text)} (h : Tidy lists) (name : Text) (keywords : List Text) :
    Tidy (keywords.foldl (fun lists keyword => CategoryIndex.addName keyword name lists) lists) := by
  induction keywords generalizing lists with
  | nil => exact h
  | cons keyword keywords ih => exact ih (h.addName keyword name)

theorem tidy_products (files : Record Category) : Tidy (gathered files).products := by
  induction files using List.reverseRecOn with
  | nil => exact tidy_nil
  | append_singleton files file ih =>
    rw [gathered_concat]
    exact ih.addName _ _

theorem tidy_keywords (files : Record Category) : Tidy (gathered files).keywords := by
  induction files using List.reverseRecOn with
  | nil => exact tidy_nil
  | append_singleton files file ih =>
    rw [gathered_concat]
    exact ih.addKeywords _ _

theorem Tidy.listed_of_mem {lists : Record (List Text)} (h : Tidy lists) {list : Text × List Text}
    (hlist : list ∈ lists) : listed lists list.1 = list.2 := by
  rw [listed, (Record.get?_eq_some_iff h.keys).2 hlist, Option.getD_some]

theorem mem_of_mem_listed {lists : Record (List Text)} {key name : Text} (h : name ∈ listed lists key) :
    (key, listed lists key) ∈ lists := by
  cases hfound : Record.get? lists key with
  | none =>
    rw [listed, hfound] at h
    cases h
  | some names =>
    rw [listed, hfound]
    exact Record.mem_of_get? hfound

section Arranged
variable {files : Record Category}

theorem nodup_keys_ofCategories (files : Record Category) :
    (Record.keys (ofCategories files).categories).Nodup :=
  Record.nodup_keys_arranged (nodup_keys_categories files)

theorem get?_ofCategories (name : Text) :
    Record.get? (ofCategories files).categories name = Record.get? (gathered files).categories name :=
  Record.get?_arranged (nodup_keys_categories files) name

theorem reflects_of_get? {name : Text} {entry : IndexEntry}
    (h : Record.get? (ofCategories files).categories name = some entry) :
    name ≠ Record.reservedKey ∧ (∃ file ∈ files, file.2.name = name) ∧ Reflects files name entry := by
  rw [get?_ofCategories] at h
  have hname : name ≠ Record.reservedKey := by
    rintro rfl
    exact unreserved_categories files (Record.mem_keys_iff.2 ⟨entry, Record.mem_of_get? h⟩)
  have hdescribes := describes_gathered hname files
  rw [h] at hdescribes
  exact ⟨hname, hdescribes⟩

theorem mem_keys_ofCategories {name : Text} :
    name ∈ Record.keys (ofCategories files).categories ↔
      name ≠ Record.reservedKey ∧ ∃ file ∈ files, file.2.name = name := by
  constructor
  · intro hmem
    cases hfound : Record.get? (ofCategories files).categories name with
    | none => exact absurd hmem (Record.get?_eq_none_iff.1 hfound)
    | some entry =>
      obtain ⟨hname, hfile, -⟩ := reflects_of_get? hfound
      exact ⟨hname, hfile⟩
  · rintro ⟨hname, file, hfile, heq⟩
    apply Decidable.byContradiction
    intro hnone
    have hdescribes := describes_gathered hname files
    rw [← get?_ofCategories, Record.get?_eq_none_iff.2 hnone] at hdescribes
    exact hdescribes file hfile heq

theorem mem_products_iff {list : Text × List Text} :
    list ∈ (ofCategories files).products ↔ list ∈ (gathered files).products :=
  (Record.arranged_perm _).mem_iff

theorem mem_keywords_iff {list : Text × List Text} :
    list ∈ (ofCategories files).keywords ↔ list ∈ (gathered files).keywords :=
  (Record.arranged_perm _).mem_iff

theorem product_of_mem {list : Text × List Text} (hlist : list ∈ (ofCategories files).products) {name : Text}
    (hname : name ∈ list.2) : list.1 = Category.productOf name ∧ ∃ file ∈ files, file.2.name = name := by
  rw [← (tidy_products files).listed_of_mem (mem_products_iff.1 hlist)] at hname
  exact mem_listed_products.1 hname

theorem existsUnique_product {name : Text} (h : ∃ file ∈ files, file.2.name = name) :
    ∃! list, list ∈ (ofCategories files).products ∧ name ∈ list.2 := by
  have hlisted : name ∈ listed (gathered files).products (Category.productOf name) :=
    mem_listed_products.2 ⟨rfl, h⟩
  refine ⟨_, ⟨mem_products_iff.2 (mem_of_mem_listed hlisted), hlisted⟩, ?_⟩
  rintro list ⟨hlist, hname⟩
  rw [← (product_of_mem hlist hname).1, (tidy_products files).listed_of_mem (mem_products_iff.1 hlist)]

end Arranged

end CategoryIndex
end QueryLint
