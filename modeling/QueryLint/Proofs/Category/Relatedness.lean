import QueryLint.Proofs.Category.Catalogs
import QueryLint.Proofs.Category.Ranking
import QueryLint.Text.Collation

/-!
Whether what a search finds has to do with the word.

A category is found by its name or by one of its keywords, and only a keyword that is empty leads to it without
any relation to the word. Parts of names and words of titles are never empty, but platforms may be.
-/

namespace QueryLint
set_option autoImplicit false

namespace Text

theorem ofScalar_ne_nil (n : Nat) : CodeUnit.ofScalar n ≠ [] := by
  unfold CodeUnit.ofScalar
  split <;> exact List.cons_ne_nil _ _

theorem lowerScalar_ne_nil (n : Nat) : Case.lowerScalar n ≠ [] := by
  unfold Case.lowerScalar
  split
  · exact List.cons_ne_nil _ _
  · split <;> exact List.cons_ne_nil _ _

theorem scalars_ne_nil {t : Text} (h : t ≠ []) : scalars t ≠ [] := by
  fun_cases scalars t with
  | case1 => exact absurd rfl h
  | case2 c => exact List.cons_ne_nil _ _
  | case3 c d rest hpair => exact List.cons_ne_nil _ _
  | case4 c d rest hpair => exact List.cons_ne_nil _ _

/-- Lower case takes nothing away. -/
theorem lower_eq_nil_iff {t : Text} : lower t = [] ↔ t = [] := by
  constructor
  · contrapose!
    intro h
    obtain ⟨n, rest, hscalars⟩ := List.exists_cons_of_ne_nil (scalars_ne_nil h)
    obtain ⟨m, ms, himage⟩ : ∃ m ms, Case.lowerScalars [] (n :: rest) = m :: ms := by
      apply List.exists_cons_of_ne_nil
      rw [Case.lowerScalars]
      split <;> simp [lowerScalar_ne_nil]
    simp [lower, hscalars, himage, ofScalars, ofScalar_ne_nil]
  · rintro rfl
    rfl

theorem contains_nil (t : Text) : contains t [] = true := by
  cases t <;> rfl

end Text

namespace Category

theorem mem_keywords_iff {c : Category} {keyword : Text} : keyword ∈ c.keywords ↔
    (keyword ∈ Text.splitOn '_' (Text.lower c.name) ∧ keyword ≠ []) ∨ keyword ∈ words (Text.lower c.title) ∨
      ∃ platform ∈ c.platforms, Text.lower platform = keyword := by
  simp [keywords]

theorem nil_mem_keywords_iff {c : Category} : [] ∈ c.keywords ↔ [] ∈ c.platforms := by
  rw [mem_keywords_iff]
  simp [words, Text.lower_eq_nil_iff]

end Category

namespace CategoryIndex

theorem finds_ofCategories_iff {files : Record Category} {word name : Text} :
    (ofCategories files).Finds word name ↔
      (∃ file ∈ files, file.2.name = name ∧ ∃ keyword ∈ file.2.keywords, keyword ≠ Record.reservedKey ∧
        (Text.contains keyword word ∨ Text.contains word keyword)) ∨
      (name ≠ Record.reservedKey ∧ ∃ file ∈ files, file.2.name = name) ∧ Text.contains (Text.lower name) word := by
  rw [Finds, mem_keys_ofCategories]
  refine or_congr_left ?_
  constructor
  · rintro ⟨list, hlist, hname, hoverlap⟩
    rw [← (tidy_keywords files).listed_of_mem (mem_keywords_iff.1 hlist), mem_listed_keyword] at hname
    obtain ⟨hkey, file, hfile, heq, hkeyword⟩ := hname
    exact ⟨file, hfile, heq, list.1, hkeyword, hkey, hoverlap⟩
  · rintro ⟨file, hfile, heq, keyword, hkeyword, hkey, hoverlap⟩
    have hlisted : name ∈ listed (gathered files).keywords keyword :=
      mem_listed_keyword.2 ⟨hkey, file, hfile, heq, hkeyword⟩
    exact ⟨_, mem_keywords_iff.2 (mem_of_mem_listed hlisted), hlisted, hoverlap⟩

theorem result_name (index : CategoryIndex) (hit : Text × Nat) : (index.result hit).name = hit.1 := by
  unfold result
  split <;> rfl

/-- Some search shows a name exactly if the word, not being empty, finds it. -/
theorem exists_mem_search_iff {index : CategoryIndex} {compare : Text → Text → Ordering} {query name : Text} :
    (∃ limit, ∃ r ∈ index.search compare query limit, r.name = name) ↔
      searchWord query ≠ [] ∧ index.Finds (searchWord query) name := by
  constructor
  · rintro ⟨limit, r, hr, rfl⟩
    obtain ⟨hit, hhit, rfl⟩ := List.mem_map.1 hr
    have hranking := List.mem_of_mem_take hhit
    have hword : searchWord query ≠ [] := by
      intro hnil
      simp [ranking, hnil] at hranking
    rw [result_name]
    exact ⟨hword, (mem_names_ranking hword).1 (List.mem_map_of_mem hranking)⟩
  · rintro ⟨hword, hfinds⟩
    obtain ⟨hit, hhit, rfl⟩ := List.mem_map.1 ((mem_names_ranking hword).2 hfinds)
    refine ⟨.infinite false, index.result hit, ?_, result_name index hit⟩
    rw [search_infinite]
    exact List.mem_map_of_mem hhit

end CategoryIndex

namespace Catalog
open CategoryIndex (searchWord)

/-- A category has to do with a word: its name contains the word, or one of the keywords that its metadata give and
that are not empty contains the word or is contained in it. -/
def IsRelated (disk : Disk) (directory word name : Text) : Prop :=
  Text.contains (Text.lower name) word ∨
    ∃ file c, IsMetadata disk directory file c ∧ c.name = name ∧ ∃ keyword ∈ c.keywords, keyword ≠ [] ∧
      (Text.contains keyword word ∨ Text.contains word keyword)

section Found
variable {disk : Disk} {directory : Text} {files : Record Category}

/-- Whatever is found is related to the word or has an empty platform. -/
theorem Gathers.of_finds (hfiles : Gathers disk directory files) {word name : Text}
    (h : (CategoryIndex.ofCategories files).Finds word name) : IsRelated disk directory word name ∨
      ∃ file c, IsMetadata disk directory file c ∧ c.name = name ∧ [] ∈ c.platforms := by
  rcases CategoryIndex.finds_ofCategories_iff.1 h with ⟨file, hfile, heq, keyword, hkeyword, -, hoverlap⟩ | ⟨-, hname⟩
  · have hmeta := (hfiles.mem file.1 file.2).1 hfile
    by_cases hnil : keyword = []
    · subst hnil
      exact Or.inr ⟨file.1, file.2, hmeta, heq, Category.nil_mem_keywords_iff.1 hkeyword⟩
    · exact Or.inl (Or.inr ⟨file.1, file.2, hmeta, heq, keyword, hkeyword, hnil, hoverlap⟩)
  · exact Or.inl (Or.inl hname)

/-- A category with an empty platform is found by every word. -/
theorem Gathers.finds_of_empty (hfiles : Gathers disk directory files) {file : Text} {c : Category}
    (hmeta : IsMetadata disk directory file c) (hplatform : [] ∈ c.platforms) (word : Text) :
    (CategoryIndex.ofCategories files).Finds word c.name :=
  CategoryIndex.finds_ofCategories_iff.2 (Or.inl ⟨(file, c), (hfiles.mem file c).2 hmeta, rfl, [],
    Category.nil_mem_keywords_iff.2 hplatform, by decide, Or.inr (Text.contains_nil word)⟩)

end Found

/-- A catalog that is made from its metadata finds nothing that is not related to the word, exactly if the categories
with an empty platform are related to it. -/
theorem exists_related_iff {disk : Disk} {directory : Text} {rebuild : Bool}
    (hdirectory : disk.isFile directory = false)
    (hfresh : rebuild = true ∨ disk.exists? (indexPath directory) = false) :
    ∃ c log, ofDirectory disk directory rebuild = .ok (c, log) ∧ ∀ compare query,
      (∀ limit, ∀ r ∈ c.index.search compare query limit, IsRelated disk directory (searchWord query) r.name) ↔
        ∀ file category, IsMetadata disk directory file category → [] ∈ category.platforms →
          IsRelated disk directory (searchWord query) category.name := by
  obtain ⟨files, log, hopen, hfiles⟩ := exists_ofDirectory hdirectory hfresh
  refine ⟨_, log, hopen, fun compare query => ⟨?_, ?_⟩⟩
  · intro hrelated file category hmeta hplatform
    by_cases hword : searchWord query = []
    · exact Or.inl (hword ▸ Text.contains_nil _)
    · obtain ⟨limit, r, hr, hname⟩ := CategoryIndex.exists_mem_search_iff.2
        ⟨hword, hfiles.finds_of_empty hmeta hplatform (searchWord query)⟩
      exact hname ▸ hrelated limit r hr
  · intro hempty limit r hr
    obtain ⟨-, hfinds⟩ := CategoryIndex.exists_mem_search_iff.1 ⟨limit, r, hr, rfl⟩
    rcases hfiles.of_finds hfinds with hrelated | ⟨file, c, hmeta, hname, hplatform⟩
    · exact hrelated
    · exact hname ▸ hempty file c hmeta hplatform

def blankDisk : Disk where
  files := [("/m/app.meta", "\x7b\"categoryName\":\"app\",\"platforms\":[\"\"]\x7d")]
  directories := []

theorem exists_related_blank :
    (blankDisk.isFile "/m" = false ∧ ((true = true) ∨ blankDisk.exists? (indexPath "/m") = false)) ∧
    ∃ c log, ofDirectory blankDisk "/m" true = .ok (c, log) ∧
      c.index.search Text.Collation.compare "kubernetes" (.infinite false) = [⟨"app", [], [[]], 1, ["en"]⟩] ∧
      ∀ compare query,
        (∀ limit, ∀ r ∈ c.index.search compare query limit, IsRelated blankDisk "/m" (searchWord query) r.name) ↔
          ∀ file category, IsMetadata blankDisk "/m" file category → [] ∈ category.platforms →
            IsRelated blankDisk "/m" (searchWord query) category.name := by
  have hdirectory : blankDisk.isFile "/m" = false := by decide +kernel
  obtain ⟨c, log, hopen, hiff⟩ := exists_related_iff hdirectory (Or.inl (rfl : true = true))
  have hfound : (ofDirectory blankDisk "/m" true).toOption.map (fun opened =>
      opened.1.index.search Text.Collation.compare "kubernetes" (.infinite false)) =
        some [⟨"app", [], [[]], 1, ["en"]⟩] := by decide +kernel
  rw [hopen] at hfound
  exact ⟨⟨hdirectory, Or.inl rfl⟩, c, log, hopen, Option.some.inj hfound, hiff⟩

theorem exists_blankDisk_app : ∃ c : Category, (∀ file category, IsMetadata blankDisk "/m" file category ↔
      file = "app.meta" ∧ category = c) ∧
    c.name = "app" ∧ [] ∈ c.platforms ∧ c.keywords = [Text.ofString "app", []] := by
  have hread : (readFile blankDisk "/m" "app.meta").toOption.any (fun c : Category =>
      c.name = "app" ∧ [] ∈ c.platforms ∧ c.keywords = [Text.ofString "app", []]) = true := by
    decide +kernel
  obtain ⟨c, hok, hfacts⟩ : ∃ c : Category, readFile blankDisk "/m" "app.meta" = .ok c ∧
      (c.name = "app" ∧ [] ∈ c.platforms ∧ c.keywords = [Text.ofString "app", []]) := by
    cases hfile : readFile blankDisk "/m" "app.meta" with
    | error failure =>
      rw [hfile] at hread
      cases hread
    | ok c =>
      rw [hfile] at hread
      exact ⟨c, rfl, of_decide_eq_true hread⟩
  refine ⟨c, fun file category => ⟨?_, ?_⟩, hfacts⟩
  · rintro ⟨names, hlist, hmem, -, hother⟩
    have hnames : ∀ file ∈ (Record.keys blankDisk.files ++ blankDisk.directories).filterMap (Disk.nameIn? "/m"),
        file = "app.meta" := by decide +kernel
    obtain rfl := hnames file (Disk.mem_of_mem_list hlist hmem)
    rw [hok] at hother
    exact ⟨rfl, (Except.ok.inj hother).symm⟩
  · rintro ⟨rfl, rfl⟩
    refine ⟨_, rfl, ?_, by decide, hok⟩
    rw [List.mem_mergeSort, List.mem_eraseDups]
    decide +kernel

/-- The category is found by a word that it has nothing to do with. -/
theorem exists_unrelated : ∃ c log, ofDirectory blankDisk "/m" true = .ok (c, log) ∧
    ∃ limit, ∃ r ∈ c.index.search Text.Collation.compare "kubernetes" limit,
      ¬IsRelated blankDisk "/m" (searchWord "kubernetes") r.name := by
  obtain ⟨category, hmeta, hname, hplatform, hkeywords⟩ := exists_blankDisk_app
  obtain ⟨files, log, hopen, hfiles⟩ := @exists_ofDirectory blankDisk "/m" true (by decide +kernel) (Or.inl rfl)
  obtain ⟨limit, r, hr, hfound⟩ := CategoryIndex.exists_mem_search_iff.2
    ⟨(by decide +kernel : searchWord "kubernetes" ≠ []),
      hfiles.finds_of_empty ((hmeta _ _).2 ⟨rfl, rfl⟩) hplatform (searchWord "kubernetes")⟩
  refine ⟨_, log, hopen, limit, r, hr, ?_⟩
  rw [hfound, hname]
  rintro (hcontains | ⟨file, c, hc, -, keyword, hkeyword, hnil, hoverlap⟩)
  · revert hcontains
    decide +kernel
  · obtain ⟨-, rfl⟩ := (hmeta _ _).1 hc
    simp only [hkeywords, List.mem_cons, hnil, List.not_mem_nil, or_false] at hkeyword
    subst hkeyword
    revert hoverlap
    decide +kernel

end Catalog
end QueryLint
