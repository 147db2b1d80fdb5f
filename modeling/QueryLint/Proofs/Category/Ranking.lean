import Mathlib.Data.Rat.Floor
import QueryLint.Category.Search
import QueryLint.Proofs.Records
import QueryLint.Text.Collation

/-!
What a search finds.

Points are added up name by name, so that a name ends up with its relevance: what its keywords and the name
itself earn. A ranking has every name of some relevance once, and is sorted by relevance and then by name, where names
are compared in any total preorder. A search shows a front part of the ranking.
-/

namespace QueryLint
set_option autoImplicit false

namespace CategoryIndex

section Order
variable {compare : Text → Text → Ordering}

theorem ranksBefore_iff {a b : Text × Nat} : ranksBefore compare a b = true ↔
    b.2 < a.2 ∨ a.2 = b.2 ∧ (compare a.1 b.1).isLE = true := by
  rw [ranksBefore, Bool.or_eq_true, Bool.and_eq_true, decide_eq_true_eq, decide_eq_true_eq]
  cases compare a.1 b.1 <;> rfl

variable [Std.TransCmp compare]

theorem ranksBefore_trans (a b c : Text × Nat) (hab : ranksBefore compare a b = true)
    (hbc : ranksBefore compare b c = true) : ranksBefore compare a c = true := by
  rw [ranksBefore_iff] at hab hbc ⊢
  rcases hab with hab | ⟨hab, hnames⟩
  · exact Or.inl (by omega)
  · rcases hbc with hbc | ⟨hbc, hnames'⟩
    · exact Or.inl (by omega)
    · exact Or.inr ⟨hab.trans hbc, Std.TransCmp.isLE_trans hnames hnames'⟩

theorem ranksBefore_total (a b : Text × Nat) : (ranksBefore compare a b || ranksBefore compare b a) = true := by
  rw [Bool.or_eq_true, ranksBefore_iff, ranksBefore_iff]
  have hnames : (compare a.1 b.1).isLE = true ∨ (compare b.1 a.1).isLE = true := by
    have hswap : compare b.1 a.1 = (compare a.1 b.1).swap := Std.OrientedCmp.eq_swap
    rw [hswap]
    cases compare a.1 b.1 <;> simp
  rcases Nat.lt_trichotomy a.2 b.2 with hless | heq | hmore
  · exact Or.inr (Or.inl hless)
  · exact hnames.imp (fun hname => Or.inr ⟨heq, hname⟩) fun hname => Or.inr ⟨heq.symm, hname⟩
  · exact Or.inl (Or.inl hmore)

end Order

def pointsOf (points : List (Text × Nat)) (name : Text) : Nat :=
  ((points.filter fun p => p.1 = name).map (·.2)).sum

section Points
variable (points : List (Text × Nat)) (name : Text)

theorem pointsOf_append (others : List (Text × Nat)) :
    pointsOf (points ++ others) name = pointsOf points name + pointsOf others name := by
  simp [pointsOf]

theorem pointsOf_cons (p : Text × Nat) :
    pointsOf (p :: points) name = (if p.1 = name then p.2 else 0) + pointsOf points name := by
  by_cases h : p.1 = name <;> simp [pointsOf, h]

theorem pointsOf_of_not_mem (h : name ∉ points.map Prod.fst) : pointsOf points name = 0 := by
  have hnone : points.filter (fun p => p.1 = name) = [] := by
    rw [List.filter_eq_nil_iff]
    intro p hp heq
    exact h (of_decide_eq_true heq ▸ List.mem_map_of_mem hp)
  rw [pointsOf, hnone]
  rfl

theorem total_concat (p : Text × Nat) : total (points ++ [p]) =
    Record.set p.1 ((Record.get? (total points) p.1).getD 0 + p.2) (total points) := by
  rw [total, List.foldl_append]
  rfl

theorem get?_total : Record.get? (total points) name =
    if name ∈ points.map Prod.fst then some (pointsOf points name) else none := by
  induction points using List.reverseRecOn with
  | nil => rfl
  | append_singleton points p ih =>
    have hlast : name ∈ (points ++ [p]).map Prod.fst ↔ name ∈ points.map Prod.fst ∨ name = p.1 := by
      rw [List.map_append, List.mem_append, List.map_singleton, List.mem_singleton]
    have hsum : pointsOf (points ++ [p]) name = pointsOf points name + if p.1 = name then p.2 else 0 := by
      rw [pointsOf_append, pointsOf_cons]
      rfl
    simp only [total_concat, Record.get?_set, hsum, hlast]
    by_cases hname : name = p.1
    · subst hname
      by_cases hmem : p.1 ∈ points.map Prod.fst
      · simp [ih, hmem]
      · simp [ih, hmem, pointsOf_of_not_mem points p.1 hmem]
    · simp only [hname, Ne.symm hname, ih, if_false, or_false, Nat.add_zero]

theorem nodup_keys_total : (Record.keys (total points)).Nodup := by
  induction points using List.reverseRecOn with
  | nil => exact List.nodup_nil
  | append_singleton points p ih =>
    rw [total_concat]
    exact Record.nodup_keys_set ih _ _

end Points

/-- What a keyword with its names earns a name. -/
def earned (word name : Text) (keyword : Text × List Text) : Nat :=
  if keyword.2.contains name ∧ (Text.contains keyword.1 word ∨ Text.contains word keyword.1) then
    if keyword.1 = word then 2 else 1
  else 0

/-- What a name earns for itself. -/
def ownEarned (index : CategoryIndex) (word name : Text) : Nat :=
  if Record.has index.categories name ∧ Text.contains (Text.lower name) word then
    if Text.lower name = word then 3 else 2
  else 0

/-- The relevance of a name for a word. -/
def relevance (index : CategoryIndex) (word name : Text) : Nat :=
  (index.keywords.map (earned word name)).sum + index.ownEarned word name

section Relevance
variable {index : CategoryIndex} {word name : Text}

/-- Where each of some names gets points at most once, a name among them has what it gets. -/
theorem pointsOf_filterMap {names : List Text} (h : names.Nodup) (award : Text → Option Nat) :
    pointsOf (names.filterMap fun name => (award name).map fun n => (name, n)) name =
      if name ∈ names then (award name).getD 0 else 0 := by
  induction names with
  | nil => rfl
  | cons other names ih =>
    obtain ⟨hother, hnames⟩ := List.nodup_cons.1 h
    have hrest := ih hnames
    by_cases heq : other = name
    · subst heq
      rw [if_neg hother] at hrest
      cases haward : award other with
      | none => simp [haward, hrest]
      | some n => simp [haward, hrest, pointsOf_cons]
    · have hname : name ∈ other :: names ↔ name ∈ names := by simp [Ne.symm heq]
      simp only [hname, ← hrest]
      cases haward : award other with
      | none => simp [haward]
      | some n => simp [haward, pointsOf_cons, heq]

theorem pointsOf_keywordPoints (h : ∀ keyword ∈ index.keywords, keyword.2.Nodup) :
    pointsOf (index.keywordPoints word) name = (index.keywords.map (earned word name)).sum := by
  unfold keywordPoints
  generalize index.keywords = keywords at h
  induction keywords with
  | nil => rfl
  | cons keyword keywords ih =>
    rw [List.forall_mem_cons] at h
    rw [List.flatMap_cons, pointsOf_append, ih h.2, List.map_cons, List.sum_cons, earned]
    congr 1
    have hnames := @pointsOf_filterMap name _ h.1 fun _ => some (if keyword.1 = word then 2 else 1)
    simp only [Option.map_some, List.filterMap_eq_map', Option.getD_some] at hnames
    by_cases hoverlap : Text.contains keyword.1 word = true ∨ Text.contains word keyword.1 = true
    · simp [hoverlap, hnames]
    · simp [hoverlap, pointsOf]

theorem pointsOf_namePoints (h : (Record.keys index.categories).Nodup) :
    pointsOf (index.namePoints word) name = index.ownEarned word name := by
  let award (name : Text) : Option Nat :=
    if Text.contains (Text.lower name) word then some (if Text.lower name = word then 3 else 2) else none
  have hpoints : index.namePoints word =
      (Record.keys index.categories).filterMap fun name => (award name).map fun n => (name, n) := by
    unfold namePoints
    congr 1
    funext name
    simp only [award]
    split <;> rfl
  rw [hpoints, pointsOf_filterMap h, ownEarned]
  by_cases hcontains : Text.contains (Text.lower name) word = true <;> simp [award, hcontains, Record.has_iff]

/-- A word finds a name by one of its keywords, or by itself. -/
def Finds (index : CategoryIndex) (word name : Text) : Prop :=
  (∃ keyword ∈ index.keywords, name ∈ keyword.2 ∧
    (Text.contains keyword.1 word ∨ Text.contains word keyword.1)) ∨
  name ∈ Record.keys index.categories ∧ Text.contains (Text.lower name) word

theorem earned_pos_iff {keyword : Text × List Text} : 0 < earned word name keyword ↔
    name ∈ keyword.2 ∧ (Text.contains keyword.1 word ∨ Text.contains word keyword.1) := by
  rw [earned, ← List.contains_iff_mem]
  split
  · rename_i h
    exact iff_of_true (by split <;> decide) h
  · rename_i h
    exact iff_of_false (lt_irrefl 0) h

theorem ownEarned_pos_iff : 0 < index.ownEarned word name ↔
    name ∈ Record.keys index.categories ∧ Text.contains (Text.lower name) word := by
  rw [ownEarned, ← Record.has_iff]
  split
  · rename_i h
    exact iff_of_true (by split <;> decide) h
  · rename_i h
    exact iff_of_false (lt_irrefl 0) h

theorem relevance_pos_iff : 0 < index.relevance word name ↔ index.Finds word name := by
  rw [relevance, Nat.add_pos_iff_pos_or_pos, ownEarned_pos_iff, Finds, List.sum_pos_iff_exists_pos_nat]
  simp only [List.mem_map, exists_exists_and_eq_and, earned_pos_iff]

/-- Exactly the names that the word finds get points. -/
theorem mem_points_iff :
    name ∈ (index.keywordPoints word ++ index.namePoints word).map Prod.fst ↔ index.Finds word name := by
  rw [List.map_append, List.mem_append, Finds]
  refine or_congr ?_ ?_
  · rw [keywordPoints, List.map_flatMap, List.mem_flatMap]
    refine exists_congr fun keyword => and_congr_right fun _ => ?_
    by_cases hoverlap : Text.contains keyword.1 word = true ∨ Text.contains word keyword.1 = true
    · simp [hoverlap]
    · simp [hoverlap]
  · simp [namePoints]

end Relevance

/-- Names in the order in which a word ranks them. -/
structure IsRanking (index : CategoryIndex) (compare : Text → Text → Ordering) (word : Text) (names : List Text) :
    Prop where
  nodup : names.Nodup
  mem : ∀ name, name ∈ names ↔ 0 < index.relevance word name
  sorted : names.Pairwise fun a b => index.relevance word b < index.relevance word a ∨
    index.relevance word a = index.relevance word b ∧ compare a b ≠ .gt

section Ranking
variable {index : CategoryIndex} {compare : Text → Text → Ordering} {query : Text}

theorem ranking_perm (hquery : searchWord query ≠ []) : (index.ranking compare query).Perm
    (total (index.keywordPoints (searchWord query) ++ index.namePoints (searchWord query))) := by
  simp only [ranking, List.isEmpty_iff, hquery, if_false]
  exact List.mergeSort_perm _ _

theorem mem_names_ranking (hquery : searchWord query ≠ []) {name : Text} :
    name ∈ (index.ranking compare query).map Prod.fst ↔ index.Finds (searchWord query) name := by
  rw [((ranking_perm hquery).map Prod.fst).mem_iff, ← mem_points_iff]
  change name ∈ Record.keys _ ↔ _
  rw [← not_iff_not, ← Record.get?_eq_none_iff, get?_total]
  simp

theorem pairwise_ranking [Std.TransCmp compare] (index : CategoryIndex) (query : Text) :
    (index.ranking compare query).Pairwise fun a b => ranksBefore compare a b = true := by
  unfold ranking
  dsimp only
  split
  · exact List.Pairwise.nil
  · exact List.pairwise_mergeSort ranksBefore_trans ranksBefore_total _

variable (hcategories : (Record.keys index.categories).Nodup)
  (hkeywords : ∀ keyword ∈ index.keywords, keyword.2.Nodup)
include hcategories hkeywords

theorem pointsOf_eq_relevance (word name : Text) :
    pointsOf (index.keywordPoints word ++ index.namePoints word) name = index.relevance word name := by
  rw [pointsOf_append, pointsOf_keywordPoints hkeywords, pointsOf_namePoints hcategories, relevance]

theorem snd_of_mem_ranking (hquery : searchWord query ≠ []) {hit : Text × Nat} (h : hit ∈ index.ranking compare query) :
    hit.2 = index.relevance (searchWord query) hit.1 := by
  have hget := (Record.get?_eq_some_iff (nodup_keys_total _)).2 ((ranking_perm hquery).mem_iff.1 h)
  rw [get?_total, pointsOf_eq_relevance hcategories hkeywords] at hget
  split at hget
  · exact (Option.some.inj hget).symm
  · cases hget

theorem isRanking_ranking [Std.TransCmp compare] (hquery : searchWord query ≠ []) :
    index.IsRanking compare (searchWord query) ((index.ranking compare query).map Prod.fst) where
  nodup := ((ranking_perm hquery).map Prod.fst).nodup_iff.2 (nodup_keys_total _)
  mem name := by rw [mem_names_ranking hquery, relevance_pos_iff]
  sorted := by
    rw [List.pairwise_map]
    refine (pairwise_ranking index query).imp_of_mem ?_
    intro a b ha hb hbefore
    rw [ranksBefore_iff, snd_of_mem_ranking hcategories hkeywords hquery ha,
      snd_of_mem_ranking hcategories hkeywords hquery hb, Ordering.isLE_iff_ne_gt] at hbefore
    exact hbefore

theorem ranking_eq_map (hquery : searchWord query ≠ []) : index.ranking compare query =
    ((index.ranking compare query).map Prod.fst).map fun name => (name, index.relevance (searchWord query) name) := by
  rw [List.map_map]
  conv => lhs; rw [← List.map_id (index.ranking compare query)]
  apply List.map_congr_left
  intro hit hhit
  exact Prod.ext rfl (snd_of_mem_ranking hcategories hkeywords hquery hhit)

end Ranking

theorem floor_of_whole {m : Nat} {q : ℚ} (hlow : (m : ℚ) ≤ q) (hhigh : q < m + 1) : q.floor.toNat = m := by
  have hle : (m : Int) ≤ q.floor := Rat.le_floor_iff.2 (by exact_mod_cast hlow)
  have hlt : q.floor < (m : Int) + 1 := Rat.floor_lt_iff.2 (by push_cast; exact hhigh)
  omega

theorem floor_mono {q q' : ℚ} (h : q ≤ q') : q.floor.toNat ≤ q'.floor.toNat :=
  Int.toNat_le_toNat (Rat.le_floor_iff.2 ((Rat.floor_le q).trans h))

section Search
variable {index : CategoryIndex} {compare : Text → Text → Ordering} {query : Text}

theorem search_finite (q : ℚ) : index.search compare query (.finite false q) =
    ((index.ranking compare query).take q.floor.toNat).map index.result := by
  rw [search, List.take_eq_take_min (i := q.floor.toNat)]
  simp only [kept, Bool.false_and, Bool.false_eq_true, if_false]

theorem search_infinite : index.search compare query (.infinite false) =
    (index.ranking compare query).map index.result := by
  simp only [search, kept, Bool.false_eq_true, if_false, List.take_length]

theorem search_isPrefix {q q' : ℚ} (h : q ≤ q') :
    index.search compare query (.finite false q) <+: index.search compare query (.finite false q') := by
  rw [search_finite, search_finite]
  exact (List.take_prefix_take_left (floor_mono h)).map _

end Search

/-- A search shows the best names of one ranking, as many as its limit allows: those that are of any relevance, each
with its relevance and none twice, the most relevant first and of the same relevance in the order of names, whichever
total preorder that is. A greater limit shows more at the end only. -/
theorem exists_ranking {compare : Text → Text → Ordering} [Std.TransCmp compare] {index : CategoryIndex}
    (hcategories : (Record.keys index.categories).Nodup) (hkeywords : ∀ keyword ∈ index.keywords, keyword.2.Nodup)
    {query : Text} (hquery : searchWord query ≠ []) :
    ∃ names, index.IsRanking compare (searchWord query) names ∧
      (∀ (m : Nat) (q : ℚ), m ≤ q → q < m + 1 → index.search compare query (.finite false q) =
        (names.take m).map fun name => index.result (name, index.relevance (searchWord query) name)) ∧
      (index.search compare query (.infinite false) =
        names.map fun name => index.result (name, index.relevance (searchWord query) name)) ∧
      ∀ q q' : ℚ, q ≤ q' →
        index.search compare query (.finite false q) <+: index.search compare query (.finite false q') := by
  obtain ⟨names, hnames, hranking⟩ : ∃ names, index.IsRanking compare (searchWord query) names ∧
      index.ranking compare query = names.map fun name => (name, index.relevance (searchWord query) name) :=
    ⟨_, isRanking_ranking hcategories hkeywords hquery, ranking_eq_map hcategories hkeywords hquery⟩
  refine ⟨names, hnames, ?_, ?_, fun q q' => search_isPrefix⟩
  · intro m q hlow hhigh
    rw [search_finite, floor_of_whole hlow hhigh, hranking, ← List.map_take, List.map_map]
    rfl
  · rw [search_infinite, hranking, List.map_map]
    rfl

/-- Three categories, one of which stands under both keywords. -/
def counterIndex : CategoryIndex where
  categories := (["db_counter", "app_counter", "db_base"] : List Text).map fun name =>
    (name, ⟨name, .text [], [], [], [], [], []⟩)
  products := []
  keywords := [("counter", ["db_counter", "app_counter"]), ("db", ["db_counter", "db_base"])]

example : counterIndex.relevance "counter" "app_counter" = 4 ∧ counterIndex.relevance "counter" "db_base" = 0 := by
  decide +kernel

/-- Of the two names with the same points the one that is mentioned first is ranked last. -/
theorem ranking_counter : counterIndex.ranking Text.Collation.compare " Counter" =
    [(Text.ofString "app_counter", 4), (Text.ofString "db_counter", 4)] := by
  have hword : (searchWord " Counter").isEmpty = false := by decide +kernel
  have hpoints : total (counterIndex.keywordPoints (searchWord " Counter") ++
      counterIndex.namePoints (searchWord " Counter")) =
        [(Text.ofString "db_counter", 4), (Text.ofString "app_counter", 4)] := by decide +kernel
  have hbefore : ranksBefore Text.Collation.compare (Text.ofString "db_counter", 4) (Text.ofString "app_counter", 4) =
      false := by decide +kernel
  simp only [ranking, hword, hpoints]
  simp [List.mergeSort, List.MergeSort.Internal.splitInTwo, hbefore]

theorem exists_ranking_counter :
    ((Record.keys counterIndex.categories).Nodup ∧ (∀ keyword ∈ counterIndex.keywords, keyword.2.Nodup) ∧
      searchWord " Counter" ≠ []) ∧
    counterIndex.search Text.Collation.compare " Counter" (.infinite false) =
      [⟨"app_counter", "app_counter", [], 4, []⟩, ⟨"db_counter", "db_counter", [], 4, []⟩] ∧
    ∃ names, counterIndex.IsRanking Text.Collation.compare (searchWord " Counter") names ∧
      (∀ (m : Nat) (q : ℚ), m ≤ q → q < m + 1 →
        counterIndex.search Text.Collation.compare " Counter" (.finite false q) = (names.take m).map fun name =>
          counterIndex.result (name, counterIndex.relevance (searchWord " Counter") name)) ∧
      (counterIndex.search Text.Collation.compare " Counter" (.infinite false) = names.map fun name =>
        counterIndex.result (name, counterIndex.relevance (searchWord " Counter") name)) ∧
      ∀ q q' : ℚ, q ≤ q' → counterIndex.search Text.Collation.compare " Counter" (.finite false q) <+:
        counterIndex.search Text.Collation.compare " Counter" (.finite false q') := by
  have hindex : (Record.keys counterIndex.categories).Nodup ∧
      (∀ keyword ∈ counterIndex.keywords, keyword.2.Nodup) ∧ searchWord " Counter" ≠ [] := by
    decide +kernel
  have hfound : counterIndex.search Text.Collation.compare " Counter" (.infinite false) =
      [⟨"app_counter", "app_counter", [], 4, []⟩, ⟨"db_counter", "db_counter", [], 4, []⟩] := by
    rw [search, ranking_counter]
    decide +kernel
  exact ⟨hindex, hfound, exists_ranking hindex.1 hindex.2.1 hindex.2.2⟩

end CategoryIndex
end QueryLint
