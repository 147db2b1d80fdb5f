import Mathlib.Data.List.Induction
import QueryLint.Disk
import QueryLint.Proofs.Records

/-!
Paths are lists of names: what lies in a directory has the names of the directory and its own behind
them. A file that is written is read back, and all other files stay as they are.
-/

namespace QueryLint
set_option autoImplicit false

namespace Text

/-- The pieces of a text do not hold what it is split at. -/
theorem not_mem_of_mem_splitOn {sep : CodeUnit} {t piece : Text} (h : piece ∈ splitOn sep t) :
    sep ∉ piece := by
  induction t generalizing piece with
  | nil =>
    rw [List.mem_singleton.1 h]
    exact List.not_mem_nil
  | cons c t ih =>
    rw [splitOn] at h
    split at h
    · rcases List.mem_cons.1 h with rfl | h
      · exact List.not_mem_nil
      · exact ih h
    · rename_i hc
      split at h
      · rw [List.mem_singleton.1 h, List.mem_singleton]
        exact Ne.symm hc
      · rename_i first pieces hsplit
        rcases List.mem_cons.1 h with rfl | h
        · rw [List.mem_cons, not_or]
          exact ⟨Ne.symm hc, ih (by rw [hsplit]; exact List.mem_cons_self)⟩
        · exact ih (by rw [hsplit]; exact List.mem_cons_of_mem _ h)

/-- What stands in front of the first split belongs to the first piece. -/
theorem splitOn_append {sep : CodeUnit} {t rest : Text} (ht : sep ∉ t) {piece : Text} {pieces : List Text}
    (hrest : splitOn sep rest = piece :: pieces) : splitOn sep (t ++ rest) = (t ++ piece) :: pieces := by
  induction t with
  | nil => exact hrest
  | cons c t ih =>
    rw [List.mem_cons, not_or] at ht
    rw [List.cons_append, splitOn, if_neg (Ne.symm ht.1), ih ht.2]
    rfl

theorem splitOn_of_not_mem {sep : CodeUnit} {t : Text} (ht : sep ∉ t) : splitOn sep t = [t] := by
  have hsplit : splitOn sep (t ++ []) = (t ++ []) :: [] := splitOn_append ht rfl
  rwa [List.append_nil] at hsplit

end Text

namespace Path

structure IsName (name : Text) : Prop where
  ne_nil : name ≠ []
  ne_dot : name ≠ "."
  ne_dots : name ≠ ".."
  unbroken : separator ∉ name

theorem follow_append (directory ns ms : List Text) :
    follow directory (ns ++ ms) = follow (follow directory ns) ms := List.foldl_append

theorem follow_of_isName {directory ns : List Text} (h : ∀ n ∈ ns, IsName n) :
    follow directory ns = directory ++ ns := by
  induction ns generalizing directory with
  | nil => rw [List.append_nil]; rfl
  | cons n ns ih =>
    have hn := h n List.mem_cons_self
    have hstep : follow directory [n] = directory ++ [n] := by
      simp [follow, hn.ne_nil, hn.ne_dot, hn.ne_dots]
    rw [← List.singleton_append, follow_append, hstep, ih fun m hm => h m (List.mem_cons_of_mem _ hm),
      List.append_assoc]

theorem isName_of_mem_follow {directory ns : List Text} (hdirectory : ∀ n ∈ directory, IsName n)
    (hns : ∀ n ∈ ns, separator ∉ n) : ∀ n ∈ follow directory ns, IsName n := by
  induction ns generalizing directory with
  | nil => exact hdirectory
  | cons n ns ih =>
    refine ih ?_ fun m hm => hns m (List.mem_cons_of_mem _ hm)
    intro m hm
    dsimp only at hm
    split at hm
    · exact hdirectory m hm
    · rename_i hstay
      split at hm
      · exact hdirectory m (List.dropLast_subset directory hm)
      · rename_i hup
        simp only [Bool.or_eq_true, List.isEmpty_iff, decide_eq_true_eq, not_or] at hstay
        rcases List.mem_append.1 hm with hm | hm
        · exact hdirectory m hm
        · rw [List.mem_singleton.1 hm]
          exact ⟨hstay.1, hstay.2, hup, hns n List.mem_cons_self⟩

theorem isName_of_mem_names {path n : Text} (h : n ∈ names path) : IsName n := by
  refine isName_of_mem_follow ?_ ?_ n h
  · exact fun m hm => absurd hm List.not_mem_nil
  · exact fun m hm => Text.not_mem_of_mem_splitOn hm

theorem splitOn_flatMap {ns : List Text} (h : ∀ n ∈ ns, IsName n) :
    Text.splitOn separator (ns.flatMap fun name => separator :: name) =
      if ns = [] then [[]] else [] :: ns := by
  induction ns with
  | nil => rfl
  | cons n ns ih =>
    have hn := h n List.mem_cons_self
    have htail := ih fun m hm => h m (List.mem_cons_of_mem _ hm)
    rw [List.flatMap_cons, List.cons_append, Text.splitOn, if_pos rfl, if_neg (List.cons_ne_nil n ns)]
    congr 1
    split at htail
    · rename_i hns
      rw [Text.splitOn_append hn.unbroken htail, hns, List.append_nil]
    · rw [Text.splitOn_append hn.unbroken htail, List.append_nil]

theorem names_ofNames {ns : List Text} (h : ∀ n ∈ ns, IsName n) : names (ofNames ns) = ns := by
  cases hns : ns with
  | nil => rfl
  | cons n rest =>
    rw [← hns]
    have hne : ns ≠ [] := by rw [hns]; exact List.cons_ne_nil n rest
    rw [names, ofNames, if_neg (by simpa using hne), splitOn_flatMap h, if_neg hne]
    change follow [] ns = ns
    rw [follow_of_isName h, List.nil_append]

theorem join_of_isName {file : Text} (h : IsName file) (directory : Text) :
    join directory file = ofNames (names directory ++ [file]) := by
  have hends : Text.endsWith file "/" = false := by
    apply Bool.eq_false_iff.2
    intro hsuffix
    exact h.unbroken ((List.isSuffixOf_iff_suffix.1 hsuffix).subset List.mem_cons_self)
  rw [join, Text.splitOn_of_not_mem h.unbroken, follow_of_isName (by simpa using h), hends]
  rfl

theorem names_join {file : Text} (h : IsName file) (directory : Text) :
    names (join directory file) = names directory ++ [file] := by
  rw [join_of_isName h]
  apply names_ofNames
  intro n hn
  rcases List.mem_append.1 hn with hn | hn
  · exact isName_of_mem_names hn
  · rw [List.mem_singleton.1 hn]
    exact h

theorem ofNames_names_join {file : Text} (h : IsName file) (directory : Text) :
    ofNames (names (join directory file)) = join directory file := by
  rw [names_join h, join_of_isName h]

theorem join_injective {directory file other : Text} (hfile : IsName file) (hother : IsName other)
    (h : join directory file = join directory other) : file = other := by
  have hnames := congrArg names h
  rw [names_join hfile, names_join hother] at hnames
  exact List.singleton_inj.1 (List.append_cancel_left hnames)

end Path

namespace Disk
variable {d d' : Disk} {directory file path text : Text}

theorem mem_of_mem_list {names : List Text} (h : d.list directory = .ok names) {name : Text}
    (hname : name ∈ names) : name ∈ (Record.keys d.files ++ d.directories).filterMap (nameIn? directory) := by
  unfold list at h
  split at h
  · cases h
  · split at h
    · cases h
    · cases h
      exact List.mem_eraseDups.1 ((List.mergeSort_perm _ _).mem_iff.1 hname)

theorem isName_of_mem_list {names : List Text} (h : d.list directory = .ok names) {name : Text}
    (hname : name ∈ names) : Path.IsName name := by
  obtain ⟨path, -, hpath⟩ := List.mem_filterMap.1 (mem_of_mem_list h hname)
  unfold nameIn? at hpath
  split at hpath
  · exact Path.isName_of_mem_names (List.mem_of_getElem? hpath)
  · cases hpath

theorem read_eq_ok_iff (h : Path.IsName file) :
    d.read (Path.join directory file) = .ok text ↔
      Record.get? d.files (Path.join directory file) = some text := by
  unfold read
  rw [Path.ofNames_names_join h]
  dsimp only
  cases Record.get? d.files (Path.join directory file) with
  | some found => simp
  | none =>
    dsimp only
    split
    · simp
    · split <;> simp

/-- Whether a file can be written depends on its place alone. -/
theorem exists_write (h : d.write path text = .ok d') (other : Text) : ∃ d'', d.write path other = .ok d'' := by
  unfold write at h ⊢
  split at h
  · cases h
  · rename_i hplace
    rw [if_neg hplace]
    split at h
    · cases h
    · rename_i hway
      rw [if_neg hway]
      split at h
      · cases h
      · rename_i hparent
        rw [if_neg hparent]
        exact ⟨_, rfl⟩

theorem files_of_write (h : d.write path text = .ok d') :
    d'.files = Record.set path (Text.wellFormed text) d.files := by
  unfold write at h
  split at h
  · cases h
  · split at h
    · cases h
    · split at h
      · cases h
      · cases h
        rfl

theorem read_of_write (hfile : Path.IsName file) (h : d.write (Path.join directory file) text = .ok d') :
    d'.exists? (Path.join directory file) = true ∧
      d'.read (Path.join directory file) = .ok (Text.wellFormed text) := by
  have hget : Record.get? d'.files (Path.join directory file) = some (Text.wellFormed text) := by
    rw [files_of_write h, Record.get?_set, if_pos rfl]
  constructor
  · rw [exists?, isFile, Record.has, hget]
    rfl
  · exact (read_eq_ok_iff hfile).2 hget

theorem read_of_write_other (hfile : Path.IsName file) {other : Text} (hother : Path.IsName other)
    (hne : other ≠ file) (h : d.write (Path.join directory file) text = .ok d') {content : Text}
    (hread : d.read (Path.join directory other) = .ok content) :
    d'.read (Path.join directory other) = .ok content := by
  rw [read_eq_ok_iff hother] at hread ⊢
  rw [files_of_write h, Record.get?_set, if_neg fun heq => hne (Path.join_injective hother hfile heq)]
  exact hread

end Disk
end QueryLint
