import QueryLint.Dialect.Builtin
import QueryLint.Field
import QueryLint.Proofs.Histories
import QueryLint.Proofs.Records

/-!
The fields of a document.

The fields are the names that commands of some roles refer to, each where it is met first. Their types are
found in the whole document, so it makes no difference in which order the commands stand that show a field to
be a number.
-/

namespace QueryLint
set_option autoImplicit false

/-- An element of a list that is put together comes from one of the pieces, with those in front of it. -/
theorem exists_of_flatMap_eq {α β : Type} {f : α → List β} {xs : List α} {front back : List β} {y : β}
    (h : xs.flatMap f = front ++ y :: back) :
    ∃ before x after, xs = before ++ x :: after ∧ y ∈ f x ∧ before.flatMap f ⊆ front := by
  induction xs generalizing front with
  | nil => simp at h
  | cons x xs ih =>
    rw [List.flatMap_cons] at h
    rcases List.append_eq_append_iff.1 h with ⟨rest, rfl, hrest⟩ | ⟨rest, hx, hrest⟩
    · obtain ⟨before, x', after, rfl, hy, hbefore⟩ := ih hrest
      refine ⟨x :: before, x', after, rfl, hy, ?_⟩
      rw [List.flatMap_cons]
      exact List.append_subset.2
        ⟨List.subset_append_left _ _, fun z hz => List.mem_append_right _ (hbefore hz)⟩
    · cases rest with
      | nil =>
        obtain ⟨before, x', after, rfl, hy, hbefore⟩ := @ih [] hrest.symm
        refine ⟨x :: before, x', after, rfl, hy, ?_⟩
        rw [List.flatMap_cons, hx, List.append_nil]
        exact List.append_subset.2 ⟨List.Subset.refl _, fun z hz => absurd (hbefore hz) List.not_mem_nil⟩
      | cons z rest =>
        obtain ⟨rfl, -⟩ := List.cons.inj hrest
        exact ⟨[], x, xs, rfl, by simp [hx], by simp⟩

namespace Field

/-- The names by which a command refers to fields, in the order of its payload. -/
def named (c : Command) : List Text :=
  if c.role? ∈ [some .projection, some .filter, some .group, some .aggregate, some .order] then
    c.referencedFields.filter fun name => name ≠ [] ∧ name ≠ "*" ∧ ¬Text.startsWith name "$"
  else []

inductive ShowsNumber (c : Command) : Prop where
  | compared {literal : Value} {value : Number} : c.hasRole .filter → c.comparison? = some literal →
      ¬literal.isParameter → literal.number? = some value → ShowsNumber c
  | aggregated {function : Text} : c.hasRole .aggregate → c.aggregateFunction? = some function →
      function ∈ numericFunctions → ShowsNumber c

theorem filter_isName (names : List Text) : names.filter isName =
    names.filter fun name => name ≠ [] ∧ name ≠ "*" ∧ ¬Text.startsWith name "$" := by
  refine List.filter_congr fun name _ => ?_
  rw [Bool.eq_iff_iff]
  simp [isName, Value.namesParameter, and_assoc]

theorem map_name_references (c : Command) : (references c).map name = named c := by
  unfold references named
  cases c.role? with
  | none => rfl
  | some role =>
    have hnames : ∀ use, ((c.referencedFields.filter isName).map (ofCommand c use)).map name =
        c.referencedFields.filter fun name => name ≠ [] ∧ name ≠ "*" ∧ ¬Text.startsWith name "$" := by
      intro use
      rw [List.map_map, ← filter_isName]
      exact List.map_id _
    cases role <;> first | rfl | exact hnames _

theorem of_mem_references {c : Command} {f : Field} (h : f ∈ references c) :
    (∃ role, c.role? = some role ∧ FieldUse.ofRole? role = some f.use) ∧
      f.commandIndex = c.index ∧ f.line = c.line ∧ f.scope = c.scope := by
  unfold references at h
  split at h
  · cases h
  · rename_i use huse
    obtain ⟨name, -, rfl⟩ := List.mem_map.1 h
    exact ⟨Option.bind_eq_some_iff.1 huse, rfl, rfl, rfl⟩

theorem distinct_concat (seen : List Text) (fs : List Field) (f : Field) :
    distinct seen (fs ++ [f]) =
      if f.name ∈ seen ∨ f.name ∈ fs.map name then distinct seen fs else distinct seen fs ++ [f] := by
  induction fs generalizing seen with
  | nil => simp [distinct]
  | cons g fs ih =>
    rw [List.cons_append, distinct, distinct, ih, ih, List.map_cons]
    simp only [List.contains_iff_mem, List.mem_cons]
    by_cases hg : g.name ∈ seen
    · have hsame : f.name ∈ seen ∨ f.name = g.name ∨ f.name ∈ fs.map name ↔
          f.name ∈ seen ∨ f.name ∈ fs.map name := by
        refine or_congr_right' fun hf => or_iff_right ?_
        rintro heq
        exact hf (heq ▸ hg)
      simp only [hg, if_true, hsame]
    · have hsame : f.name ∈ seen ∨ f.name = g.name ∨ f.name ∈ fs.map name ↔
          (f.name = g.name ∨ f.name ∈ seen) ∨ f.name ∈ fs.map name := by
        rw [or_left_comm, or_assoc]
      simp only [hg, if_false, hsame]
      split <;> rfl

theorem map_name_distinct (fs : List Field) : (distinct [] fs).map name = (fs.map name).eraseDups := by
  induction fs using List.reverseRecOn with
  | nil => rfl
  | append_singleton fs f ih =>
    rw [distinct_concat, List.map_append, List.map_singleton, eraseDups_concat, ← ih]
    simp only [List.not_mem_nil, false_or]
    split
    · rfl
    · rw [List.map_append, List.map_singleton]

theorem exists_of_mem_distinct {fs : List Field} {f : Field} (h : f ∈ distinct [] fs) :
    ∃ front back, fs = front ++ f :: back ∧ f.name ∉ front.map name := by
  induction fs using List.reverseRecOn with
  | nil => cases h
  | append_singleton fs g ih =>
    have hearlier : f ∈ distinct [] fs → ∃ front back, fs ++ [g] = front ++ f :: back ∧
        f.name ∉ front.map name := by
      intro hf
      obtain ⟨front, back, rfl, hnew⟩ := ih hf
      exact ⟨front, back ++ [g], by simp, hnew⟩
    rw [distinct_concat] at h
    simp only [List.not_mem_nil, false_or] at h
    split at h
    · exact hearlier h
    · rename_i hnew
      rcases List.mem_append.1 h with hf | hf
      · exact hearlier hf
      · rw [List.mem_singleton.1 hf]
        exact ⟨fs, [], rfl, hnew⟩

theorem map_name_ofDocument (d : Document) :
    (ofDocument d).map name = (d.commands.flatMap named).eraseDups := by
  rw [ofDocument, map_name_distinct, List.map_flatMap]
  simp only [map_name_references]

theorem exists_first_reference {d : Document} {f : Field} (h : f ∈ ofDocument d) :
    ∃ before c after, d.commands = before ++ c :: after ∧ f ∈ references c ∧
      ∀ c' ∈ before, f.name ∉ named c' := by
  obtain ⟨front, back, hsplit, hnew⟩ := exists_of_mem_distinct h
  obtain ⟨before, c, after, hcommands, hf, hbefore⟩ := exists_of_flatMap_eq hsplit
  refine ⟨before, c, after, hcommands, hf, fun c' hc' hname => hnew ?_⟩
  rw [← map_name_references] at hname
  obtain ⟨g, hg, heq⟩ := List.mem_map.1 hname
  exact List.mem_map.2 ⟨g, hbefore (List.mem_flatMap.2 ⟨c', hc', hg⟩), heq⟩

theorem impliesNumber_iff (c : Command) : impliesNumber c = true ↔ ShowsNumber c := by
  have hhas : ∀ role, c.hasRole role = decide (c.role? = some role) := fun _ => rfl
  unfold impliesNumber
  constructor
  · intro h
    split at h
    · rename_i hrole
      split at h
      · cases h
      · rename_i literal hliteral
        simp only [Bool.and_eq_true, Bool.not_eq_true', Option.isSome_iff_exists] at h
        obtain ⟨hparameter, value, hvalue⟩ := h
        exact .compared (by simp [hhas, hrole]) hliteral (by simp [hparameter]) hvalue
    · rename_i hrole
      split at h
      · cases h
      · rename_i function hfunction
        exact .aggregated (by simp [hhas, hrole]) hfunction (List.contains_iff_mem.1 h)
    · cases h
  · rintro (⟨hrole, hliteral, hparameter, hvalue⟩ | ⟨hrole, hfunction, hmem⟩)
    · rw [of_decide_eq_true hrole]
      simp [hliteral, hparameter, hvalue]
    · rw [of_decide_eq_true hrole]
      simp [hfunction, hmem]

theorem mem_numericNames {d : Document} {name : Text} :
    name ∈ numericNames d ↔ ∃ c ∈ d.commands, ShowsNumber c ∧ name ∈ c.referencedFields := by
  simp only [numericNames, List.mem_flatMap, List.mem_filter, impliesNumber_iff, and_assoc]

theorem keys_types (d : Document) : Record.keys (types d) = (ofDocument d).map name := by
  rw [types, Record.keys, List.map_map]
  rfl

theorem get?_types (d : Document) (name : Text) : Record.get? (types d) name =
    if name ∈ (ofDocument d).map Field.name then
      some (if name ∈ numericNames d then .number else .string) else none := by
  split
  · rename_i hname
    obtain ⟨f, hf, rfl⟩ := List.mem_map.1 hname
    have htype : ∀ g ∈ ofDocument d,
        (g.name, if (numericNames d).contains g.name then FieldType.number else .string) =
          (g.name, if g.name ∈ numericNames d then .number else .string) :=
      fun g _ => by simp only [List.contains_iff_mem]
    rw [types, List.map_congr_left htype]
    refine Record.get?_of_unique (List.mem_map.2 ⟨f, hf, rfl⟩) fun type hmem => ?_
    obtain ⟨g, -, heq⟩ := List.mem_map.1 hmem
    obtain ⟨hsame, rfl⟩ := Prod.mk.inj heq
    rw [hsame]
  · rename_i hname
    rwa [Record.get?_eq_none_iff, keys_types]

theorem get?_types_eq_number {d : Document} {name : Text} : Record.get? (types d) name = some .number ↔
    name ∈ (ofDocument d).map Field.name ∧ name ∈ numericNames d := by
  rw [get?_types]
  split <;> simp [*]

/-- A document is asked for its fields and types command by command, whatever their order. -/
theorem get?_types_perm {d d' : Document} (h : d'.commands.Perm d.commands) (name : Text) :
    Record.get? (types d') name = Record.get? (types d) name := by
  have hfields : name ∈ (ofDocument d').map Field.name ↔ name ∈ (ofDocument d).map Field.name := by
    rw [map_name_ofDocument, map_name_ofDocument, List.mem_eraseDups, List.mem_eraseDups]
    exact (h.flatMap_right named).mem_iff
  have hnumeric : name ∈ numericNames d' ↔ name ∈ numericNames d := by
    simp only [mem_numericNames, h.mem_iff]
  simp only [get?_types, hfields, hnumeric]

/-- The fields are the names that commands refer to, each as it is met first, and the types are those of the
same names in the same order. A field is a number if some command shows it to be one, wherever it stands. -/
theorem ofDocument_types (d : Document) :
    (ofDocument d).map name = (d.commands.flatMap named).eraseDups ∧ ((ofDocument d).map name).Nodup ∧
    (∀ f ∈ ofDocument d, ∃ before c after role, d.commands = before ++ c :: after ∧
      f.name ∈ named c ∧ (∀ c' ∈ before, f.name ∉ named c') ∧ c.role? = some role ∧
      FieldUse.ofRole? role = some f.use ∧ f.commandIndex = c.index ∧ f.line = c.line ∧ f.scope = c.scope) ∧
    Record.keys (types d) = (ofDocument d).map name ∧
    (∀ name, Record.get? (types d) name = some .number ↔ name ∈ (ofDocument d).map Field.name ∧
      ∃ c ∈ d.commands, ShowsNumber c ∧ name ∈ c.referencedFields) ∧
    ∀ d' : Document, d'.commands.Perm d.commands → ∀ name,
      Record.get? (types d') name = Record.get? (types d) name := by
  refine ⟨map_name_ofDocument d, ?_, fun f hf => ?_, keys_types d, fun name => ?_,
    fun d' h => get?_types_perm h⟩
  · rw [map_name_ofDocument]
    exact nodup_eraseDups _
  · obtain ⟨before, c, after, hcommands, href, hnew⟩ := exists_first_reference hf
    obtain ⟨⟨role, hrole, huse⟩, hindex, hline, hscope⟩ := of_mem_references href
    have hname : f.name ∈ named c := by
      rw [← map_name_references]
      exact List.mem_map_of_mem href
    exact ⟨before, c, after, role, hcommands, hname, hnew, hrole, huse, hindex, hline, hscope⟩
  · rw [get?_types_eq_number, mem_numericNames]

/-- A block comes first in the text, so its field is met there. The aggregate in it counts for the whole
query, also with the commands in reverse order. -/
theorem ofDocument_types_block :
    let d := Document.parse Dialect.pipeline
      "BLOCK b\nAGGREGATE \x7btarget: mem, fn: SUM\x7d\nEND\nPROJECT ['*', cpu, $p, mem]"
    (ofDocument d).map name = [Text.ofString "mem", Text.ofString "cpu"] ∧
      (∃ f ∈ ofDocument d, f.name = "mem" ∧ ∃ before c after, d.commands = before ++ c :: after ∧
        f.name ∈ named c ∧ (∀ c' ∈ before, f.name ∉ named c') ∧ f.scope = c.scope) ∧
      Record.get? (types { d with commands := d.commands.reverse }) "mem" = some .number := by
  intro d
  obtain ⟨hnames, -, hfirst, -, -, hperm⟩ := ofDocument_types d
  have hfound : (d.commands.flatMap named).eraseDups = [Text.ofString "mem", Text.ofString "cpu"] ∧
      Record.get? (types d) "mem" = some .number := by decide +kernel
  have hlist := hnames.trans hfound.1
  refine ⟨hlist, ?_, (hperm _ (List.reverse_perm _) _).trans hfound.2⟩
  obtain ⟨f, hf, hname⟩ := List.mem_map.1 (hlist ▸ List.mem_cons_self)
  obtain ⟨before, c, after, -, hcommands, hnamed, hnew, -, -, -, -, hscope⟩ := hfirst f hf
  exact ⟨f, hf, hname, before, c, after, hcommands, hnamed, hnew, hscope⟩

end Field
end QueryLint
