import QueryLint.Proofs.Json.Scalars
import QueryLint.Proofs.Records

/-!
Plain data is read back from its indented form. Whatever follows the form of a value is left to the
reader's caller, so that the forms of items and members can be read one after the other; every unit of a
form pays for two steps of the reader.
-/

namespace QueryLint
set_option autoImplicit false

namespace Json

/-- Data that JSON can hold: numbers are plain, and the members of an object stand in the order of records,
each key once. -/
inductive IsPlain : Json → Prop where
  | null : IsPlain null
  | bool (value : Bool) : IsPlain (bool value)
  | number {x : Number} : x.IsPlain → IsPlain (number x)
  | text (value : Text) : IsPlain (text value)
  | array {items : List Json} : (∀ item ∈ items, IsPlain item) → IsPlain (array items)
  | object {members : Record Json} : (Record.keys members).Nodup → Record.arranged members = members →
      (∀ member ∈ members, IsPlain member.2) → IsPlain (object members)

def IsLayout (t : Text) : Prop := ∀ c ∈ t, c.isLayout = true

theorem skipLayout_append {t : Text} (ht : IsLayout t) (rest : Text) :
    skipLayout (t ++ rest) = skipLayout rest := by
  rw [skipLayout, List.dropWhile_append_of_pos ht]
  rfl

theorem skipLayout_cons {c : CodeUnit} (hc : c.isLayout = false) (rest : Text) :
    skipLayout (c :: rest) = c :: rest := by
  simp [skipLayout, hc]

theorem valueAt_append {t : Text} (ht : IsLayout t) (fuel : Nat) (rest : Text) :
    valueAt fuel (t ++ rest) = valueAt fuel rest := by
  cases fuel with
  | zero => rfl
  | succ fuel => rw [valueAt, valueAt, skipLayout_append ht]

theorem itemsAt_append {t : Text} (ht : IsLayout t) (fuel : Nat) (rest : Text) :
    itemsAt fuel (t ++ rest) = itemsAt fuel rest := by
  cases fuel with
  | zero => rfl
  | succ fuel => rw [itemsAt, itemsAt, valueAt_append ht]

theorem membersAt_append {t : Text} (ht : IsLayout t) (fuel : Nat) (rest : Text) :
    membersAt fuel (t ++ rest) = membersAt fuel rest := by
  cases fuel with
  | zero => rfl
  | succ fuel => rw [membersAt, membersAt, skipLayout_append ht]

theorem isLayout_breakAt (depth : Nat) : IsLayout (breakAt depth) := by
  intro c hc
  rcases List.mem_append.1 hc with hc | hc
  · rw [List.mem_singleton.1 hc]
    decide
  · rw [List.eq_of_mem_replicate hc]
    decide

theorem stops_breakAt (depth : Nat) (rest : Text) : Numeral.Stops (breakAt depth ++ rest) :=
  Numeral.stops_cons (by decide) _

structure Opens (c : CodeUnit) : Prop where
  solid : c.isLayout = false
  ne_bracket : c ≠ CodeUnit.ofChar ']'

theorem opens_of_number {c : CodeUnit} (hc : c = CodeUnit.ofChar '-' ∨ c.isDigit = true) : Opens c := by
  constructor
  · apply Bool.eq_false_iff.2
    intro hlayout
    simp only [CodeUnit.isLayout, Bool.or_eq_true, decide_eq_true_eq] at hlayout
    rcases hc with rfl | hc
    · exact absurd hlayout (by decide)
    · rcases hlayout with ((rfl | rfl) | rfl) | rfl <;> exact absurd hc (by decide)
  · rintro rfl
    exact absurd hc (by decide)

theorem numberText_of_isPlain {x : Number} (hx : x.IsPlain) : numberText x = x.toText := by
  match x, hx with
  | .finite negative m, _ => rfl

theorem head_enclose (opening : CodeUnit) (closing : Text) (depth : Nat) (items : List Text) :
    ∃ rest, enclose [opening] closing depth items = opening :: rest := by
  unfold enclose
  split
  · exact ⟨_, rfl⟩
  · simp only [List.append_assoc]
    exact ⟨_, rfl⟩

theorem head_indented {j : Json} (hj : j.IsPlain) (depth : Nat) :
    ∃ c rest, indented depth j = c :: rest ∧ Opens c := by
  cases hj with
  | null => exact ⟨_, _, rfl, by decide, by decide⟩
  | bool value =>
    cases value with
    | true => exact ⟨_, _, rfl, by decide, by decide⟩
    | false => exact ⟨_, _, rfl, by decide, by decide⟩
  | @number x hx =>
    obtain ⟨c, rest, heq, hc⟩ := head_toText hx
    exact ⟨c, rest, (numberText_of_isPlain hx).trans heq, opens_of_number hc⟩
  | text value => exact ⟨_, _, rfl, by decide, by decide⟩
  | array hitems =>
    obtain ⟨rest, heq⟩ := head_enclose '[' "]" depth _
    exact ⟨_, rest, heq, by decide, by decide⟩
  | object hkeys harranged hmembers =>
    obtain ⟨rest, heq⟩ := head_enclose '\x7b' "\x7d" depth _
    exact ⟨_, rest, heq, by decide, by decide⟩

/-- The form of a value is read back at every depth, whatever follows it. -/
def ReadsBack (j : Json) : Prop :=
  ∀ (depth fuel : Nat) (rest : Text), 2 * (indented depth j).length ≤ fuel → Numeral.Stops rest →
    valueAt fuel (indented depth j ++ rest) = some (j, rest)

theorem wordAt_append (word : Text) (j : Json) (rest : Text) : wordAt word j (word ++ rest) = some (j, rest) := by
  have hstarts : Text.startsWith (word ++ rest) word = true :=
    List.isPrefixOf_iff_prefix.2 (List.prefix_append word rest)
  rw [wordAt, hstarts, if_pos rfl, List.drop_left]

theorem exists_fuel {j : Json} (hj : j.IsPlain) {depth fuel : Nat} (hfuel : 2 * (indented depth j).length ≤ fuel) :
    ∃ n, fuel = n + 1 ∧ 2 * (indented depth j).length ≤ n + 1 := by
  obtain ⟨c, rest, heq, -⟩ := head_indented hj depth
  have hlength : 0 < (indented depth j).length := by
    rw [heq]
    exact Nat.zero_lt_succ _
  exact ⟨fuel - 1, by omega, by omega⟩

theorem readsBack_null : ReadsBack null := by
  intro depth fuel rest hfuel _
  obtain ⟨n, rfl, -⟩ := exists_fuel .null hfuel
  exact wordAt_append "null" null rest

theorem readsBack_bool (value : Bool) : ReadsBack (bool value) := by
  intro depth fuel rest hfuel _
  obtain ⟨n, rfl, -⟩ := exists_fuel (.bool value) hfuel
  cases value with
  | true => exact wordAt_append "true" (bool true) rest
  | false => exact wordAt_append "false" (bool false) rest

theorem stringBody_quoted (t rest : Text) :
    stringBody ((quotedUnits t ++ CodeUnit.ofChar '"' :: rest).length + 1)
      (quotedUnits t ++ CodeUnit.ofChar '"' :: rest) = some (t, rest) := by
  apply stringBody_quotedUnits
  rw [List.length_append]
  omega

theorem readsBack_text (value : Text) : ReadsBack (text value) := by
  intro depth fuel rest hfuel _
  obtain ⟨n, rfl, -⟩ := exists_fuel (.text value) hfuel
  have hform : indented depth (text value) ++ rest =
      CodeUnit.ofChar '"' :: (quotedUnits value ++ CodeUnit.ofChar '"' :: rest) := by
    rw [indented, quoted, List.append_assoc, List.append_assoc]
    rfl
  rw [hform, valueAt, skipLayout_cons (by decide)]
  dsimp only
  rw [if_neg (by decide), if_neg (by decide), if_pos rfl, stringBody_quoted]
  rfl

theorem readsBack_number {x : Number} (hx : x.IsPlain) : ReadsBack (number x) := by
  intro depth fuel rest hfuel hrest
  obtain ⟨n, rfl, -⟩ := exists_fuel (.number hx) hfuel
  have hform : indented depth (number x) = x.toText := numberText_of_isPlain hx
  obtain ⟨c, more, heq, hc⟩ := head_toText hx
  have hne : ∀ d : CodeUnit, d ≠ CodeUnit.ofChar '-' → d.isDigit = false → c ≠ d := by
    rintro d hminus hdigit rfl
    rcases hc with rfl | hc
    · exact hminus rfl
    · rw [hdigit] at hc
      cases hc
  have hread := numberAt_toText hx hrest
  rw [heq, List.cons_append] at hread
  rw [hform, heq, List.cons_append, valueAt, skipLayout_cons (opens_of_number hc).solid]
  dsimp only
  rw [if_neg (hne _ (by decide) (by decide)), if_neg (hne _ (by decide) (by decide)),
    if_neg (hne _ (by decide) (by decide)), if_neg (hne _ (by decide) (by decide)),
    if_neg (hne _ (by decide) (by decide)), if_neg (hne _ (by decide) (by decide)), hread]
  rfl

def following (depth : Nat) (forms : List Text) : Text :=
  forms.flatMap fun t => CodeUnit.ofChar ',' :: (breakAt depth ++ t)

theorem following_cons (depth : Nat) (t : Text) (forms : List Text) :
    following depth (t :: forms) = CodeUnit.ofChar ',' :: (breakAt depth ++ (t ++ following depth forms)) := by
  simp [following]

theorem enclose_cons (opening closing : CodeUnit) (depth : Nat) (t : Text) (forms : List Text) :
    enclose [opening] [closing] depth (t :: forms) =
      opening :: (breakAt (depth + 1) ++ (t ++ (following (depth + 1) forms ++ (breakAt depth ++ [closing])))) := by
  have hcomma : Text.ofString "," = [CodeUnit.ofChar ','] := rfl
  simp [enclose, Text.join_cons, following, hcomma]

theorem stops_following (depth outer : Nat) (forms : List Text) (rest : Text) :
    Numeral.Stops (following depth forms ++ (breakAt outer ++ rest)) := by
  cases forms with
  | nil => exact stops_breakAt outer rest
  | cons t forms => exact Numeral.stops_cons (by decide) _

theorem itemsAt_indented {item : Json} {items : List Json} (h : ∀ j ∈ item :: items, ReadsBack j)
    (depth outer fuel : Nat) (rest : Text)
    (hfuel : 2 * ((indented depth item).length + (following depth (indentedItems depth items)).length) + 2 ≤ fuel) :
    itemsAt fuel (indented depth item ++ (following depth (indentedItems depth items) ++
      (breakAt outer ++ CodeUnit.ofChar ']' :: rest))) = some (item :: items, rest) := by
  induction items generalizing item fuel with
  | nil =>
    obtain ⟨fuel, rfl⟩ : ∃ n, fuel = n + 1 := ⟨fuel - 1, by omega⟩
    have hitem := h item List.mem_cons_self depth fuel (breakAt outer ++ CodeUnit.ofChar ']' :: rest) (by omega)
      (stops_breakAt outer _)
    rw [indentedItems, following, List.flatMap_nil, List.nil_append, itemsAt, hitem]
    dsimp only
    rw [skipLayout_append (isLayout_breakAt outer), skipLayout_cons (by decide)]
    exact if_pos rfl
  | cons next items ih =>
    rw [indentedItems, following_cons, List.length_cons, List.length_append, List.length_append] at hfuel
    obtain ⟨fuel, rfl⟩ : ∃ n, fuel = n + 1 := ⟨fuel - 1, by omega⟩
    have hitem := h item List.mem_cons_self depth fuel
      (following depth (indentedItems depth (next :: items)) ++ (breakAt outer ++ CodeUnit.ofChar ']' :: rest))
      (by omega) (stops_following depth outer _ _)
    have hitems := ih (fun j hj => h j (List.mem_cons_of_mem _ hj)) fuel (by omega)
    rw [itemsAt, hitem, indentedItems, following_cons, List.cons_append, List.append_assoc, List.append_assoc]
    dsimp only
    rw [skipLayout_cons (by decide)]
    dsimp only
    rw [if_neg (by decide), if_pos rfl, itemsAt_append (isLayout_breakAt depth), hitems]
    rfl

theorem readsBack_array {items : List Json} (hplain : ∀ item ∈ items, IsPlain item)
    (h : ∀ item ∈ items, ReadsBack item) : ReadsBack (array items) := by
  intro depth fuel rest hfuel _
  obtain ⟨n, rfl, hn⟩ := exists_fuel (.array hplain) hfuel
  cases items with
  | nil => rfl
  | cons item items =>
    have hform : indented depth (array (item :: items)) = _ :=
      enclose_cons '[' ']' depth (indented (depth + 1) item) (indentedItems (depth + 1) items)
    obtain ⟨c, more, heq, hc⟩ := head_indented (hplain item List.mem_cons_self) (depth + 1)
    rw [hform] at hn ⊢
    simp only [List.length_cons, List.length_append, List.length_nil] at hn
    have hitems := itemsAt_indented h (depth + 1) depth n rest (by omega)
    rw [heq] at hitems ⊢
    simp only [List.cons_append, List.append_assoc, List.nil_append] at hitems ⊢
    rw [valueAt, skipLayout_cons (by decide)]
    dsimp only
    rw [if_neg (by decide), if_pos rfl, skipLayout_append (isLayout_breakAt _), skipLayout_cons hc.solid]
    dsimp only
    rw [if_neg hc.ne_bracket, hitems]
    rfl

def memberForm (depth : Nat) (member : Text × Json) : Text := quoted member.1 ++ ": " ++ indented depth member.2

theorem indentedItems_eq (depth : Nat) (items : List Json) :
    indentedItems depth items = items.map (indented depth) := by
  induction items with
  | nil => rfl
  | cons item items ih => rw [indentedItems, ih, List.map_cons]

theorem indentedMembers_eq (depth : Nat) (members : List (Text × Json)) :
    indentedMembers depth members = members.map (memberForm depth) := by
  induction members with
  | nil => rfl
  | cons member members ih => rw [indentedMembers, ih, List.map_cons, memberForm]

theorem memberForm_eq (depth : Nat) (member : Text × Json) :
    memberForm depth member = CodeUnit.ofChar '"' :: (quotedUnits member.1 ++
      CodeUnit.ofChar '"' :: CodeUnit.ofChar ':' :: CodeUnit.ofChar ' ' :: indented depth member.2) := by
  have hquote : Text.ofString "\"" = [CodeUnit.ofChar '"'] := rfl
  have hcolon : Text.ofString ": " = [CodeUnit.ofChar ':', CodeUnit.ofChar ' '] := rfl
  simp [memberForm, quoted, hquote, hcolon]

theorem membersAt_memberForm {member : Text × Json} (h : ReadsBack member.2) {depth fuel : Nat} {rest : Text}
    (hfuel : 2 * (memberForm depth member).length ≤ fuel) (hrest : Numeral.Stops rest) :
    membersAt (fuel + 1) (memberForm depth member ++ rest) = match skipLayout rest with
      | [] => none
      | c :: rest =>
        if c = CodeUnit.ofChar '\x7d' then some ([member], rest)
        else if c = CodeUnit.ofChar ',' then
          (membersAt fuel rest).map fun (members, rest) => (member :: members, rest)
        else none := by
  obtain ⟨key, item⟩ := member
  have hlayout : IsLayout [CodeUnit.ofChar ' '] := by
    intro c hc
    rw [List.mem_singleton.1 hc]
    decide
  have hvalue : valueAt fuel (CodeUnit.ofChar ' ' :: (indented depth item ++ rest)) = some (item, rest) := by
    rw [← List.singleton_append, valueAt_append hlayout]
    refine h depth fuel rest ?_ hrest
    simp only [memberForm_eq, List.length_cons, List.length_append] at hfuel
    dsimp only
    omega
  simp only [memberForm_eq, List.cons_append, List.append_assoc]
  rw [membersAt, skipLayout_cons (by decide)]
  dsimp only
  rw [if_neg (by decide), stringBody_quoted]
  dsimp only
  rw [skipLayout_cons (by decide)]
  dsimp only
  rw [if_neg (by decide)]
  generalize valueAt fuel (CodeUnit.ofChar ' ' :: (indented depth item ++ rest)) = read at hvalue ⊢
  subst hvalue
  rfl

theorem membersAt_indented {member : Text × Json} {members : List (Text × Json)}
    (h : ∀ m ∈ member :: members, ReadsBack m.2) (depth outer fuel : Nat) (rest : Text)
    (hfuel : 2 * ((memberForm depth member).length + (following depth (members.map (memberForm depth))).length) + 2 ≤
      fuel) :
    membersAt fuel (memberForm depth member ++ (following depth (members.map (memberForm depth)) ++
      (breakAt outer ++ CodeUnit.ofChar '\x7d' :: rest))) = some (member :: members, rest) := by
  induction members generalizing member fuel with
  | nil =>
    obtain ⟨fuel, rfl⟩ : ∃ n, fuel = n + 1 := ⟨fuel - 1, by omega⟩
    rw [membersAt_memberForm (h member List.mem_cons_self) (by omega) (stops_following depth outer _ _), List.map_nil,
      following, List.flatMap_nil, List.nil_append, skipLayout_append (isLayout_breakAt outer),
      skipLayout_cons (by decide)]
    exact if_pos rfl
  | cons next members ih =>
    rw [List.map_cons, following_cons, List.length_cons, List.length_append, List.length_append] at hfuel
    obtain ⟨fuel, rfl⟩ : ∃ n, fuel = n + 1 := ⟨fuel - 1, by omega⟩
    have hmembers := ih (fun m hm => h m (List.mem_cons_of_mem _ hm)) fuel (by omega)
    rw [membersAt_memberForm (h member List.mem_cons_self) (by omega) (stops_following depth outer _ _), List.map_cons,
      following_cons, List.cons_append, List.append_assoc, List.append_assoc, skipLayout_cons (by decide)]
    dsimp only
    rw [if_neg (by decide), if_pos rfl, membersAt_append (isLayout_breakAt depth), hmembers]
    rfl

theorem record_eq_object {members : Record Json} (hkeys : (Record.keys members).Nodup)
    (harranged : Record.arranged members = members) : record members = object members := by
  rw [record, Record.ofPairs_eq_self hkeys, harranged]

theorem readsBack_object {members : Record Json} (hkeys : (Record.keys members).Nodup)
    (harranged : Record.arranged members = members) (hplain : ∀ member ∈ members, IsPlain member.2)
    (h : ∀ member ∈ members, ReadsBack member.2) : ReadsBack (object members) := by
  intro depth fuel rest hfuel _
  obtain ⟨n, rfl, hn⟩ := exists_fuel (.object hkeys harranged hplain) hfuel
  cases members with
  | nil => rfl
  | cons member members =>
    have hform : indented depth (object (member :: members)) = _ :=
      (congrArg (enclose "\x7b" "\x7d" depth) (indentedMembers_eq (depth + 1) (member :: members))).trans
        (enclose_cons '\x7b' '\x7d' depth (memberForm (depth + 1) member) (members.map (memberForm (depth + 1))))
    rw [hform] at hn ⊢
    simp only [List.length_cons, List.length_append, List.length_nil] at hn
    have hmembers := membersAt_indented h (depth + 1) depth n rest (by omega)
    rw [memberForm_eq] at hmembers ⊢
    simp only [List.cons_append, List.append_assoc, List.nil_append] at hmembers ⊢
    rw [valueAt, skipLayout_cons (by decide)]
    dsimp only
    rw [if_pos rfl, skipLayout_append (isLayout_breakAt _), skipLayout_cons (by decide)]
    dsimp only
    rw [if_neg (by decide), hmembers, Option.map_some, record_eq_object hkeys harranged]

theorem IsPlain.readsBack {j : Json} (hj : j.IsPlain) : ReadsBack j := by
  induction hj with
  | null => exact readsBack_null
  | bool value => exact readsBack_bool value
  | number hx => exact readsBack_number hx
  | text value => exact readsBack_text value
  | array hplain ih => exact readsBack_array hplain ih
  | object hkeys harranged hplain ih => exact readsBack_object hkeys harranged hplain ih

theorem read_document {j : Json} (hj : j.IsPlain) : read j.document = some j := by
  have hvalue := hj.readsBack 0 (2 * j.document.length + 2) "\n" (by rw [document, List.length_append]; omega)
    (Numeral.stops_cons (by decide) [])
  rw [read, document] at *
  rw [hvalue]
  rfl

/-- A value that is read is an object of members that are read, a number that is read, or neither. -/
theorem valueAt_cases {fuel : Nat} {t rest : Text} {j : Json} (h : valueAt fuel t = some (j, rest)) :
    (∃ fuel' t' rest' members, membersAt fuel' t' = some (members, rest') ∧ j = record members) ∨
    (∃ t' rest' x, numberAt t' = some (x, rest') ∧ j = number x) ∨
    ((∀ x, j ≠ number x) ∧ ∀ members, j = object members → members = []) := by
  have hword : ∀ (word : Text) (k : Json) (t : Text), wordAt word k t = some (j, rest) → j = k := by
    intro word k t hword
    rw [wordAt] at hword
    obtain ⟨-, hword⟩ := Option.ite_none_right_eq_some.1 hword
    cases hword
    rfl
  cases fuel with
  | zero => cases h
  | succ fuel =>
    rw [valueAt] at h
    split at h
    · cases h
    split at h
    · split at h
      · cases h
      split at h
      · cases h
        exact Or.inr (Or.inr ⟨nofun, fun members heq => by cases heq; rfl⟩)
      · obtain ⟨⟨members, rest'⟩, hmembers, heq⟩ := Option.map_eq_some_iff.1 h
        cases heq
        exact Or.inl ⟨_, _, _, members, hmembers, rfl⟩
    split at h
    · split at h
      · cases h
      split at h
      · cases h
        exact Or.inr (Or.inr ⟨nofun, nofun⟩)
      · obtain ⟨_, -, heq⟩ := Option.map_eq_some_iff.1 h
        cases heq
        exact Or.inr (Or.inr ⟨nofun, nofun⟩)
    split at h
    · obtain ⟨_, -, heq⟩ := Option.map_eq_some_iff.1 h
      cases heq
      exact Or.inr (Or.inr ⟨nofun, nofun⟩)
    split at h
    · rw [hword _ _ _ h]
      exact Or.inr (Or.inr ⟨nofun, nofun⟩)
    split at h
    · rw [hword _ _ _ h]
      exact Or.inr (Or.inr ⟨nofun, nofun⟩)
    split at h
    · rw [hword _ _ _ h]
      exact Or.inr (Or.inr ⟨nofun, nofun⟩)
    · obtain ⟨⟨x, rest'⟩, hnumber, heq⟩ := Option.map_eq_some_iff.1 h
      cases heq
      exact Or.inr (Or.inl ⟨_, _, x, hnumber, rfl⟩)

theorem inFormat_of_valueAt {fuel : Nat} {t rest : Text} {x : Number}
    (h : valueAt fuel t = some (number x, rest)) : x.InFormat := by
  rcases valueAt_cases h with ⟨_, _, _, _, -, heq⟩ | ⟨_, _, y, hnumber, heq⟩ | ⟨hno, -⟩
  · cases heq
  · cases heq
    exact inFormat_of_numberAt hnumber
  · exact absurd rfl (hno x)

theorem inFormat_of_membersAt {fuel : Nat} {t rest : Text} {members : List (Text × Json)}
    (h : membersAt fuel t = some (members, rest)) {key : Text} {x : Number}
    (hx : (key, number x) ∈ members) : x.InFormat := by
  induction fuel generalizing t members rest with
  | zero => cases h
  | succ fuel ih =>
    rw [membersAt] at h
    split at h
    · cases h
    split at h
    · cases h
    split at h
    · cases h
    split at h
    · cases h
    split at h
    · cases h
    split at h
    · cases h
    rename_i item more hvalue
    split at h
    · cases h
    split at h
    · -- the last member
      cases h
      rw [List.mem_singleton] at hx
      cases hx
      exact inFormat_of_valueAt hvalue
    split at h
    · obtain ⟨_, hmembers, heq⟩ := Option.map_eq_some_iff.1 h
      cases heq
      rcases List.mem_cons.1 hx with heq | hx
      · cases heq
        exact inFormat_of_valueAt hvalue
      · exact ih hmembers hx
    · cases h

theorem inFormat_of_read {t : Text} {members : Record Json} (h : read t = some (object members)) {key : Text}
    {x : Number} (hx : Record.get? members key = some (number x)) : x.InFormat := by
  have hmem := Record.mem_of_get? hx
  unfold read at h
  split at h
  · rename_i hvalue
    obtain ⟨-, heq⟩ := Option.ite_none_right_eq_some.1 h
    cases heq
    rcases valueAt_cases hvalue with ⟨_, _, _, pairs, hmembers, heq⟩ | ⟨_, _, y, -, heq⟩ | ⟨-, hempty⟩
    · cases heq
      exact inFormat_of_membersAt hmembers (Record.mem_of_mem_ofPairs ((Record.arranged_perm _).mem_iff.1 hmem))
    · cases heq
    · rw [hempty members rfl] at hmem
      cases hmem
  · cases h

end Json
end QueryLint
