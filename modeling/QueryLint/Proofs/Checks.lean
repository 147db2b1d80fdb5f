import QueryLint.Proofs.Records
import QueryLint.Schema

/-!
Checks of plain data: what a check that succeeds has seen.

A check reads off a value when it accepts one form of it only. What it accepts can then be told from the result, so
that the result can be written, checked again and come out the same.
-/

namespace QueryLint.Schema
set_option autoImplicit false

theorem all_map_valid {α β : Type} {check : β → Checked α} {value : β → α} {xs : List β}
    (h : ∀ x ∈ xs, check x = .valid (value x)) : Checked.all (xs.map check) = .valid (xs.map value) := by
  induction xs with
  | nil => rfl
  | cons x xs ih =>
    rw [List.map_cons, Checked.all, h x List.mem_cons_self, ih fun y hy => h y (List.mem_cons_of_mem _ hy)]
    rfl

section Applicative
variable {α β : Type}

theorem map_eq_valid_iff {f : α → β} {a : Checked α} {b : β} : f <$> a = .valid b ↔ ∃ x, a = .valid x ∧ f x = b := by
  cases a with
  | invalid cs => exact ⟨nofun, nofun⟩
  | valid x => exact ⟨fun h => ⟨x, rfl, Checked.valid.inj h⟩, fun ⟨_, hx, hb⟩ => hx ▸ hb ▸ rfl⟩

theorem seq_eq_valid_iff {f : Checked (α → β)} {a : Checked α} {b : β} :
    f <*> a = .valid b ↔ ∃ g, f = .valid g ∧ ∃ x, a = .valid x ∧ g x = b := by
  cases f with
  | invalid cs => cases a <;> exact ⟨nofun, nofun⟩
  | valid g =>
    cases a with
    | invalid ds => exact ⟨nofun, nofun⟩
    | valid x => exact ⟨fun h => ⟨g, rfl, x, rfl, Checked.valid.inj h⟩, fun ⟨_, hg, _, hx, hb⟩ => hg ▸ hx ▸ hb ▸ rfl⟩

theorem seqLeft_eq_valid_iff {a : Checked α} {b : Checked β} {x : α} :
    a <* b = .valid x ↔ a = .valid x ∧ ∃ y, b = .valid y := by
  change Function.const β <$> a <*> b = .valid x ↔ _
  simp only [seq_eq_valid_iff, map_eq_valid_iff, exists_exists_and_eq_and, Function.const_apply]
  constructor
  · rintro ⟨_, ha, y, hb, rfl⟩
    exact ⟨ha, y, hb⟩
  · rintro ⟨ha, y, hb⟩
    exact ⟨x, ha, y, hb, rfl⟩

end Applicative

theorem others_eq_nil_iff {known : List Text} {members : Record Json} :
    others known members = [] ↔ ∀ key, key ∉ known → Record.get? members key = none := by
  rw [others, List.filter_eq_nil_iff]
  constructor
  · intro h key hkey
    refine Record.get?_eq_none_iff.2 fun hmem => ?_
    obtain ⟨m, hm, rfl⟩ := List.mem_map.1 hmem
    exact h m hm (by simpa using hkey)
  · intro h m hm hother
    exact Record.get?_eq_none_iff.1 (h m.1 (by simpa using hother)) (List.mem_map.2 ⟨m, hm, rfl⟩)

theorem nothingBeyond_eq_valid_iff {path known : List Text} {members : Record Json} :
    (∃ u, nothingBeyond path known members = .valid u) ↔ others known members = [] := by
  rw [nothingBeyond]
  cases others known members with
  | nil => exact ⟨fun _ => rfl, fun _ => ⟨(), rfl⟩⟩
  | cons m ms => exact ⟨nofun, nofun⟩

theorem guarded_eq_valid_iff {α : Type} {path : List Text} {problems : List (Bool × Problem)} {a b : α} :
    guarded path problems a = .valid b ↔ a = b ∧ ∀ problem ∈ problems, problem.1 = false := by
  have hnone : problems.filter (·.1) = [] ↔ ∀ problem ∈ problems, problem.1 = false := by
    simp only [List.filter_eq_nil_iff, Bool.not_eq_true]
  rw [← hnone, guarded]
  split
  · rename_i heq
    exact ⟨fun h => ⟨Checked.valid.inj h, heq⟩, fun h => h.1 ▸ rfl⟩
  · rename_i hfound
    exact ⟨nofun, fun h => absurd h.2 hfound⟩

theorem all_cons_eq_valid_iff {α : Type} {c : Checked α} {cs : List (Checked α)} {as : List α} :
    Checked.all (c :: cs) = .valid as ↔ ∃ b bs, as = b :: bs ∧ c = .valid b ∧ Checked.all cs = .valid bs := by
  constructor
  · intro h
    obtain ⟨_, hfirst, bs, hrest, rfl⟩ := seq_eq_valid_iff.1 h
    obtain ⟨b, hc, rfl⟩ := map_eq_valid_iff.1 hfirst
    exact ⟨b, bs, rfl, hc, hrest⟩
  · rintro ⟨b, bs, rfl, rfl, hrest⟩
    rw [Checked.all, hrest]
    rfl

/-- The check accepts exactly the values with a property, each of them in one form. -/
def Accepts {α : Type} (check : Check α) (write : α → Json) (property : α → Prop) : Prop :=
  ∀ path j a, check path j = .valid a ↔ j = some (write a) ∧ property a

section Accepts
variable {α : Type} {check : Check α} {write : α → Json} {property : α → Prop}

theorem Accepts.congr (h : Accepts check write property) {property' : α → Prop}
    (hproperty : ∀ a, property a ↔ property' a) : Accepts check write property' := by
  intro path j a
  rw [h path j a, hproperty]

theorem accepts_nonEmptyText : Accepts nonEmptyText .text (· ≠ []) := by
  intro path j t
  match j with
  | some (.text u) =>
    rw [nonEmptyText, guarded_eq_valid_iff]
    simp only [List.forall_mem_singleton, Option.some.injEq, Json.text.injEq, List.isEmpty_eq_false_iff]
    exact and_congr_right fun h => h ▸ Iff.rfl
  | none | some .null | some (.bool _) | some (.number _) | some (.instant _) | some (.array _)
  | some (.object _) => exact ⟨nofun, nofun⟩

theorem accepts_number (problems : Number → List (Bool × Problem)) :
    Accepts (number problems) .number fun x => x ≠ .nan ∧ ∀ problem ∈ problems x, problem.1 = false := by
  intro path j x
  match j with
  | some (.number y) =>
    by_cases hnan : y = .nan
    · subst hnan
      refine ⟨nofun, ?_⟩
      rintro ⟨hx, hne, -⟩
      cases hx
      exact absurd rfl hne
    · have hcheck : number problems path (some (.number y)) = guarded path (problems y) y := by
        cases y with
        | nan => exact absurd rfl hnan
        | infinite negative => rfl
        | finite negative m => rfl
      rw [hcheck, guarded_eq_valid_iff, Option.some.injEq, Json.number.injEq]
      refine and_congr_right fun h => ?_
      rw [← h]
      exact (and_iff_right hnan).symm
  | none | some .null | some (.bool _) | some (.text _) | some (.instant _) | some (.array _)
  | some (.object _) => exact ⟨nofun, nofun⟩

theorem accepts_choice {choices : List (Text × α)} {name : α → Text} (h : ∀ c ∈ choices, c.1 = name c.2) :
    Accepts (choice choices) (fun a => .text (name a)) fun a => choices.lookup (name a) = some a := by
  intro path j a
  match j with
  | some (.text t) =>
    have hchoice : choice choices path (some (.text t)) = .valid a ↔ choices.lookup t = some a := by
      rw [choice]
      cases choices.lookup t with
      | none => exact ⟨nofun, nofun⟩
      | some b => simp
    rw [hchoice, Option.some.injEq, Json.text.injEq]
    constructor
    · intro hlookup
      obtain rfl : t = name a := h (t, a) (Record.mem_of_get? hlookup)
      exact ⟨rfl, hlookup⟩
    · rintro ⟨rfl, hlookup⟩
      exact hlookup
  | none | some .null | some (.bool _) | some (.number _) | some (.instant _) | some (.array _)
  | some (.object _) => exact ⟨nofun, nofun⟩

/-- What the checks of items accept, wherever their list starts to be counted. -/
theorem Accepts.all_eq_valid_iff (h : Accepts check write property) (path : List Text) (items : List Json) (n : Nat)
    (as : List α) : Checked.all ((items.zipIdx n).map fun (item, i) => check (path ++ [Text.ofNat i]) (some item)) =
      .valid as ↔ items = as.map write ∧ ∀ a ∈ as, property a := by
  induction items generalizing n as with
  | nil => cases as <;> simp [Checked.all]
  | cons item items ih =>
    rw [List.zipIdx_cons, List.map_cons, all_cons_eq_valid_iff]
    simp only [h _ _ _, ih, Option.some.injEq]
    constructor
    · rintro ⟨a, as', rfl, ⟨rfl, ha⟩, rfl, has⟩
      exact ⟨rfl, List.forall_mem_cons.2 ⟨ha, has⟩⟩
    · rintro ⟨hitems, has⟩
      obtain ⟨a, as', rfl, rfl, rfl⟩ := List.map_eq_cons_iff.1 hitems.symm
      exact ⟨a, as', rfl, ⟨rfl, has a List.mem_cons_self⟩, rfl, fun b hb => has b (List.mem_cons_of_mem _ hb)⟩

theorem Accepts.list (h : Accepts check write property) :
    Accepts (Schema.list check) (fun as => .array (as.map write)) fun as => ∀ a ∈ as, property a := by
  intro path j as
  match j with
  | some (.array items) =>
    rw [Schema.list, h.all_eq_valid_iff, Option.some.injEq, Json.array.injEq]
  | none | some .null | some (.bool _) | some (.number _) | some (.text _) | some (.instant _)
  | some (.object _) =>
    constructor
    · intro hvalid
      cases hvalid
    · rintro ⟨hform, -⟩
      cases hform

theorem Accepts.eq_of_form (h : Accepts check write property) {a b : α} (ha : property a) (hb : property b)
    (heq : write a = write b) : a = b := by
  have hvalid := (h [] (some (write a)) a).2 ⟨rfl, ha⟩
  rw [(h [] (some (write a)) b).2 ⟨by rw [heq], hb⟩] at hvalid
  exact (Checked.valid.inj hvalid).symm

theorem Accepts.withDefault (h : Accepts check write property) {value : α} (hvalue : property value)
    (path : List Text) (j : Option Json) (a : α) : Schema.withDefault value check path j = .valid a ↔
      some (write a) = j.or (some (write value)) ∧ property a := by
  cases j with
  | none =>
    rw [Schema.withDefault, Option.none_or, Option.some.injEq]
    constructor
    · intro hvalid
      cases hvalid
      exact ⟨rfl, hvalue⟩
    · rintro ⟨heq, ha⟩
      rw [h.eq_of_form ha hvalue heq]
  | some j =>
    rw [Option.some_or, eq_comm (a := some (write a))]
    exact h path (some j) a

theorem Accepts.optional (h : Accepts check write property) (path : List Text) (j : Option Json) (o : Option α) :
    Schema.optional check path j = .valid o ↔ o.map write = j ∧ ∀ a ∈ o, property a := by
  cases j with
  | none =>
    rw [Schema.optional, Option.map_eq_none_iff]
    constructor
    · intro hvalid
      cases hvalid
      exact ⟨rfl, nofun⟩
    · rintro ⟨rfl, -⟩
      rfl
  | some j =>
    rw [Schema.optional]
    · constructor
      · intro hvalid
        obtain ⟨a, ha, rfl⟩ := map_eq_valid_iff.1 hvalid
        obtain ⟨hform, hproperty⟩ := (h _ _ _).1 ha
        exact ⟨hform.symm, fun b hb => Option.some.inj hb ▸ hproperty⟩
      · rintro ⟨hform, hproperty⟩
        obtain ⟨a, rfl, rfl⟩ := Option.map_eq_some_iff.1 hform
        rw [(h path _ a).2 ⟨rfl, hproperty a rfl⟩]
        rfl
    · exact nofun

end Accepts

end QueryLint.Schema
