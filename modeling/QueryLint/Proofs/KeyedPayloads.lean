import QueryLint.Duration
import QueryLint.Proofs.RelatedDocuments

/-!
Payloads key by key.

What a command is asked for depends on the entries of its payload under each key and on their order there.
How entries under different keys stand to each other makes no difference.
-/

namespace QueryLint
set_option autoImplicit false

theorem filter_flatMap_ite {α β : Type} (p : α → Prop) [DecidablePred p] (f : α → List β) (xs : List α) :
    (xs.flatMap fun x => if p x then f x else []) = (xs.filter p).flatMap f := by
  induction xs with
  | nil => rfl
  | cons x xs ih => by_cases hx : p x <;> simp [hx, ih]

namespace Value

/-- Payloads that are the same, or objects that have the same entries under every key. -/
inductive SameByKey : Value → Value → Prop where
  | same (v : Value) : SameByKey v v
  | object {entries entries' : List (Key × Value)} :
      (∀ key : Text, (entries'.filter fun entry => entry.1.text = key) =
        entries.filter fun entry => entry.1.text = key) →
      SameByKey (.object entries) (.object entries')

namespace SameByKey
variable {v v' : Value} (h : v.SameByKey v')
include h

theorem symm : v'.SameByKey v := by
  cases h with
  | same => exact .same v
  | object hentries => exact .object fun key => (hentries key).symm

theorem get?_eq (key : Text) : v'.get? key = v.get? key := by
  cases h with
  | same => rfl
  | object hentries => simp only [get?, ← List.head?_filter, hentries key]

theorem first?_eq (keys : List Text) : v'.first? keys = v.first? keys := by
  simp only [first?, h.get?_eq]

theorem isObject_eq : v'.isObject = v.isObject := by
  cases h <;> rfl

theorem shape_eq : v'.shape = v.shape := by
  cases h <;> rfl

theorem texts_eq : v'.texts = v.texts := by
  cases h <;> rfl

theorem duration_eq : Duration.ofValue? v' = Duration.ofValue? v := by
  cases h <;> rfl

theorem textsUnder_eq (keys : List Text) : Command.textsUnder keys v' = Command.textsUnder keys v := by
  cases h with
  | same => rfl
  | object hentries => simp only [Command.textsUnder, filter_flatMap_ite, hentries]

theorem isEmpty_of_isEmpty (hempty : v.isEmpty = true) : v'.isEmpty = true := by
  cases h with
  | same => exact hempty
  | @object entries entries' hentries =>
    obtain rfl := List.isEmpty_iff.1 hempty
    cases entries' with
    | nil => rfl
    | cons entry entries' => simpa using hentries entry.1.text

theorem isEmpty_eq : v'.isEmpty = v.isEmpty :=
  Bool.eq_iff_iff.2 ⟨h.symm.isEmpty_of_isEmpty, h.isEmpty_of_isEmpty⟩

end SameByKey
end Value

namespace Command

structure SameByKey (c c' : Command) : Prop where
  index : c'.index = c.index
  name : c'.name = c.name
  keyword : c'.keyword = c.keyword
  spec : c'.spec = c.spec
  line : c'.line = c.line
  scope : c'.scope = c.scope
  payload : Option.Rel Value.SameByKey c.payload c'.payload
  payloadText : c'.payloadText.isSome = c.payloadText.isSome

namespace SameByKey
variable {c c' : Command} (h : c.SameByKey c')
include h

theorem role?_eq : c'.role? = c.role? := by rw [role?, h.spec, role?]

theorem hasRole_eq (role : Role) : c'.hasRole role = c.hasRole role := by rw [hasRole, h.role?_eq, hasRole]

theorem payload_isNone_eq : c'.payload.isNone = c.payload.isNone := by
  rcases cases_of_rel h.payload with ⟨hnone, hnone'⟩ | ⟨v, v', hsome, hsome', -⟩
  · rw [hnone, hnone']
  · rw [hsome, hsome']
    rfl

theorem under_eq (key : Text) : c'.payload.bind (Value.get? key) = c.payload.bind (Value.get? key) :=
  bind_eq_of_rel h.payload fun hv => hv.get?_eq key

theorem property?_eq (keys : Spec → List Text) : c'.property? keys = c.property? keys := by
  unfold property?
  rw [h.spec]
  rcases cases_of_rel h.payload with ⟨hnone, hnone'⟩ | ⟨v, v', hsome, hsome', hv⟩
  · rw [hnone, hnone']
  · rw [hsome, hsome']
    cases c.spec with
    | none => rfl
    | some spec => simp only [hv.first?_eq]

theorem operand?_eq (keys : Spec → List Text) : c'.operand? keys = c.operand? keys := by
  unfold operand?
  rw [h.property?_eq]
  rcases cases_of_rel h.payload with ⟨hnone, hnone'⟩ | ⟨v, v', hsome, hsome', hv⟩
  · rw [hnone, hnone']
  · rw [hsome, hsome']
    cases hv <;> rfl

theorem declaredNameValue?_eq : c'.declaredNameValue? = c.declaredNameValue? := h.operand?_eq _

theorem declaredName?_eq : c'.declaredName? = c.declaredName? := by
  rw [declaredName?, h.declaredNameValue?_eq, declaredName?]

theorem referencedName?_eq : c'.referencedName? = c.referencedName? := by
  rw [referencedName?, h.operand?_eq, referencedName?]

theorem aggregateFunction?_eq : c'.aggregateFunction? = c.aggregateFunction? := by
  rw [aggregateFunction?, h.property?_eq, aggregateFunction?]

theorem timeBucket?_eq : c'.timeBucket? = c.timeBucket? := h.property?_eq _

theorem comparison?_eq : c'.comparison? = c.comparison? := h.property?_eq _

theorem referencedFields_eq : c'.referencedFields = c.referencedFields := by
  unfold referencedFields
  rw [h.spec]
  rcases cases_of_rel h.payload with ⟨hnone, hnone'⟩ | ⟨v, v', hsome, hsome', hv⟩
  · rw [hnone, hnone']
  · rw [hsome, hsome']
    cases c.spec with
    | none => rfl
    | some spec => simp only [hv.texts_eq, hv.isObject_eq, hv.textsUnder_eq]

theorem definedFields_eq : c'.definedFields = c.definedFields := by
  unfold definedFields
  rw [h.spec]
  rcases cases_of_rel h.payload with ⟨hnone, hnone'⟩ | ⟨v, v', hsome, hsome', hv⟩
  · rw [hnone, hnone']
  · rw [hsome, hsome']
    cases c.spec with
    | none => rfl
    | some spec => simp only [hv.textsUnder_eq]

theorem issue_eq (rule : Rule) (message : Text) (suggestion : Option Text) :
    Issue.ofCommand c' rule message suggestion = Issue.ofCommand c rule message suggestion := by
  simp only [Issue.ofCommand, h.index, h.line, h.scope]

end SameByKey
end Command
end QueryLint
