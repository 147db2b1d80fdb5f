import QueryLint.Analysis
import QueryLint.Proofs.Category.Reopening
import QueryLint.Proofs.Inquiries

/-!
Lookups that remember. A lookup may change its state with every question, as a catalog does when it reads a
file. As long as its answers do not depend on what it was asked before, no report does either.
-/

namespace QueryLint
set_option autoImplicit false

variable {σ α β : Type}

/-- In all states of a kind that questions do not leave, a lookup gives the same answers. -/
structure Lookup.Steady (lookup : Lookup σ) (kind : σ → Prop) : Prop where
  answer : ∀ {s t : σ} (name : Text), kind s → kind t → (lookup name s).1 = (lookup name t).1
  stays : ∀ {s : σ} (name : Text), kind s → kind (lookup name s).2

namespace Rules.Fields

structure Inquiry.Level (kind : σ → Prop) (i j : Inquiry σ) : Prop where
  left : kind i.source
  right : kind j.source
  known : i.known = j.known
  log : i.log = j.log

/-- The result does not show in which state of a kind the lookup was. -/
def Blind (kind : σ → Prop) (m : StateM (Inquiry σ) α) : Prop :=
  ∀ i j, i.Level kind j → (m i).1 = (m j).1 ∧ (m i).2.Level kind (m j).2

section Blind
variable {kind : σ → Prop}

theorem blind_pure (a : α) : Blind kind (pure a : StateM (Inquiry σ) α) := fun _ _ h => ⟨rfl, h⟩

theorem Blind.bind {m : StateM (Inquiry σ) α} {f : α → StateM (Inquiry σ) β} (hm : Blind kind m)
    (hf : ∀ a, Blind kind (f a)) : Blind kind (m >>= f) := by
  intro i j h
  obtain ⟨hresult, hlevel⟩ := hm i j h
  change (f (m i).1 (m i).2).1 = (f (m j).1 (m j).2).1 ∧ (f (m i).1 (m i).2).2.Level kind (f (m j).1 (m j).2).2
  rw [hresult]
  exact hf _ _ _ hlevel

variable {lookup : Lookup σ} (hsteady : lookup.Steady kind) (implicit : List Text)
include hsteady

theorem blind_ask (category : Text) : Blind kind (ask lookup category) := by
  intro i j h
  unfold ask
  rw [h.known]
  cases Record.get? j.known category with
  | some finding => exact ⟨rfl, h⟩
  | none =>
    have hanswer := hsteady.answer category h.left h.right
    refine ⟨hanswer, hsteady.stays category h.left, hsteady.stays category h.right, ?_, ?_⟩
    · simp only [hanswer]
    · simp only [hanswer, h.log]

theorem blind_source (source : Command) (following : List Command) :
    Blind kind (sourceIssues lookup implicit source following) := by
  unfold sourceIssues
  cases source.declaredName? with
  | none => exact blind_pure _
  | some category =>
    dsimp only
    split
    · exact blind_pure _
    · apply (blind_ask hsteady category).bind
      intro finding
      cases finding <;> exact blind_pure _

theorem blind_scope (cs : List Command) : Blind kind (scopeIssues lookup implicit cs) := by
  induction cs with
  | nil => exact blind_pure _
  | cons c cs ih =>
    rw [scopeIssues]
    split
    · apply (blind_source hsteady implicit c _).bind
      intro found
      apply ih.bind
      intro more
      exact blind_pure _
    · exact ih

theorem blind_scopes (scopes : List Scope) : Blind kind (scopesIssues lookup implicit scopes) := by
  induction scopes with
  | nil => exact blind_pure _
  | cons scope scopes ih =>
    rw [scopesIssues]
    apply (blind_scope hsteady implicit scope.commands).bind
    intro found
    apply ih.bind
    intro more
    exact blind_pure _

theorem check_steady (d : Document) {s t : σ} (hs : kind s) (ht : kind t) :
    (check d lookup s).1 = (check d lookup t).1 ∧ kind (check d lookup s).2.1 := by
  obtain ⟨hissues, hlevel⟩ :=
    blind_scopes hsteady d.dialect.implicitFields d.scopes ⟨s, [], []⟩ ⟨t, [], []⟩ ⟨hs, ht, rfl, rfl⟩
  exact ⟨hissues, hlevel.left⟩

end Blind
end Rules.Fields

/-- A report does not show what a steady lookup was asked before. -/
theorem Analysis.run_steady {kind : σ → Prop} {lookup : Lookup σ} (hsteady : lookup.Steady kind) (dialect : Dialect)
    (options : Options) (elapsed : Elapsed) {s t : σ} (hs : kind s) (ht : kind t) (text : Text) :
    (run dialect options elapsed (some lookup) s text).report =
        (run dialect options elapsed (some lookup) t text).report ∧
      kind (run dialect options elapsed (some lookup) s text).lookup := by
  obtain ⟨hissues, hkind⟩ := Rules.Fields.check_steady hsteady (Document.parse dialect text) hs ht
  refine ⟨?_, hkind⟩
  simp only [run, findings, fieldFindings, hissues]

namespace Catalog

/-- A catalog that can differ from another one in what it remembers of the files only. -/
def SameFiles (disk : Disk) (c d : Catalog) : Prop :=
  d.Faithful disk ∧ d.directory = c.directory ∧ d.index = c.index

/-- The answers of a catalog are steady as long as its memory agrees with the files. -/
theorem steady_lookup (disk : Disk) (c : Catalog) : (Catalog.lookup disk).Steady (SameFiles disk c) where
  answer := by
    rintro s t name ⟨hs, hdirectory, hindex⟩ ⟨ht, hdirectory', hindex'⟩
    rw [lookup_eq, lookup_eq, hs.attributes, ht.attributes, hdirectory, hindex, hdirectory', hindex']
  stays := by
    rintro s name ⟨hs, hdirectory, hindex⟩
    obtain ⟨hfaithful, hdirectory', hindex'⟩ := hs.of_lookup rfl
    exact ⟨hfaithful, hdirectory'.trans hdirectory, hindex'.trans hindex⟩

/-- A catalog that has just been opened remembers only what its files hold. -/
theorem faithful_ofDirectory {disk : Disk} {directory : Text} {rebuild : Bool} {c : Catalog} {log : List Log.Entry}
    (h : ofDirectory disk directory rebuild = .ok (c, log)) : c.Faithful disk := by
  unfold ofDirectory at h
  split at h
  · unfold build at h
    split at h
    · cases h
      intro file category hknown
      cases hknown
    · split at h
      · cases h
      · cases h
        intro file category hknown
        obtain ⟨_, -, heq⟩ := List.mem_map.1 (mem_readable.1 (Record.mem_of_get? hknown))
        obtain ⟨rfl, hread⟩ := Prod.mk.inj heq
        exact hread
  · obtain ⟨opened, hopened, heq⟩ := Except.exists_of_map_ok h
    cases heq
    unfold ofIndexFile at hopened
    dsimp only at hopened
    split at hopened
    · cases hopened
    · cases hopened
      intro file category hknown
      cases hknown

end Catalog
end QueryLint
