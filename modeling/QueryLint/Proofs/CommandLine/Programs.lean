import QueryLint.CommandLine.Run
import QueryLint.Proofs.Lookups
import QueryLint.Proofs.Outcomes

/-!
What steps and programs do. A step that succeeds has found what it was looking for, and most steps leave the
files as they are. A program is followed step by step: when it fails before it has printed anything, nothing
is left to show for it but its failure.
-/

namespace QueryLint.CommandLine
set_option autoImplicit false

variable {α β : Type}

namespace Action

theorem run_bind (step : Action α) (f : α → Action β) (s : Session) :
    (step >>= f).run s = match step.run s with
      | (.ok a, s) => (f a).run s
      | (.error failure, s) => (.error failure, s) := by
  change (ExceptT.bindCont f (step.run s).1).run (step.run s).2 = _
  rcases step.run s with ⟨_ | _, _⟩ <;> rfl

theorem run_ofExcept (result : Except Failure α) (s : Session) : (ofExcept result).run s = (result, s) := by
  cases result <;> rfl

theorem of_ofExcept {result : Except Failure α} {a : α} {s t : Session} (h : (ofExcept result).run s = (.ok a, t)) :
    result = .ok a ∧ t = s := by
  rw [run_ofExcept] at h
  cases h
  exact ⟨rfl, rfl⟩

theorem of_misuse {result : Except Misuse α} {a : α} {s t : Session}
    (h : (ofExcept (result.mapError .misuse)).run s = (.ok a, t)) : result = .ok a ∧ t = s := by
  obtain ⟨hresult, rfl⟩ := of_ofExcept h
  exact ⟨Except.mapError_eq_ok_iff.1 hresult, rfl⟩

theorem exists_of_bind {step : Action α} {f : α → Action β} {s t : Session} {b : β}
    (h : (step >>= f).run s = (.ok b, t)) : ∃ a u, step.run s = (.ok a, u) ∧ (f a).run u = (.ok b, t) := by
  rw [run_bind] at h
  rcases hstep : step.run s with ⟨result, u⟩
  rw [hstep] at h
  cases result with
  | error failure => cases h
  | ok a => exact ⟨a, u, rfl, h⟩

theorem of_disk {f : Disk → Action β} {s : Session} {r : Except Failure β × Session} (h : (disk >>= f).run s = r) :
    (f s.disk).run s = r := h

def Keeps (step : Action α) : Prop := ∀ s, (step.run s).2.disk = s.disk

theorem keeps_pure (a : α) : Keeps (pure a : Action α) := fun _ => rfl

theorem keeps_fail (failure : Failure) : Keeps (fail failure : Action α) := fun _ => rfl

theorem keeps_ofExcept (result : Except Failure α) : Keeps (ofExcept result) := by
  intro s
  rw [run_ofExcept]

theorem Keeps.bind {step : Action α} {f : α → Action β} (hstep : step.Keeps) (hf : ∀ a, (f a).Keeps) :
    (step >>= f).Keeps := by
  intro s
  rw [run_bind, ← hstep s]
  rcases step.run s with ⟨_ | a, u⟩
  · rfl
  · exact hf a u

end Action

section Settings
variable (readYaml : Text → Option Json)

theorem keeps_loadSettings (file : Text) : (loadSettings readYaml file).Keeps := by
  apply Action.Keeps.bind (fun _ => rfl)
  intro disk
  cases disk.read file with
  | error fault => exact Action.keeps_fail _
  | ok text =>
    dsimp only
    cases readYaml text with
    | none => exact Action.keeps_fail _
    | some raw =>
      apply Action.Keeps.bind (fun _ => rfl)
      intro _
      exact Action.keeps_ofExcept _

theorem keeps_resolveSettings (arguments : Arguments) (directory : Text) :
    (resolveSettings readYaml arguments directory).Keeps := by
  have hbase : (baseSettings readYaml arguments directory).Keeps := by
    unfold baseSettings
    cases arguments.get? .config with
    | some file => exact keeps_loadSettings readYaml _
    | none =>
      apply Action.Keeps.bind (fun _ => rfl)
      intro disk
      cases (settingsFiles.map (Path.join directory)).find? disk.exists? with
      | some file => exact keeps_loadSettings readYaml file
      | none => exact Action.keeps_pure _
  apply hbase.bind
  intro base
  apply (Action.keeps_ofExcept _).bind
  intro layer
  exact Action.keeps_ofExcept _

end Settings

namespace Context
variable {c : Context} {s t : Session}

/-- The queries that a command is about: those of the named files in order, without any the one on the standard
input. -/
inductive Reads (c : Context) (disk : Disk) : List Input → Prop where
  | input : c.arguments.operands = [] → Reads c disk [⟨"<stdin>", c.surroundings.input⟩]
  | files {inputs : List Input} : c.arguments.operands ≠ [] →
      List.Forall₂ (fun file input => input.source = file ∧ disk.read (c.resolve file) = .ok input.text)
        c.arguments.operands inputs → Reads c disk inputs

theorem of_readFile {file : Text} {input : Input} (h : (c.readFile file).run s = (.ok input, t)) :
    t = s ∧ input.source = file ∧ s.disk.read (c.resolve file) = .ok input.text := by
  have hread := Action.of_disk h
  split at hread
  · rename_i text htext
    cases hread
    exact ⟨rfl, rfl, htext⟩
  · cases hread

theorem of_readFiles {files : List Text} {inputs : List Input}
    (h : (files.mapM c.readFile).run s = (.ok inputs, t)) :
    t = s ∧ List.Forall₂ (fun file input => input.source = file ∧ s.disk.read (c.resolve file) = .ok input.text)
      files inputs := by
  induction files generalizing inputs t with
  | nil =>
    cases h
    exact ⟨rfl, .nil⟩
  | cons file files ih =>
    rw [List.mapM_cons] at h
    obtain ⟨input, u, hfile, hrest⟩ := Action.exists_of_bind h
    obtain ⟨more, v, hmore, heq⟩ := Action.exists_of_bind hrest
    obtain ⟨rfl, hinput⟩ := of_readFile hfile
    obtain ⟨rfl, hinputs⟩ := ih hmore
    cases heq
    exact ⟨rfl, .cons hinput hinputs⟩

theorem of_readInputs {inputs : List Input} (h : c.readInputs.run s = (.ok inputs, t)) :
    t = s ∧ c.Reads s.disk inputs := by
  unfold readInputs at h
  split at h
  · rename_i hempty
    cases h
    exact ⟨rfl, .input (List.isEmpty_iff.1 hempty)⟩
  · rename_i hempty
    obtain ⟨rfl, hinputs⟩ := of_readFiles h
    exact ⟨rfl, .files (fun heq => hempty (List.isEmpty_iff.2 heq)) hinputs⟩

def Opens (c : Context) (disk : Disk) (rebuild : Bool) (catalog : Catalog) : Prop :=
  ∃ directory log, c.settings.categories = some directory ∧
    Catalog.ofDirectory disk (c.resolve directory) rebuild = .ok (catalog, log)

theorem of_openCatalog {rebuild : Bool} {catalog : Catalog}
    (h : (c.openCatalog rebuild).run s = (.ok catalog, t)) : t.disk = s.disk ∧ c.Opens s.disk rebuild catalog := by
  unfold openCatalog at h
  split at h
  · cases h
  · rename_i directory hdirectory
    obtain ⟨⟨opened, log⟩, u, hopen, hlog⟩ := Action.exists_of_bind (Action.of_disk h)
    obtain ⟨hopened, rfl⟩ := Action.of_ofExcept hopen
    cases hlog
    exact ⟨rfl, directory, log, hdirectory, hopened⟩

theorem of_lookUp {catalog : Catalog} {name language : Text} {found : Option Category}
    (h : (lookUp catalog name language).run s = (.ok found, t)) :
    ∃ catalog', catalog.info s.disk name language = .ok (found, catalog') := by
  obtain ⟨⟨answer, catalog'⟩, u, hanswer, hfound⟩ := Action.exists_of_bind (Action.of_disk h)
  obtain ⟨hinfo, rfl⟩ := Action.of_ofExcept hanswer
  cases hfound
  exact ⟨catalog', hinfo⟩

def reportWith {σ : Type} (c : Context) (lookup : Option (Lookup σ)) (state : σ) (text : Text) : Report :=
  (Analysis.run c.settings.dialect.dialect c.options c.surroundings.elapsed lookup state text).report

/-- The report of a query that is checked alone. -/
inductive IsReport (c : Context) (disk : Disk) (text : Text) : Report → Prop where
  | plain : c.settings.categories = none → IsReport c disk text (c.reportWith (none : Option (Lookup Unit)) () text)
  | fields {catalog : Catalog} : c.Opens disk false catalog →
      IsReport c disk text (c.reportWith (some (Catalog.lookup disk)) catalog text)

theorem analyse_plain (inputs : List Input) :
    (c.analyse (none : Option (Lookup Unit)) () inputs).1 =
      inputs.map fun input => (input, c.reportWith (none : Option (Lookup Unit)) () input.text) := by
  induction inputs with
  | nil => rfl
  | cons input inputs ih =>
    rw [analyse, List.map_cons, ← ih]
    rfl

theorem analyse_steady {σ : Type} {kind : σ → Prop} {lookup : Lookup σ} (hsteady : lookup.Steady kind)
    {first state : σ} (hfirst : kind first) (hstate : kind state) (inputs : List Input) :
    (c.analyse (some lookup) state inputs).1 =
      inputs.map fun input => (input, c.reportWith (some lookup) first input.text) := by
  induction inputs generalizing state with
  | nil => rfl
  | cons input inputs ih =>
    obtain ⟨hreport, hnext⟩ := Analysis.run_steady hsteady c.settings.dialect.dialect c.options
      c.surroundings.elapsed hstate hfirst input.text
    rw [List.map_cons, reportWith, ← hreport, ← ih hnext]
    rfl

theorem of_check {inputs : List Input} {reports : List (Input × Report)}
    (h : (c.check inputs).run s = (.ok reports, t)) :
    reports.map (·.1) = inputs ∧ ∀ r ∈ reports, c.IsReport s.disk r.1.text r.2 := by
  have hmap : ∀ {report : Text → Report}, reports = inputs.map (fun input => (input, report input.text)) →
      (∀ text, c.IsReport s.disk text (report text)) →
      reports.map (·.1) = inputs ∧ ∀ r ∈ reports, c.IsReport s.disk r.1.text r.2 := by
    rintro report rfl hreport
    refine ⟨by rw [List.map_map]; exact List.map_id _, ?_⟩
    intro r hr
    obtain ⟨input, -, rfl⟩ := List.mem_map.1 hr
    exact hreport input.text
  unfold check at h
  dsimp only at h
  split at h
  · rename_i hnone
    obtain ⟨found, u, hfound, hrest⟩ := Action.exists_of_bind h
    cases hfound
    obtain ⟨_, v, hlog, hreports⟩ := Action.exists_of_bind hrest
    cases hreports
    apply hmap (analyse_plain inputs)
    intro text
    exact .plain (Option.isNone_iff_eq_none.1 hnone)
  · obtain ⟨catalog, u, hcatalog, hrest⟩ := Action.exists_of_bind h
    obtain ⟨hkept, hopened⟩ := of_openCatalog hcatalog
    obtain ⟨found, v, hfound, hrest⟩ := Action.exists_of_bind (Action.of_disk hrest)
    cases hfound
    obtain ⟨_, w, hlog, hreports⟩ := Action.exists_of_bind hrest
    cases hreports
    obtain ⟨directory, log, -, hdirectory⟩ := id hopened
    have hsame : Catalog.SameFiles s.disk catalog catalog := ⟨Catalog.faithful_ofDirectory hdirectory, rfl, rfl⟩
    -- The lookup asks the disk behind the opening of the catalog, which is the one in front of it.
    rw [hkept] at hmap ⊢
    apply hmap (analyse_steady (Catalog.steady_lookup s.disk catalog) hsame hsame inputs)
    intro text
    exact .fields hopened

end Context

namespace Program

theorem run_bind (p : Program α) (f : α → Program β) (k : Console) (s : Session) :
    (p >>= f).run k s = match p.run k s with
      | ((.ok a, k), s) => (f a).run k s
      | ((.error failure, k), s) => ((.error failure, k), s) := by
  change (ExceptT.bindCont f (p.run k s).1.1).run (p.run k s).1.2 (p.run k s).2 = _
  rcases p.run k s with ⟨⟨_ | _, _⟩, _⟩ <;> rfl

theorem run_print (piece : Text) (k : Console) (s : Session) :
    (print piece).run k s = ((.ok (), { k with output := k.output ++ [piece] }), s) := rfl

theorem run_complain (piece : Text) (k : Console) (s : Session) :
    (complain piece).run k s = ((.ok (), { k with complaint := k.complaint ++ [piece] }), s) := rfl

theorem run_tryCatch (p : Program α) (handler : Failure → Program α) (k : Console) (s : Session) :
    (tryCatch p handler).run k s = match p.run k s with
      | ((.ok a, k), s) => ((.ok a, k), s)
      | ((.error failure, k), s) => (handler failure).run k s := by
  simp only [tryCatch, tryCatchThe, MonadExceptOf.tryCatch, ExceptT.tryCatch, ExceptT.run_mk, bind, StateT.bind]
  unfold ExceptT.run
  rcases p k s with ⟨⟨_ | _, _⟩, _⟩ <;> rfl

/-- The program ends as described, or else it fails and has printed nothing. -/
def Ends (p : Program α) (k : Console) (s : Session) (post : α → Console → Prop) : Prop :=
  match p.run k s with
  | ((.ok a, k'), _) => post a k'
  | ((.error _, k'), _) => k' = k

section Ends
variable {k : Console} {s : Session} {post post' : α → Console → Prop}

theorem Ends.mono {p : Program α} (h : p.Ends k s post) (hpost : ∀ a k', post a k' → post' a k') :
    p.Ends k s post' := by
  unfold Ends at h ⊢
  split at h
  · exact hpost _ _ h
  · exact h

/-- A step in front prints nothing, whether it succeeds or fails. -/
theorem ends_step {step : Action β} {f : β → Program α}
    (h : ∀ b t, step.run s = (.ok b, t) → (f b).Ends k t post) : ((liftM step : Program β) >>= f).Ends k s post := by
  have hstep : (liftM step : Program β).run k s = (((step.run s).1, k), (step.run s).2) := rfl
  unfold Ends
  rw [run_bind, hstep]
  rcases hrun : step.run s with ⟨_ | b, t⟩
  · rfl
  · exact h b t hrun

/-- What is printed in front stays, so nothing behind it may fail. -/
theorem ends_printed {p : Program Unit} {a : α} {k' : Console} {t : Session} (hp : p.run k s = ((.ok (), k'), t))
    (h : post a k') : (p >>= fun _ => pure a).Ends k s post := by
  unfold Ends
  rw [run_bind, hp]
  exact h

theorem ends_misused (cause : Misuse) {post : Exit → Console → Prop} : (misused cause).Ends k s post := rfl

end Ends
end Program

namespace Context
variable {c : Context}

def piecesOf (c : Context) (several : Bool) (r : (Input × Report) × Nat) : List Text :=
  (if several then [c.sourceTitle r.1 r.2] else []) ++ [r.1.2.toText c.palette.decorate]

/-- The pieces that show reports: as data a single one, as text those of each report in order. -/
def shown (c : Context) (reports : List (Input × Report)) : List Text :=
  match c.format.write? c.libraries.writeYaml (reportsJson reports) with
  | some text => [text]
  | none => reports.zipIdx.flatMap (c.piecesOf (1 < reports.length))

theorem run_showReport (several : Bool) (r : Input × Report) (i : Nat) (k : Console) (s : Session) :
    (c.showReport several r i).run k s = ((.ok (), { k with output := k.output ++ c.piecesOf several (r, i) }), s) := by
  cases several with
  | false => rfl
  | true =>
    have hprint : (c.showReport true r i).run k s =
        ((.ok (), { k with output := k.output ++ [c.sourceTitle r i] ++ [r.2.toText c.palette.decorate] }), s) := rfl
    rw [hprint, List.append_assoc]
    rfl

theorem run_showEach (several : Bool) (reports : List ((Input × Report) × Nat)) (k : Console) (s : Session) :
    (forM reports fun (r, i) => c.showReport several r i).run k s =
      ((.ok (), { k with output := k.output ++ reports.flatMap (c.piecesOf several) }), s) := by
  induction reports generalizing k with
  | nil =>
    rw [List.forM_nil, List.flatMap_nil, List.append_nil]
    rfl
  | cons r reports ih =>
    rw [List.forM_cons, Program.run_bind, run_showReport]
    dsimp only
    rw [ih, List.flatMap_cons, List.append_assoc]

theorem run_showReports (reports : List (Input × Report)) (k : Console) (s : Session) :
    (c.showReports reports).run k s = ((.ok (), { k with output := k.output ++ c.shown reports }), s) := by
  unfold showReports shown
  cases c.format.write? c.libraries.writeYaml (reportsJson reports) with
  | some text => rfl
  | none =>
    exact run_showEach _ _ _ _

end Context
end QueryLint.CommandLine
