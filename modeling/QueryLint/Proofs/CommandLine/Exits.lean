import QueryLint.CommandLine.Libraries
import QueryLint.Proofs.CommandLine.Programs
import QueryLint.Proofs.Grouping

/-!
Exit codes tell how a run ended. A run that was misused or that failed has printed nothing but a complaint,
wherever the failure came up; a run that checked queries has printed the report of each of them, in the order
of the arguments, and its code tells whether they are valid.
-/

namespace QueryLint.CommandLine
set_option autoImplicit false

/-- The command line is well formed, names no command and does not ask for help. -/
def Commandless (arguments : List Text) : Prop :=
  ∃ a, Arguments.parse arguments = .ok a ∧ a.command = none ∧ a.has .help = false

/-- The command line calls a command in a context. -/
structure Calls (libraries : Libraries) (arguments : List Text) (surroundings : Surroundings) (disk : Disk)
    (command : Text) (c : Context) : Prop where
  parse : Arguments.parse arguments = .ok c.arguments
  command : c.arguments.command = some command
  help : c.arguments.has .help = false
  linked : c.libraries = libraries
  within : c.surroundings = surroundings
  settings : ∃ session, (resolveSettings libraries.readYaml c.arguments surroundings.directory).run ⟨disk, []⟩ =
    (.ok c.settings, session)
  format : outputFormat c.arguments = .ok c.format
  palette : c.palette = surroundings.palette arguments

/-- A failure comes up in a run. -/
def Fails (libraries : Libraries) (arguments : List Text) (surroundings : Surroundings) (disk : Disk)
    (failure : Failure) : Prop :=
  ∃ console session, (attempt libraries arguments surroundings (surroundings.palette arguments)).run
    ⟨[], []⟩ ⟨disk, []⟩ = ((.error failure, console), session)

namespace Context
variable {c : Context}

/-- Reports of the queries that the arguments name, each with its query. -/
structure Checks (c : Context) (disk : Disk) (reports : List (Input × Report)) : Prop where
  inputs : c.Reads disk (reports.map (·.1))
  reports : ∀ r ∈ reports, c.IsReport disk r.1.text r.2

/-- The arguments ask for a category that the catalog of the settings has no file of. -/
def AsksForUnknown (c : Context) (disk : Disk) : Prop :=
  ∃ name rest catalog, c.arguments.operands = ("info" : Text) :: name :: rest ∧ c.Opens disk false catalog ∧
    (Record.get? catalog.index.categories name).bind
      (·.file? ((c.arguments.get? .language).getD Category.defaultLanguage)) = none

def verdict (reports : List (Input × Report)) : Exit :=
  if reports.all fun r => r.2.valid then .success else .findings

/-- How a command ends that does not fail. -/
inductive Concludes (c : Context) (disk : Disk) (command : Text) : Exit → Console → Prop where
  | checked {reports : List (Input × Report)} : command = "validate" → c.Checks disk reports →
      Concludes c disk command (verdict reports) ⟨c.shown reports, []⟩
  | done {k : Console} : command ≠ "validate" → Concludes c disk command .success k
  | unknown {k : Console} : command = "category" → c.AsksForUnknown disk → Concludes c disk command .findings k

theorem ends_validate (s : Session) : c.validate.Ends ⟨[], []⟩ s (c.Concludes s.disk "validate") := by
  apply Program.ends_step
  intro inputs t hinputs
  obtain ⟨rfl, hreads⟩ := of_readInputs hinputs
  apply Program.ends_step
  intro reports u hreports
  obtain ⟨heq, hreports⟩ := of_check hreports
  apply Program.ends_printed (run_showReports reports _ _)
  exact .checked rfl ⟨heq ▸ hreads, hreports⟩

theorem ends_fixture (k : Console) (s : Session) : c.fixture.Ends k s (c.Concludes s.disk "fixture") := by
  apply Program.ends_step
  intro text t _
  exact Program.ends_printed (Program.run_print _ _ _) (.done (by decide))

theorem ends_fields (k : Console) (s : Session) : c.fields.Ends k s (c.Concludes s.disk "fields") := by
  apply Program.ends_step
  intro text t _
  exact Program.ends_printed (Program.run_print _ _ _) (.done (by decide))

theorem of_required {value : Option Text} {usage t : Text} {s u : Session}
    (h : (required value usage).run s = (.ok t, u)) : value = some t ∧ u = s := by
  unfold required at h
  split at h
  · cases h
  · cases h
  · cases h
    exact ⟨rfl, rfl⟩

theorem unknown_of_info {disk : Disk} {catalog catalog' : Catalog} {name language : Text}
    (h : catalog.info disk name language = .ok (none, catalog')) :
    (Record.get? catalog.index.categories name).bind (·.file? language) = none := by
  unfold Catalog.info at h
  split at h
  · assumption
  · obtain ⟨_, -, heq⟩ := Except.exists_of_map_ok h
    cases heq

theorem ends_infoCommand {rest : List Text} (hrest : c.arguments.operands = ("info" : Text) :: rest) (k : Console)
    (s : Session) : (c.infoCommand rest.head?).Ends k s (c.Concludes s.disk "category") := by
  apply Program.ends_step
  intro name t hname
  obtain ⟨hhead, rfl⟩ := of_required hname
  obtain ⟨more, rfl⟩ := List.head?_eq_some_iff.1 hhead
  apply Program.ends_step
  intro catalog u hcatalog
  obtain ⟨hkept, hopened⟩ := of_openCatalog hcatalog
  apply Program.ends_step
  intro found v hfound
  obtain ⟨catalog', hinfo⟩ := of_lookUp hfound
  cases found with
  | none =>
    apply Program.ends_printed (Program.run_complain _ _ _)
    exact .unknown rfl ⟨name, more, catalog, hrest, hopened, unknown_of_info hinfo⟩
  | some category => exact Program.ends_printed (Program.run_print _ _ _) (.done (by decide))

theorem ends_category (k : Console) (s : Session) : c.category.Ends k s (c.Concludes s.disk "category") := by
  have hdone : ∀ k', c.Concludes s.disk "category" .success k' := fun _ => .done (by decide)
  unfold category
  cases hoperands : c.arguments.operands with
  | nil => exact Program.ends_misused _
  | cons command rest =>
    dsimp only
    split_ifs with hsearch hproduct hproducts hinfo hreindex
    · apply Program.ends_step
      intro query t _
      apply Program.ends_step
      intro catalog u _
      apply Program.ends_step
      intro limit v _
      exact Program.ends_printed (Program.run_print _ _ _) (hdone _)
    · apply Program.ends_step
      intro product t _
      apply Program.ends_step
      intro catalog u _
      exact Program.ends_printed (Program.run_print _ _ _) (hdone _)
    · apply Program.ends_step
      intro catalog t _
      exact Program.ends_printed (Program.run_print _ _ _) (hdone _)
    · subst hinfo
      exact ends_infoCommand hoperands k s
    · apply Program.ends_step
      intro catalog t _
      apply Program.ends_step
      intro path u _
      exact Program.ends_printed (Program.run_print _ _ _) (hdone _)
    · exact Program.ends_misused _

theorem ends_run (command : Text) (s : Session) : (c.run command).Ends ⟨[], []⟩ s (c.Concludes s.disk command) := by
  unfold run
  split_ifs with hvalidate hfixture hfields hcategory
  · subst hvalidate
    exact ends_validate s
  · subst hfixture
    exact ends_fixture _ s
  · subst hfields
    exact ends_fields _ s
  · subst hcategory
    exact ends_category _ s
  · exact Program.ends_misused _

end Context

section Runs
variable {libraries : Libraries} {arguments : List Text} {surroundings : Surroundings} {disk : Disk}

/-- How a run ends in which nothing fails. -/
inductive Concludes (libraries : Libraries) (arguments : List Text) (surroundings : Surroundings) (disk : Disk) :
    Exit → Console → Prop where
  | helped {a : Arguments} {k : Console} : Arguments.parse arguments = .ok a →
      (a.has .help || a.command = some "help") = true → Concludes libraries arguments surroundings disk .success k
  | commandless : Commandless arguments →
      Concludes libraries arguments surroundings disk .misuse ⟨[], [usage (surroundings.palette arguments)]⟩
  | called {c : Context} {command : Text} {exit : Exit} {k : Console} :
      Calls libraries arguments surroundings disk command c → c.Concludes disk command exit k →
      Concludes libraries arguments surroundings disk exit k

theorem ends_attempt :
    (attempt libraries arguments surroundings (surroundings.palette arguments)).Ends ⟨[], []⟩ ⟨disk, []⟩
      (Concludes libraries arguments surroundings disk) := by
  apply Program.ends_step
  intro a s hparse
  obtain ⟨hparsed, rfl⟩ := Action.of_misuse hparse
  unfold dispatch
  split_ifs with hhelp
  · exact Program.ends_printed (Program.run_print _ _ _) (.helped hparsed hhelp)
  · have hswitch := (Bool.or_eq_false_iff.1 (Bool.eq_false_of_not_eq_true hhelp)).1
    cases hcommand : a.command with
    | none => exact Program.ends_printed (Program.run_complain _ _ _) (.commandless ⟨a, hparsed, hcommand, hswitch⟩)
    | some command =>
      apply Program.ends_step
      intro settings t hsettings
      have hkept := keeps_resolveSettings libraries.readYaml a surroundings.directory ⟨disk, []⟩
      rw [hsettings] at hkept
      apply Program.ends_step
      intro format u hformat
      obtain ⟨hformatted, rfl⟩ := Action.of_misuse hformat
      apply (Context.ends_run command _).mono
      intro exit k hexit
      rw [hkept] at hexit
      -- The settings left the files alone, so the command has seen the disk that the run was given.
      have hcalls : Calls libraries arguments surroundings disk command
          ⟨libraries, a, surroundings, settings, format, surroundings.palette arguments⟩ :=
        ⟨hparsed, hcommand, hswitch, rfl, rfl, ⟨_, hsettings⟩, hformatted, rfl⟩
      exact .called hcalls hexit

/-- A run either concludes or is stopped by a failure that it foresees; then it has printed nothing before. -/
theorem concludes_or_fails {reply : Reply} {session : Session}
    (h : run libraries arguments surroundings disk = (.ok reply, session)) :
    ((∀ failure, ¬ Fails libraries arguments surroundings disk failure) ∧
        Concludes libraries arguments surroundings disk reply.exit reply.toConsole) ∨
      ∃ failure, failure.isForeseen = true ∧ Fails libraries arguments surroundings disk failure ∧
        reply = ⟨⟨[], [complaint (surroundings.palette arguments) failure]⟩, .misuse⟩ := by
  have hends := @ends_attempt libraries arguments surroundings disk
  unfold Program.Ends at hends
  unfold run answered at h
  dsimp only at h
  rw [Program.run_tryCatch] at h
  rcases hrun : (attempt libraries arguments surroundings (surroundings.palette arguments)).run ⟨[], []⟩ ⟨disk, []⟩ with
    ⟨⟨result, k⟩, s⟩
  rw [hrun] at h hends
  cases result with
  | ok exit =>
    cases h
    refine .inl ⟨?_, hends⟩
    rintro failure ⟨console, session, hfails⟩
    rw [hrun] at hfails
    cases hfails
  | error failure =>
    -- The console is as it was at the start, so the reply shows the complaint alone.
    cases hends
    dsimp only at h
    by_cases hforeseen : failure.isForeseen = true
    · rw [if_pos hforeseen] at h
      cases h
      exact .inr ⟨failure, hforeseen, ⟨_, _, hrun⟩, rfl⟩
    · rw [if_neg hforeseen] at h
      cases h

theorem usage_ne_nil (palette : Palette) : usage palette ≠ [] := by
  unfold usage
  exact List.append_ne_nil_of_left_ne_nil (List.append_ne_nil_of_left_ne_nil (by decide) _) _

theorem complaint_ne_nil (palette : Palette) (failure : Failure) : complaint palette failure ≠ [] := by
  unfold complaint
  exact List.append_ne_nil_of_right_ne_nil _ (by decide)

end Runs

/-- The code of a run that ends, and what the run has printed, are as they should be. -/
structure Truthful (libraries : Libraries) (arguments : List Text) (surroundings : Surroundings) (disk : Disk)
    (reply : Reply) : Prop where
  code : reply.exit.code = 0 ∨ reply.exit.code = 1 ∨ reply.exit.code = 2
  misuse_iff : reply.exit.code = 2 ↔
    Commandless arguments ∨ ∃ failure, failure.isForeseen = true ∧ Fails libraries arguments surroundings disk failure
  misuse : reply.exit.code = 2 → reply.output = [] ∧ reply.complaint.flatten ≠ []
  /-- A query that cannot be read stops the run, whichever it is. -/
  unreadable : ∀ a file fault, Arguments.parse arguments = .ok a → a.command = some "validate" → a.has .help = false →
    file ∈ a.operands → disk.read (Path.resolve surroundings.directory file) = .error fault → reply.exit.code = 2
  checked : ∀ a, Arguments.parse arguments = .ok a → a.command = some "validate" → a.has .help = false →
    reply.exit.code ≠ 2 → ∃ c reports,
      Calls libraries arguments surroundings disk "validate" c ∧ c.Checks disk reports ∧
      reply.output = c.shown reports ∧ (reply.exit.code = 0 ↔ ∀ r ∈ reports, r.2.valid = true) ∧
      (reply.exit.code = 1 ↔ ∃ r ∈ reports, r.2.valid = false)
  findings : reply.exit.code = 1 → ∃ c, Calls libraries arguments surroundings disk "validate" c ∨
    Calls libraries arguments surroundings disk "category" c ∧ c.AsksForUnknown disk

section Truth
variable {libraries : Libraries} {arguments : List Text} {surroundings : Surroundings} {disk : Disk}

theorem code_verdict (reports : List (Input × Report)) :
    ((Context.verdict reports).code = 0 ↔ ∀ r ∈ reports, r.2.valid = true) ∧
      ((Context.verdict reports).code = 1 ↔ ∃ r ∈ reports, r.2.valid = false) := by
  unfold Context.verdict
  by_cases hall : (reports.all fun r => r.2.valid) = true
  · rw [if_pos hall]
    rw [List.all_eq_true] at hall
    refine ⟨⟨fun _ => hall, fun _ => rfl⟩, ⟨fun h => absurd h (by decide), ?_⟩⟩
    rintro ⟨r, hr, hinvalid⟩
    rw [hall r hr] at hinvalid
    cases hinvalid
  · rw [if_neg hall]
    refine ⟨⟨fun h => absurd h (by decide), fun h => absurd (List.all_eq_true.2 h) hall⟩, ⟨fun _ => ?_, fun _ => rfl⟩⟩
    obtain ⟨r, hr, hinvalid⟩ := List.all_eq_false.1 (Bool.eq_false_of_not_eq_true hall)
    exact ⟨r, hr, Bool.eq_false_of_not_eq_true hinvalid⟩

theorem exit_ne_misuse {c : Context} {command : Text} {exit : Exit} {k : Console}
    (h : c.Concludes disk command exit k) : exit ≠ .misuse := by
  cases h with
  | @checked reports _ _ =>
    unfold Context.verdict
    split <;> decide
  | done _ => decide
  | unknown _ _ => decide

theorem exists_read {c : Context} {inputs : List Input} (h : c.Reads disk inputs) {file : Text}
    (hfile : file ∈ c.arguments.operands) : ∃ text, disk.read (c.resolve file) = .ok text := by
  cases h with
  | input hempty => rw [hempty] at hfile; cases hfile
  | files _ hinputs =>
    obtain ⟨input, -, -, hread⟩ := exists_of_forall₂_right hinputs.flip hfile
    exact ⟨_, hread⟩

theorem parse_unique {a b : Arguments} (ha : Arguments.parse arguments = .ok a)
    (hb : Arguments.parse arguments = .ok b) : a = b := Except.ok.inj (ha.symm.trans hb)

theorem code_eq_two_iff (exit : Exit) : exit.code = 2 ↔ exit = .misuse := by
  cases exit <;> decide

namespace Concludes
variable {exit : Exit} {k : Console}

theorem misuse_iff (h : Concludes libraries arguments surroundings disk exit k) :
    exit = .misuse ↔ Commandless arguments := by
  cases h with
  | @helped a _ hparse hhelp =>
    refine iff_of_false (by decide) ?_
    rintro ⟨b, hb, hcommand, hswitch⟩
    cases parse_unique hparse hb
    rw [hcommand, hswitch] at hhelp
    cases hhelp
  | commandless hnone => exact iff_of_true rfl hnone
  | @called c command _ _ hcalls hends =>
    refine iff_of_false (exit_ne_misuse hends) ?_
    rintro ⟨b, hb, hcommand, -⟩
    cases parse_unique hcalls.parse hb
    rw [hcalls.command] at hcommand
    cases hcommand

theorem prints (h : Concludes libraries arguments surroundings disk exit k) (hexit : exit = .misuse) :
    k.output = [] ∧ k.complaint.flatten ≠ [] := by
  cases h with
  | helped _ _ => cases hexit
  | commandless _ =>
    refine ⟨rfl, ?_⟩
    rw [List.flatten_singleton]
    exact usage_ne_nil _
  | called _ hends => exact absurd hexit (exit_ne_misuse hends)

theorem validate (h : Concludes libraries arguments surroundings disk exit k) {a : Arguments}
    (hparse : Arguments.parse arguments = .ok a) (hcommand : a.command = some "validate")
    (hswitch : a.has .help = false) :
    ∃ c reports, Calls libraries arguments surroundings disk "validate" c ∧ c.Checks disk reports ∧
      exit = Context.verdict reports ∧ k = ⟨c.shown reports, []⟩ := by
  cases h with
  | @helped b _ hb hhelp =>
    cases parse_unique hparse hb
    rw [hcommand, hswitch] at hhelp
    exact absurd hhelp (by decide)
  | commandless hnone =>
    obtain ⟨b, hb, hnone, -⟩ := hnone
    cases parse_unique hparse hb
    rw [hcommand] at hnone
    cases hnone
  | @called c command _ _ hcalls hends =>
    cases parse_unique hparse hcalls.parse
    obtain rfl := Option.some.inj (hcommand.symm.trans hcalls.command)
    cases hends with
    | checked _ hchecks => exact ⟨c, _, hcalls, hchecks, rfl, rfl⟩
    | done hne => exact absurd rfl hne
    | unknown heq _ => exact absurd heq (by decide)

theorem findings (h : Concludes libraries arguments surroundings disk exit k) (hexit : exit = .findings) :
    ∃ c, Calls libraries arguments surroundings disk "validate" c ∨
      Calls libraries arguments surroundings disk "category" c ∧ c.AsksForUnknown disk := by
  cases h with
  | helped _ _ => cases hexit
  | commandless _ => cases hexit
  | @called c command _ _ hcalls hends =>
    cases hends with
    | checked heq _ => exact ⟨c, .inl (heq ▸ hcalls)⟩
    | done _ => cases hexit
    | unknown heq hunknown => exact ⟨c, .inr ⟨heq ▸ hcalls, hunknown⟩⟩

end Concludes

theorem truthful_of_concludes {reply : Reply}
    (hfails : ∀ failure, ¬ Fails libraries arguments surroundings disk failure)
    (h : Concludes libraries arguments surroundings disk reply.exit reply.toConsole) :
    Truthful libraries arguments surroundings disk reply where
  code := by cases reply.exit <;> decide
  misuse_iff := by
    rw [code_eq_two_iff, h.misuse_iff]
    refine ⟨.inl, ?_⟩
    rintro (hnone | ⟨failure, -, hfailure⟩)
    · exact hnone
    · exact absurd hfailure (hfails failure)
  misuse := fun hcode => h.prints ((code_eq_two_iff _).1 hcode)
  unreadable := by
    intro a file fault hparse hcommand hswitch hfile hfault
    obtain ⟨c, reports, hcalls, hchecks, -, -⟩ := h.validate hparse hcommand hswitch
    cases parse_unique hparse hcalls.parse
    obtain ⟨text, htext⟩ := exists_read hchecks.inputs hfile
    rw [Context.resolve, hcalls.within, hfault] at htext
    cases htext
  checked := by
    intro a hparse hcommand hswitch _
    obtain ⟨c, reports, hcalls, hchecks, hexit, hconsole⟩ := h.validate hparse hcommand hswitch
    rw [hexit, hconsole]
    exact ⟨c, reports, hcalls, hchecks, rfl, code_verdict reports⟩
  findings := by
    intro hcode
    apply h.findings
    revert hcode
    cases reply.exit <;> decide

def queryDisk : Disk where
  files := [("/w/good.mxql", "CATEGORY db\nTAGLOAD"),
    ("/w/bad.mxql", "CATEGORY db\nORDER \x7b'key': [a]\x7d\nLIMIT 10")]
  directories := []

def workplace : Surroundings where
  directory := "/w"
  environment := []
  isTerminal := false
  input := []
  elapsed := ⟨.ofNat 0, .ofNat 0, .ofNat 0⟩

/-- Each query under its title, and the complaint about the second. -/
def queryReply : Reply where
  output := ["good.mxql:\n",
    asLines ["Query is valid (0 critical, 0 warnings, 1 info)", "", "Suggestions:",
      "  Line 2 [unbounded-result]: Query returns every row: no bound and no aggregation",
      "    -> Add a bounding command (LIMIT / BOUND) or aggregate the result"],
    "\nbad.mxql:\n",
    asLines ["Query has critical issues (1 critical, 0 warnings, 0 info)", "", "Critical Issues:",
      "  Line 1 [missing-loader]: Query has no data-loading command",
      "    -> Load data with one of: TAGLOAD, FLEX-LOAD, APPEND, ADDROW"]]
  complaint := []
  exit := .findings

end Truth
end QueryLint.CommandLine
