import QueryLint.Proofs.CommandLine.Programs
import QueryLint.Proofs.Layers
import QueryLint.Yaml.Document

/-!
Where the settings of a run come from: options come before the settings file, and the file comes before the
defaults. How a settings file is read is left open.
-/

namespace QueryLint.CommandLine
set_option autoImplicit false

open Settings (names)

namespace Action
variable {α β : Type}

theorem run_disk_bind (f : Disk → Action β) (s : Session) : (disk >>= f).run s = (f s.disk).run s := rfl

theorem run_log_bind (entries : List Log.Entry) (f : Unit → Action β) (s : Session) :
    (log entries >>= f).run s = (f ()).run { s with log := s.log ++ entries } := rfl

theorem run_bind_eq_ok_iff {step : Action α} {f : α → Action β} {s : Session} {b : β} :
    ((step >>= f).run s).1 = .ok b ↔ ∃ a u, step.run s = (.ok a, u) ∧ ((f a).run u).1 = .ok b := by
  rw [run_bind]
  rcases hstep : step.run s with ⟨failure | a, u⟩
  · constructor
    · exact nofun
    · rintro ⟨_, _, heq, -⟩
      cases heq
  · constructor
    · exact fun h => ⟨a, u, rfl, h⟩
    · rintro ⟨_, _, heq, h⟩
      cases heq
      exact h

theorem run_ofExcept_bind_eq_ok_iff {result : Except Failure α} {f : α → Action β} {s : Session} {b : β} :
    ((ofExcept result >>= f).run s).1 = .ok b ↔ ∃ a, result = .ok a ∧ ((f a).run s).1 = .ok b := by
  rw [run_bind_eq_ok_iff]
  constructor
  · rintro ⟨a, u, hstep, h⟩
    obtain ⟨ha, rfl⟩ := of_ofExcept hstep
    exact ⟨a, ha, h⟩
  · rintro ⟨a, rfl, h⟩
    exact ⟨a, s, run_ofExcept _ s, h⟩

end Action

/-- The file can be read and is data. -/
def Holds (readYaml : Text → Option Json) (disk : Disk) (file : Text) (raw : Json) : Prop :=
  ∃ text, disk.read file = .ok text ∧ readYaml text = some raw

/-- What the settings file of a run holds. An option names the file, or it is the first there is of a few; where there
is none, nothing is held. -/
inductive Configures (readYaml : Text → Option Json) (arguments : Arguments) (directory : Text) (disk : Disk) :
    Option Json → Prop where
  | named {file : Text} {raw : Json} : arguments.get? .config = some file →
      Holds readYaml disk (Path.resolve directory file) raw → Configures readYaml arguments directory disk (some raw)
  | found {file : Text} {raw : Json} : arguments.get? .config = none →
      (settingsFiles.map (Path.join directory)).find? disk.exists? = some file →
      Holds readYaml disk file raw → Configures readYaml arguments directory disk (some raw)
  | nothing : arguments.get? .config = none →
      (settingsFiles.map (Path.join directory)).find? disk.exists? = none →
      Configures readYaml arguments directory disk none

namespace Configures
variable {readYaml : Text → Option Json} {arguments : Arguments} {directory file : Text} {disk : Disk}
variable {held : Option Json}

theorem of_named (h : Configures readYaml arguments directory disk held)
    (hconfig : arguments.get? .config = some file) :
    ∃ raw, held = some raw ∧ Holds readYaml disk (Path.resolve directory file) raw := by
  cases h with
  | named hfile hraw =>
    cases hconfig.symm.trans hfile
    exact ⟨_, rfl, hraw⟩
  | found hnone | nothing hnone => cases hconfig.symm.trans hnone

variable (h : Configures readYaml arguments directory disk held) (hconfig : arguments.get? .config = none)
include h hconfig

theorem of_found (hfound : (settingsFiles.map (Path.join directory)).find? disk.exists? = some file) :
    ∃ raw, held = some raw ∧ Holds readYaml disk file raw := by
  cases h with
  | named hfile => cases hconfig.symm.trans hfile
  | found _ hfile hraw =>
    cases hfound.symm.trans hfile
    exact ⟨_, rfl, hraw⟩
  | nothing _ hnone => cases hfound.symm.trans hnone

theorem eq_none (hfound : (settingsFiles.map (Path.join directory)).find? disk.exists? = none) : held = none := by
  cases h with
  | named hfile => cases hconfig.symm.trans hfile
  | found _ hfile => cases hfound.symm.trans hfile
  | nothing => rfl

end Configures

variable {readYaml : Text → Option Json} {arguments : Arguments} {directory : Text} {session : Session} {s : Settings}

theorem run_loadSettings_eq_ok_iff {file : Text} : ((loadSettings readYaml file).run session).1 = .ok s ↔
    ∃ raw, Holds readYaml session.disk file raw ∧ Settings.ofJson (some raw) none = .ok s := by
  rw [loadSettings, Action.run_disk_bind]
  cases hread : session.disk.read file with
  | error fault => exact ⟨nofun, fun ⟨_, ⟨_, htext, _⟩, _⟩ => nomatch hread.symm.trans htext⟩
  | ok text =>
    have hholds : ∀ raw, Holds readYaml session.disk file raw ↔ readYaml text = some raw := by
      simp [Holds, hread]
    simp only [hholds]
    cases readYaml text with
    | none => exact ⟨nofun, nofun⟩
    | some raw =>
      simp only [Action.run_log_bind, Action.run_ofExcept, Option.some.injEq, exists_eq_left']
      exact Settings.ofJson_eq_ok_iff_of_source none

theorem run_baseSettings_eq_ok_iff :
    ((baseSettings readYaml arguments directory).run session).1 = .ok s ↔
      ∃ raw, Configures readYaml arguments directory session.disk raw ∧ Settings.ofJson raw none = .ok s := by
  unfold baseSettings
  cases hconfig : arguments.get? .config with
  | some file =>
    dsimp only
    rw [run_loadSettings_eq_ok_iff]
    constructor
    · rintro ⟨raw, hraw, h⟩
      exact ⟨some raw, .named hconfig hraw, h⟩
    · rintro ⟨_, hconfigures, h⟩
      obtain ⟨raw, rfl, hraw⟩ := hconfigures.of_named hconfig
      exact ⟨raw, hraw, h⟩
  | none =>
    dsimp only
    rw [Action.run_disk_bind]
    cases hfound : (settingsFiles.map (Path.join directory)).find? session.disk.exists? with
    | some file =>
      dsimp only
      rw [run_loadSettings_eq_ok_iff]
      constructor
      · rintro ⟨raw, hraw, h⟩
        exact ⟨some raw, .found hconfig hfound hraw, h⟩
      · rintro ⟨_, hconfigures, h⟩
        obtain ⟨raw, rfl, hraw⟩ := hconfigures.of_found hconfig hfound
        exact ⟨raw, hraw, h⟩
    | none =>
      have hdefault : ((pure {} : Action Settings).run session).1 = .ok s ↔ Settings.ofJson none none = .ok s := by
        rw [Settings.ofJson_none]
        exact Iff.rfl
      dsimp only
      rw [hdefault]
      constructor
      · exact fun h => ⟨none, .nothing hconfig hfound, h⟩
      · rintro ⟨raw, hconfigures, h⟩
        rwa [hconfigures.eq_none hconfig hfound] at h

/-- The dialect and the time range of the options can be read. -/
structure Arguments.IsReadable (arguments : Arguments) : Prop where
  dialect : ∀ name ∈ arguments.get? .dialect, (Dialect.Builtin.ofName? name).isSome
  timeRange : ∀ range ∈ arguments.get? .timeRange, (Duration.ofText? range).isSome

def flagged? (arguments : Arguments) (key : Text) : Option Json :=
  if key = "dialect" then (arguments.get? .dialect).map .text
  else if key = "timeRangeMs" then ((arguments.get? .timeRange).bind Duration.ofText?).map .number
  else if key = "sampleRows" then (arguments.get? .rows).map fun rows => .number (Number.ofText rows)
  else if key = "categoriesDir" then (arguments.get? .categories).map .text
  else none

theorem readMember_eq_ok_iff {given : Option Text} {read : Text → Option Json} {cause : Text → Misuse}
    {value : Option Json} :
    readMember given read cause = .ok value ↔ (∀ t ∈ given, (read t).isSome) ∧ value = given.bind read := by
  unfold readMember
  cases given with
  | none => simp [@eq_comm _ value]
  | some t =>
    cases hread : read t with
    | none => simp [hread]
    | some j => simp [hread, @eq_comm _ value]

theorem value?_layerOf (dialect timeRange rows categories : Option Json) (key : Text) :
    (layerOf dialect timeRange rows categories).value? key =
      if key = "dialect" then dialect else if key = "timeRangeMs" then timeRange
      else if key = "sampleRows" then rows else if key = "categoriesDir" then categories else none := by
  simp only [Settings.Layer.value?, layerOf, Record.get?_cons, Record.get?_nil]
  split_ifs <;> rfl

theorem optionLayer_eq_ok_iff {layer : Settings.Layer} :
    optionLayer arguments = .ok layer ↔ arguments.IsReadable ∧ layer = layerOf
      ((arguments.get? .dialect).bind readDialect?) ((arguments.get? .timeRange).bind readTimeRange?)
      ((arguments.get? .rows).map fun rows => .number (Number.ofText rows))
      ((arguments.get? .categories).map .text) := by
  simp only [optionLayer, Except.bind_eq_ok_iff, readMember_eq_ok_iff, readDialect?, readTimeRange?, Option.isSome_map]
  constructor
  · rintro ⟨_, ⟨hdialect, rfl⟩, _, ⟨hrange, rfl⟩, h⟩
    cases h
    exact ⟨⟨hdialect, hrange⟩, rfl⟩
  · rintro ⟨⟨hdialect, hrange⟩, rfl⟩
    exact ⟨_, ⟨hdialect, rfl⟩, _, ⟨hrange, rfl⟩, rfl⟩

/-- The layer of the options has the values that they give. -/
theorem value?_of_optionLayer {layer : Settings.Layer} (h : optionLayer arguments = .ok layer) (key : Text) :
    layer.value? key = flagged? arguments key := by
  obtain ⟨hreadable, rfl⟩ := optionLayer_eq_ok_iff.1 h
  have hdialect : (arguments.get? .dialect).bind readDialect? = (arguments.get? .dialect).map .text := by
    cases hname : arguments.get? .dialect with
    | none => rfl
    | some name =>
      obtain ⟨b, hb⟩ := Option.isSome_iff_exists.1 (hreadable.dialect name hname)
      simp [readDialect?, hb]
  have hrange : (arguments.get? .timeRange).bind readTimeRange? =
      ((arguments.get? .timeRange).bind Duration.ofText?).map .number := by
    rw [Option.map_bind]
    rfl
  rw [value?_layerOf, hdialect, hrange, flagged?]

theorem flagged?_eq_none {key : Text} (h : key ∉ names) : flagged? arguments key = none := by
  simp only [names, List.mem_cons, List.not_mem_nil, or_false, not_or] at h
  obtain ⟨hdialect, -, hrange, hrows, -, hcategories⟩ := h
  rw [flagged?, if_neg hdialect, if_neg hrange, if_neg hrows, if_neg hcategories]

/-- Options override settings with the values that they give. -/
theorem run_options_eq_ok_iff {base : Settings} :
    ((do
      let layer ← Action.ofExcept ((optionLayer arguments).mapError .misuse)
      Action.ofExcept (base.override [layer]) : Action Settings).run session).1 = .ok s ↔
        arguments.IsReadable ∧ s.IsValid ∧ ∀ key ∈ names, Record.get? s.members key =
          (flagged? arguments key).or (Record.get? base.members key) := by
  rw [Action.run_ofExcept_bind_eq_ok_iff]
  simp only [Except.mapError_eq_ok_iff, Action.run_ofExcept, Settings.override_eq_ok_iff,
    Settings.lastValue?_singleton]
  constructor
  · rintro ⟨layer, hlayer, hvalid, -, hget⟩
    refine ⟨(optionLayer_eq_ok_iff.1 hlayer).1, hvalid, ?_⟩
    intro key hkey
    rw [hget key hkey, value?_of_optionLayer hlayer]
  · rintro ⟨hreadable, hvalid, hget⟩
    have hlayer := optionLayer_eq_ok_iff.2 ⟨hreadable, rfl⟩
    refine ⟨_, hlayer, hvalid, ?_, ?_⟩
    · intro key hkey
      rw [value?_of_optionLayer hlayer, flagged?_eq_none hkey]
    · intro key hkey
      rw [hget key hkey, value?_of_optionLayer hlayer]

/-- The settings of a run come about if the settings file is read and accepted, the options are read, and the
settings are valid that are as the options say, or else as the file says, or else as they are by default. -/
theorem run_resolveSettings_eq_ok_iff :
    ((resolveSettings readYaml arguments directory).run session).1 = .ok s ↔
      ∃ raw base, Configures readYaml arguments directory session.disk raw ∧ Settings.ofJson raw none = .ok base ∧
        arguments.IsReadable ∧ s.IsValid ∧ ∀ key ∈ names, Record.get? s.members key =
          (flagged? arguments key).or ((raw.bind (Json.get? key)).or (Record.get? ({} : Settings).members key)) := by
  rw [resolveSettings, Action.run_bind_eq_ok_iff]
  simp only [run_options_eq_ok_iff]
  constructor
  · rintro ⟨base, u, hbase, hreadable, hvalid, hget⟩
    obtain ⟨raw, hconfigures, hraw⟩ := run_baseSettings_eq_ok_iff.1 (congrArg Prod.fst hbase)
    refine ⟨raw, base, hconfigures, hraw, hreadable, hvalid, ?_⟩
    intro key hkey
    rw [hget key hkey, (Settings.of_ofJson hraw).2 key hkey]
  · rintro ⟨raw, base, hconfigures, hraw, hreadable, hvalid, hget⟩
    have hbase := run_baseSettings_eq_ok_iff.2 ⟨raw, hconfigures, hraw⟩
    refine ⟨base, _, Prod.ext hbase rfl, hreadable, hvalid, ?_⟩
    intro key hkey
    rw [hget key hkey, (Settings.of_ofJson hraw).2 key hkey]

/-- Layers of settings compose. Settings that have been read are read again as they are. Layers that are laid on
together come to the same as layers that are laid on one after the other, and each setting is that of the last layer
that defines it, or else that of the base. So a setting of a run is that of its option, or else that of the settings
file, or else the default. -/
theorem settings_layering :
    (∀ (raw : Option Json) (source : Option Text) (s : Settings), Settings.ofJson raw source = .ok s →
      ∀ source', Settings.ofJson (some (.object s.members)) source' = .ok s) ∧
    (∀ (base s : Settings) (layers : List Settings.Layer), base.override layers = .ok s →
      (∀ layers' s', base.override (layers ++ layers') = .ok s' ↔ s.override layers' = .ok s') ∧
      ∀ key ∈ names, Record.get? s.members key =
        (Settings.lastValue? layers key).or (Record.get? base.members key)) ∧
    ∀ (readYaml : Text → Option Json) (arguments : Arguments) (directory : Text) (session : Session) (s : Settings),
      ((resolveSettings readYaml arguments directory).run session).1 = .ok s ↔
        ∃ raw base, Configures readYaml arguments directory session.disk raw ∧ Settings.ofJson raw none = .ok base ∧
          arguments.IsReadable ∧ s.IsValid ∧ ∀ key ∈ names, Record.get? s.members key =
            (flagged? arguments key).or
              ((raw.bind (Json.get? key)).or (Record.get? ({} : Settings).members key)) := by
  refine ⟨?_, ?_, ?_⟩
  · intro raw source s h source'
    exact Settings.ofJson_members (Settings.of_ofJson h).1 source'
  · intro base s layers h
    refine ⟨fun layers' s' => Settings.override_append_eq_ok_iff h, ?_⟩
    exact (Settings.override_eq_ok_iff.1 h).2.2
  · intro readYaml arguments directory session s
    exact run_resolveSettings_eq_ok_iff

/-- A directory whose settings file names the other dialect than the option does. -/
def rowsDisk : Disk := ⟨[("/queries/.mxqlintrc.yaml", "dialect: mxql\nsampleRows: 3\n")], ["/queries"]⟩

def pipelineArguments : Arguments := ⟨none, [], [(.dialect, "pipeline")], []⟩

theorem settings_layering_rows :
    Settings.ofJson (some (.object ({ sampleRows := 3 } : Settings).members)) none = .ok { sampleRows := 3 } ∧
    (({} : Settings).override ([⟨[("sampleRows", some (.number 3)), ("dialect", none)], by decide, by decide⟩] ++
        [⟨[("sampleRows", none), ("dialect", some (.text "pipeline"))], by decide, by decide⟩]) =
      .ok { sampleRows := 3, dialect := .pipeline }) ∧
    Record.get? ({ sampleRows := 3 } : Settings).members "sampleRows" = (Settings.lastValue?
      [⟨[("sampleRows", some (.number 3)), ("dialect", none)], by decide, by decide⟩] "sampleRows").or
        (Record.get? ({} : Settings).members "sampleRows") ∧
    ((resolveSettings Yaml.read pipelineArguments "/queries").run ⟨rowsDisk, []⟩).1 =
      .ok { dialect := .pipeline, sampleRows := 3 } ∧
    ∃ raw base, Configures Yaml.read pipelineArguments "/queries" rowsDisk raw ∧
      Settings.ofJson raw none = .ok base ∧ pipelineArguments.IsReadable ∧
      ∀ key ∈ names, Record.get? ({ dialect := .pipeline, sampleRows := 3 } : Settings).members key =
        (flagged? pipelineArguments key).or
          ((raw.bind (Json.get? key)).or (Record.get? ({} : Settings).members key)) := by
  have hread : Settings.ofJson (some (.object [("sampleRows", .number 3)])) none = .ok { sampleRows := 3 } :=
    Except.eq_ok_of_toOption (by decide +kernel)
  have hrows : ({} : Settings).override
      [⟨[("sampleRows", some (.number 3)), ("dialect", none)], by decide, by decide⟩] = .ok { sampleRows := 3 } :=
    Except.eq_ok_of_toOption (by decide +kernel)
  have hdialect : ({ sampleRows := 3 } : Settings).override
      [⟨[("sampleRows", none), ("dialect", some (.text "pipeline"))], by decide, by decide⟩] =
        .ok { sampleRows := 3, dialect := .pipeline } := Except.eq_ok_of_toOption (by decide +kernel)
  have hrun : ((resolveSettings Yaml.read pipelineArguments "/queries").run ⟨rowsDisk, []⟩).1 =
      .ok { dialect := .pipeline, sampleRows := 3 } := Except.eq_ok_of_toOption (by decide +kernel)
  obtain ⟨hagain, hlayers, hresolve⟩ := settings_layering
  obtain ⟨htogether, hvalues⟩ := hlayers _ _ _ hrows
  obtain ⟨raw, base, hconfigures, hraw, hreadable, -, hget⟩ := (hresolve _ _ _ _ _).1 hrun
  exact ⟨hagain _ _ _ hread none, (htogether _ _).2 hdialect, hvalues _ (by decide), hrun,
    raw, base, hconfigures, hraw, hreadable, hget⟩

end QueryLint.CommandLine
