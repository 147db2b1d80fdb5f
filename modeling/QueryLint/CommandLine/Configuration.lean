import QueryLint.CommandLine.Arguments
import QueryLint.CommandLine.Session
import QueryLint.Settings

/-!
The settings of a run: the defaults, then those of a file, then those of the options.

The file is the one that an option names, else the first of a few names in the working directory. How its
text is read is left open.
-/

namespace QueryLint.CommandLine
set_option autoImplicit false

/-- The names of a settings file in the working directory, in the order of preference. -/
def settingsFiles : List Text := [".mxqlintrc.yaml", ".mxqlintrc.yml", ".mxqlintrc.json"]

def loadSettings (readYaml : Text → Option Json) (file : Text) : Action Settings := do
  match (← Action.disk).read file with
  | .error fault => Action.fail (.settings (.unreadable fault) (some file))
  | .ok text =>
    match readYaml text with
    | none => Action.fail (.settings .malformed (some file))
    | some raw =>
      Action.log [⟨.debug, "configuration loaded", some [("file", .text file)]⟩]
      Action.ofExcept (Settings.ofJson (some raw) (some file))

def baseSettings (readYaml : Text → Option Json) (arguments : Arguments) (directory : Text) : Action Settings := do
  match arguments.get? .config with
  | some file => loadSettings readYaml (Path.resolve directory file)
  | none =>
    let disk ← Action.disk
    match (settingsFiles.map (Path.join directory)).find? disk.exists? with
    | some file => loadSettings readYaml file
    | none => return {}

def readMember (given : Option Text) (read : Text → Option Json) (cause : Text → Misuse) :
    Except Misuse (Option Json) :=
  match given with
  | none => .ok none
  | some t =>
    match read t with
    | none => .error (cause t)
    | some value => .ok (some value)

def readDialect? (t : Text) : Option Json := (Dialect.Builtin.ofName? t).map fun _ => .text t

def readTimeRange? (t : Text) : Option Json := (Duration.ofText? t).map .number

def layerOf (dialect timeRange rows categories : Option Json) : Settings.Layer where
  entries := [("dialect", dialect), ("timeRangeMs", timeRange), ("sampleRows", rows), ("categoriesDir", categories)]
  distinct := by simp +decide [Record.keys]
  unreserved := by simp +decide [Record.keys]

def optionLayer (arguments : Arguments) : Except Misuse Settings.Layer := do
  let dialect ← readMember (arguments.get? .dialect) readDialect? .unknownDialect
  let timeRange ← readMember (arguments.get? .timeRange) readTimeRange? .badTimeRange
  return layerOf dialect timeRange
    ((arguments.get? .rows).map fun rows => .number (Number.ofText rows))
    ((arguments.get? .categories).map .text)

def resolveSettings (readYaml : Text → Option Json) (arguments : Arguments) (directory : Text) :
    Action Settings := do
  let base ← baseSettings readYaml arguments directory
  let layer ← Action.ofExcept ((optionLayer arguments).mapError .misuse)
  Action.ofExcept (base.override [layer])

end QueryLint.CommandLine
