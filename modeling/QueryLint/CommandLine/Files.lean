import QueryLint.CommandLine.Run

/-!
What a run needs from the machine it runs on: the files that it may look at, whether it reads the
standard input, and which files it has changed.
-/

namespace QueryLint.CommandLine
set_option autoImplicit false

def namedPaths (directory : Text) (arguments : Arguments) : List Text :=
  settingsFiles.map (Path.join directory) ++
    ((arguments.get? .config).toList ++ arguments.operands).map (Path.resolve directory)

def categoryDirectory? (readYaml : Text → Option Json) (directory : Text) (arguments : Arguments) (disk : Disk) :
    Option Text :=
  match (resolveSettings readYaml arguments directory).run ⟨disk, []⟩ with
  | (.ok settings, _) => settings.categories.map (Path.resolve directory)
  | (.error _, _) => none

def indexedPaths (directory : Text) (disk : Disk) : List Text :=
  match Catalog.ofDirectory disk directory false with
  | .ok (catalog, _) =>
    (Record.values catalog.index.categories).flatMap fun entry =>
      (Record.values entry.languages).map (Path.join directory)
  | .error _ => []

def readsInput (arguments : Arguments) : Bool :=
  arguments.operands.isEmpty && !arguments.has .help &&
    (["validate", "fixture", "fields"].map fun command => some (Text.ofString command)).contains
      arguments.command

def changedFiles (before after : Disk) : Record Text :=
  after.files.filter fun file => Record.get? before.files file.1 ≠ some file.2

end QueryLint.CommandLine
