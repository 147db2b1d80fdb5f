import QueryLint.CommandLine.Categories
import QueryLint.CommandLine.Configuration

/-!
Running the program: from arguments to an exit code and what is printed.

Failures that the program foresees become a complaint and the exit code for misuse. Other failures
end the run as they are.
-/

namespace QueryLint.CommandLine
set_option autoImplicit false

def usage (palette : Palette) : Text :=
  "\n  " ++ palette.paint [.bold] "mxqlint" ++ Text.ofString " - static analysis for MXQL queries

  Usage:
    mxqlint validate  [files...]                     Lint queries (reads stdin when no file is given)
    mxqlint fixture   [file] [--rows N] [--name NAME] [--description TEXT]
                                                     Inject a literal sample-data block
    mxqlint fields    [file]                         List referenced fields and guessed types
    mxqlint category  search <text> [--limit N]      Rank categories by keyword
    mxqlint category  product <name>                 Categories of a product (db, server, ...)
    mxqlint category  info <category> [--lang CODE]  Tags and fields of a category
    mxqlint category  products                       List products
    mxqlint category  reindex                        Rewrite category-index.json

  Options:
    --format text|json|yaml    Output format (default text)
    --dialect mxql|pipeline    Query dialect (default mxql)
    --config <file>            YAML or JSON configuration (default .mxqlintrc.yaml in the working directory)
    --categories <dir>         Category metadata directory; enables field checks
    --time-range <duration>    Range assumed when the query declares none, e.g. 6h
    --no-color                 Disable colors (also NO_COLOR=1)

  Exit codes: 0 valid, 1 critical issues found, 2 usage or configuration error
"

def outputFormat (arguments : Arguments) : Except Misuse OutputFormat :=
  match arguments.get? .format with
  | none => .ok .text
  | some name =>
    match OutputFormat.ofName? name with
    | some format => .ok format
    | none => .error (.unknownFormat name)

def Context.run (c : Context) (command : Text) : Program Exit :=
  if command = "validate" then c.validate
  else if command = "fixture" then c.fixture
  else if command = "fields" then c.fields
  else if command = "category" then c.category
  else Program.misused (.unknownCommand command)

def dispatch (libraries : Libraries) (arguments : Arguments) (surroundings : Surroundings) (palette : Palette) :
    Program Exit := do
  if arguments.has .help || arguments.command = some "help" then
    Program.print (usage palette)
    return .success
  match arguments.command with
  | none =>
    Program.complain (usage palette)
    return .misuse
  | some command =>
    let settings ← resolveSettings libraries.readYaml arguments surroundings.directory
    let format ← Action.ofExcept ((outputFormat arguments).mapError .misuse)
    Context.run ⟨libraries, arguments, surroundings, settings, format, palette⟩ command

def attempt (libraries : Libraries) (arguments : List Text) (surroundings : Surroundings) (palette : Palette) :
    Program Exit := do
  let arguments ← Action.ofExcept ((Arguments.parse arguments).mapError .misuse)
  dispatch libraries arguments surroundings palette

def complaint (palette : Palette) (failure : Failure) : Text :=
  palette.paint [.red] "error:" ++ " " ++ failure.message ++ "\n"

def answered (palette : Palette) (program : Program Exit) : Program Exit :=
  tryCatch program fun failure => do
    if failure.isForeseen then
      Program.complain (complaint palette failure)
      return .misuse
    else throw failure

def Surroundings.palette (surroundings : Surroundings) (arguments : List Text) : Palette :=
  ⟨Palette.isWanted arguments surroundings.environment surroundings.isTerminal⟩

/-- Runs the program on a disk: the reply or an unforeseen failure, and what the run has changed. -/
def run (libraries : Libraries) (arguments : List Text) (surroundings : Surroundings) (disk : Disk) :
    Except Failure Reply × Session :=
  let palette := surroundings.palette arguments
  let ((result, console), session) :=
    (answered palette (attempt libraries arguments surroundings palette)).run ⟨[], []⟩ ⟨disk, []⟩
  (result.map fun exit => { console with exit }, session)

end QueryLint.CommandLine
