import QueryLint.Category.Catalog
import QueryLint.CommandLine.Arguments
import QueryLint.CommandLine.Palette
import QueryLint.CommandLine.Session
import QueryLint.Fixture
import QueryLint.Settings

/-!
The commands on queries: checking them, building fixtures, and listing their fields.
-/

namespace QueryLint.CommandLine
set_option autoImplicit false

/-- What every command works with. -/
structure Context where
  libraries : Libraries
  arguments : Arguments
  surroundings : Surroundings
  settings : Settings
  format : OutputFormat
  palette : Palette

structure Input where
  source : Text
  text : Text
deriving DecidableEq, Repr

namespace Context

def resolve (c : Context) (path : Text) : Text := Path.resolve c.surroundings.directory path

def readFile (c : Context) (file : Text) : Action Input := do
  match (← Action.disk).read (c.resolve file) with
  | .ok text => return ⟨file, text⟩
  | .error fault => Action.misused (.unreadableInput file fault)

/-- The queries of the named files; without any, the query on the standard input. -/
def readInputs (c : Context) : Action (List Input) :=
  if c.arguments.operands.isEmpty then return [⟨"<stdin>", c.surroundings.input⟩]
  else c.arguments.operands.mapM c.readFile

def readInput (c : Context) (command : Text) : Action Text := do
  match c.arguments.operands with
  | [] => return c.surroundings.input
  | [file] => return (← c.readFile file).text
  | _ => Action.misused (.tooManyFiles command)

def openCatalog (c : Context) (rebuild : Bool) : Action Catalog := do
  match c.settings.categories with
  | none => Action.misused .noCategories
  | some directory =>
    let (catalog, log) ← Action.ofExcept (Catalog.ofDirectory (← Action.disk) (c.resolve directory) rebuild)
    Action.log log
    return catalog

def emit (c : Context) (data : Json) (text : Text) : Program Unit :=
  Program.print ((c.format.write? c.libraries.writeYaml data).getD text)

def options (c : Context) : Options where
  timeRange := c.settings.timeRange
  granularityRatio := some c.settings.granularityRatio
  disabledRules := c.settings.disabledRules

def analyse {σ : Type} (c : Context) (lookup : Option (Lookup σ)) (s : σ) :
    List Input → List (Input × Report) × List Log.Entry
  | [] => ([], [])
  | input :: inputs =>
    let a := Analysis.run c.settings.dialect.dialect c.options c.surroundings.elapsed lookup s input.text
    let (reports, log) := c.analyse lookup a.lookup inputs
    ((input, a.report) :: reports, a.log ++ log)

/-- Checks queries, their fields too when there are categories. -/
def check (c : Context) (inputs : List Input) : Action (List (Input × Report)) := do
  let (reports, log) ←
    if c.settings.categories.isNone then pure (c.analyse (none : Option (Lookup Unit)) () inputs)
    else do
      let catalog ← c.openCatalog false
      pure (c.analyse (some (Catalog.lookup (← Action.disk))) catalog inputs)
  Action.log log
  return reports

def sourcedJson (r : Input × Report) : Json := .object (("source", .text r.1.source) :: r.2.members)

def reportsJson : List (Input × Report) → Json
  | [r] => sourcedJson r
  | rs => .array (rs.map sourcedJson)

def sourceTitle (c : Context) (r : Input × Report) (i : Nat) : Text :=
  (if 0 < i then ("\n" : Text) else []) ++ c.palette.paint [.bold] (r.1.source ++ ":") ++ "\n"

def showReport (c : Context) (several : Bool) (r : Input × Report) (i : Nat) : Program Unit := do
  if several then Program.print (c.sourceTitle r i)
  Program.print (r.2.toText c.palette.decorate)

def showReports (c : Context) (reports : List (Input × Report)) : Program Unit :=
  match c.format.write? c.libraries.writeYaml (reportsJson reports) with
  | some text => Program.print text
  | none => reports.zipIdx.forM fun (r, i) => c.showReport (1 < reports.length) r i

def validate (c : Context) : Program Exit := do
  let inputs ← c.readInputs
  let reports ← c.check inputs
  c.showReports reports
  return if reports.all fun r => r.2.valid then .success else .findings

def withLineBreak (t : Text) : Text := if Text.endsWith t "\n" then t else t ++ "\n"

def document (c : Context) (text : Text) : Document := Document.parse c.settings.dialect.dialect text

def fixture (c : Context) : Program Exit := do
  let text ← c.readInput "fixture"
  let fixture := Fixture.build (c.document text)
    { rows := some c.settings.sampleRows
      blockName := c.arguments.get? .name
      description := c.arguments.get? .description }
  c.emit fixture.toJson (withLineBreak fixture.text)
  return .success

def fields (c : Context) : Program Exit := do
  let text ← c.readInput "fields"
  let document := c.document text
  let rows := FieldRow.ofFields (Field.ofDocument document) (Field.types document)
  c.emit (.array (rows.map FieldRow.toJson)) (FieldRow.table rows)
  return .success

end Context
end QueryLint.CommandLine
