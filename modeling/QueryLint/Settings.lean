import QueryLint.Failure
import QueryLint.Sample
import QueryLint.Rules.Performance

/-!
Settings: how queries are checked and fixtures built, as configured by files and options.

Settings come from plain data that is checked as a whole. A layer overrides some of them, and the
result is checked again, so that settings are valid wherever they come from.
-/

namespace QueryLint
set_option autoImplicit false

structure Settings where
  dialect : Dialect.Builtin := .mxql
  granularityRatio : Number := Rules.Performance.defaultRatio
  timeRange : Option Number := none
  sampleRows : Number := Samples.defaultCount
  disabledRules : List Text := []
  categories : Option Text := none
deriving DecidableEq

namespace Settings
open Schema

def dialectChoices : List (Text × Dialect.Builtin) := Dialect.Builtin.all.map fun b => (b.name, b)

def positive (x : Number) : Bool × Problem := (!x.isPositive, .notPositive)

def whole (x : Number) : Bool × Problem := (!x.isInteger, .notWhole)

def atLeast (least : Nat) (x : Number) : Bool × Problem := (!Number.le (.ofNat least) x, .tooSmall least)

def atMost (greatest : Nat) (x : Number) : Bool × Problem :=
  (!Number.le x (.ofNat greatest), .tooLarge greatest)

def names : List Text :=
  ["dialect", "granularityRatio", "timeRangeMs", "sampleRows", "disabledRules", "categoriesDir"]

def ofMembers (path : List Text) (members : Record Json) : Checked Settings :=
  let setting {α : Type} (key : Text) (check : Check α) : Checked α := member path members key check
  let defaults : Settings := {}
  Settings.mk
    <$> setting "dialect" (withDefault defaults.dialect (choice dialectChoices))
    <*> setting "granularityRatio" (withDefault defaults.granularityRatio (number fun x => [positive x]))
    <*> setting "timeRangeMs" (optional (number fun x => [whole x, positive x]))
    <*> setting "sampleRows"
      (withDefault defaults.sampleRows (number fun x => [whole x, atLeast 1 x, atMost 100 x]))
    <*> setting "disabledRules" (withDefault defaults.disabledRules (list nonEmptyText))
    <*> setting "categoriesDir" (optional nonEmptyText)
    <* nothingBeyond path names members

/-- The settings that plain data describes; absent data leaves all defaults. -/
def ofJson (raw : Option Json) (source : Option Text) : Except Failure Settings :=
  let raw := match raw with
    | some .null => .object []
    | some j => j
    | none => .object []
  match object ofMembers [] (some raw) with
  | .valid settings => .ok settings
  | .invalid complaints => .error (.settings (.invalid complaints) source)

def members (s : Settings) : Record Json :=
  let first : Record Json :=
    [("dialect", .text s.dialect.name), ("granularityRatio", .number s.granularityRatio)]
  let second : Record Json :=
    [("sampleRows", .number s.sampleRows), ("disabledRules", .texts s.disabledRules)]
  first ++ Json.optional "timeRangeMs" .number s.timeRange ++ second ++
    Json.optional "categoriesDir" .text s.categories

/-- Members that layers set, and members that stand behind them: these count where no layer sets their
key. -/
structure Overlay where
  front : Record Json
  behind : Record Json := []

namespace Overlay

/-- Sets a member. The reserved key sets none: the members of its value replace those behind, `null` takes
them away, and another plain value changes nothing. -/
def put (o : Overlay) (key : Text) (value : Json) : Overlay :=
  if key = Record.reservedKey then
    match value, value.members? with
    | .null, _ => { o with behind := [] }
    | _, some members => { o with behind := members }
    | _, none => o
  else { o with front := Record.set key value o.front }

def cover (o : Overlay) (layer : Record Json) : Overlay := layer.foldl (fun o m => o.put m.1 m.2) o

def members (o : Overlay) : Record Json :=
  Record.arranged o.front ++ (Record.arranged o.behind).filter fun m => !Record.has o.front m.1

end Overlay

/-- The settings after some layers; later layers override earlier ones. -/
def merge (base : Settings) (layers : List (Record Json)) : Except Failure Settings :=
  ofJson (some (.object (layers.foldl Overlay.cover { front := base.members }).members)) none

/-- A layer as parts of the program make it: members by name, some of which may be left open. No two have the
same key, and none has the reserved one. -/
structure Layer where
  entries : Record (Option Json)
  distinct : (Record.keys entries).Nodup
  unreserved : Record.reservedKey ∉ Record.keys entries

/-- The members that a layer defines; one that is left open is none of them. -/
def Layer.defined (layer : Layer) : Record Json :=
  layer.entries.filterMap fun (key, value) => value.map fun v => (key, v)

def override (base : Settings) (layers : List Layer) : Except Failure Settings :=
  base.merge (layers.map Layer.defined)

end Settings
end QueryLint
