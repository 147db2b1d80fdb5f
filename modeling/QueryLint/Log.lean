import QueryLint.Json.Printer

/-!
Log entries.

The library does not write its log: what happens is returned as entries, and whoever runs the
program decides by level which of them are shown.
-/

namespace QueryLint
set_option autoImplicit false

namespace Log

inductive Level where
  | debug
  | info
  | warn
  | error
deriving DecidableEq, Repr

namespace Level

def all : List Level := [debug, info, warn, error]

def name : Level → Text
  | debug => "debug"
  | info => "info"
  | warn => "warn"
  | error => "error"

def ofName? (t : Text) : Option Level := all.find? fun level => level.name = t

def rank : Level → Nat
  | debug => 0
  | info => 1
  | warn => 2
  | error => 3

def ofSetting (setting : Option Text) : Level :=
  if setting = some "1" || setting = some "true" then debug
  else if setting = some "warn" then warn
  else if setting = some "error" then error
  else info

end Level

structure Entry where
  level : Level
  message : Text
  data : Option (Record Json)

namespace Entry

def shownAt (threshold : Level) (e : Entry) : Bool := threshold.rank ≤ e.level.rank

def dataText (e : Entry) : Option Text := e.data.map fun data => (Json.object data).compact

def line (e : Entry) : Text :=
  "[mxqlint] " ++ e.level.name ++ ": " ++ e.message ++
    (match e.dataText with
      | none => []
      | some data => " " ++ data) ++ "\n"

end Entry

def timing (label : Text) (data : Record Json) (elapsed : Number) : Entry :=
  ⟨.debug, label ++ ": " ++ elapsed.toFixedTwo ++ "ms",
    some (Record.arranged (Record.set "durationMs" (.number elapsed) data))⟩

def validation (commands issues : Number) (valid : Bool) (elapsed : Number) : Entry :=
  ⟨.debug, "validate: " ++ elapsed.toFixedTwo ++ "ms for " ++ commands.toText ++ " commands",
    some [("commands", .number commands), ("issues", .number issues), ("valid", .bool valid),
      ("durationMs", .number elapsed)]⟩

def lookupFailure (category reason : Text) : Entry :=
  ⟨.warn, "category lookup failed for " ++ category,
    some [("category", .text category), ("reason", .text reason)]⟩

end Log
end QueryLint
