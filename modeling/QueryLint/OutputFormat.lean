import QueryLint.Json.Printer

/-!
The formats that results are written in. Plain data can be written as JSON or YAML; what the text
format shows is up to each command.
-/

namespace QueryLint
set_option autoImplicit false

inductive OutputFormat where
  | text
  | json
  | yaml
deriving DecidableEq, Repr

namespace OutputFormat

def all : List OutputFormat := [text, json, yaml]

def name : OutputFormat → Text
  | text => "text"
  | json => "json"
  | yaml => "yaml"

def ofName? (t : Text) : Option OutputFormat := all.find? fun format => format.name = t

def write? (writeYaml : Json → Text) : OutputFormat → Json → Option Text
  | text, _ => none
  | json, j => some j.document
  | yaml, j => some (writeYaml j)

end OutputFormat
end QueryLint
