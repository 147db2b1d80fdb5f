/-!
The tags that a YAML document may give to its nodes, and the kinds of nodes that take them.
-/

namespace QueryLint.Yaml
set_option autoImplicit false

inductive Kind where
  | scalar
  | sequence
  | mapping
deriving DecidableEq, Repr

inductive Tag where
  | null
  | boolean
  | integer
  | float
  | timestamp
  | merge
  | binary
  | text
  | list
  | orderedMapping
  | pairs
  | mapping
  | set
deriving DecidableEq, Repr

namespace Tag

/-- The tags that a plain scalar may have without being told, in the order of preference. -/
def implicit : List Tag := [.null, .boolean, .integer, .float, .timestamp, .merge]

def all : List Tag := implicit ++ [.binary, .text, .list, .orderedMapping, .pairs, .mapping, .set]

/-- How a document spells a tag, behind the name space that all of these tags share. -/
def name : Tag → String
  | null => "null"
  | boolean => "bool"
  | integer => "int"
  | float => "float"
  | timestamp => "timestamp"
  | merge => "merge"
  | binary => "binary"
  | text => "str"
  | list => "seq"
  | orderedMapping => "omap"
  | pairs => "pairs"
  | mapping => "map"
  | set => "set"

def space : String := "tag:yaml.org,2002:"

end Tag
end QueryLint.Yaml
