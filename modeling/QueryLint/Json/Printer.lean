import QueryLint.Json

/-!
Writing JSON. The compact form has no white space; the indented form puts every item on a line of
its own, two spaces deeper than its container. Numbers that JSON cannot hold are written `null`, and
points in time are written as texts.
Control characters, the quote, the backslash and lone surrogate halves are escaped.
-/

namespace QueryLint.Json
set_option autoImplicit false

def hexDigits : Nat → Nat → Text
  | 0, _ => []
  | width + 1, n => hexDigits width (n / 16) ++ [CodeUnit.ofChar (Nat.digitChar (n % 16))]

def unicodeEscape (c : CodeUnit) : Text := "\\u" ++ hexDigits 4 c.toNat

/-- How one unit that is not part of a surrogate pair is written inside quotes. -/
def quotedUnit (c : CodeUnit) : Text :=
  if c = '"' then "\\\""
  else if c = '\\' then "\\\\"
  else if c = 8 then "\\b"
  else if c = 9 then "\\t"
  else if c = 10 then "\\n"
  else if c = 12 then "\\f"
  else if c = 13 then "\\r"
  else if c < 0x20 || c.isHighSurrogate || c.isLowSurrogate then unicodeEscape c
  else [c]

def quotedUnits : Text → Text
  | [] => []
  | [c] => quotedUnit c
  | c :: d :: rest =>
    if c.isHighSurrogate && d.isLowSurrogate then c :: d :: quotedUnits rest
    else quotedUnit c ++ quotedUnits (d :: rest)

def quoted (t : Text) : Text := "\"" ++ quotedUnits t ++ "\""

def numberText (x : Number) : Text := if x.isFinite then x.toText else "null"

mutual

def compact : Json → Text
  | null => "null"
  | bool b => if b then "true" else "false"
  | number x => numberText x
  | text t => quoted t
  | instant t => quoted t.toDataText
  | array items => "[" ++ Text.join "," (compactItems items) ++ "]"
  | object members => "\x7b" ++ Text.join "," (compactMembers members) ++ "\x7d"

def compactItems : List Json → List Text
  | [] => []
  | item :: items => compact item :: compactItems items

def compactMembers : List (Text × Json) → List Text
  | [] => []
  | (key, item) :: members => (quoted key ++ ":" ++ compact item) :: compactMembers members

end

def breakAt (depth : Nat) : Text := "\n" ++ List.replicate (2 * depth) (' ' : CodeUnit)

/-- Items between two brackets, each on its own line; nothing but the brackets when empty. -/
def enclose (opening closing : Text) (depth : Nat) (items : List Text) : Text :=
  if items.isEmpty then opening ++ closing
  else opening ++ breakAt (depth + 1) ++ Text.join ("," ++ breakAt (depth + 1)) items ++
    breakAt depth ++ closing

mutual

def indented (depth : Nat) : Json → Text
  | null => "null"
  | bool b => if b then "true" else "false"
  | number x => numberText x
  | text t => quoted t
  | instant t => quoted t.toDataText
  | array items => enclose "[" "]" depth (indentedItems (depth + 1) items)
  | object members => enclose "\x7b" "\x7d" depth (indentedMembers (depth + 1) members)

def indentedItems (depth : Nat) : List Json → List Text
  | [] => []
  | item :: items => indented depth item :: indentedItems depth items

def indentedMembers (depth : Nat) : List (Text × Json) → List Text
  | [] => []
  | (key, item) :: members =>
    (quoted key ++ ": " ++ indented depth item) :: indentedMembers depth members

end

/-- The indented form, ended by a line break. -/
def document (j : Json) : Text := indented 0 j ++ "\n"

end QueryLint.Json
