import QueryLint.Yaml.Scalar

/-!
Writing plain data as YAML in block style. Containers are indented by two spaces; inside a sequence
a container starts on the line of its dash. Texts are plain where they read back as texts, otherwise
in single quotes; texts with line breaks are literal blocks, and texts that cannot be shown as they
are stand in double quotes.
-/

namespace QueryLint.Yaml
set_option autoImplicit false

def oldBooleans : List Text :=
  ["y", "Y", "yes", "Yes", "YES", "on", "On", "ON", "n", "N", "no", "No", "NO", "off", "Off",
    "OFF"].map Text.ofString

/-- Numbers to the base sixty, which older readers know: groups of digits with colons between, and
a fraction at choice. -/
def isSexagesimal (t : Text) : Bool :=
  let (_, rest) := splitSign t
  let isDigitOrGroup := fun (c : CodeUnit) => c.isDigit || c = '_'
  match (Text.splitOn ':' rest).reverse with
  | last :: first :: more =>
    let behind := last.dropWhile isDigitOrGroup
    let fractionFits := match behind with
      | [] => true
      | c :: fraction => c = '.' && fraction.all isDigitOrGroup
    (first :: more).all (fun group => !group.isEmpty && group.all isDigitOrGroup) &&
      !(last.takeWhile isDigitOrGroup).isEmpty && fractionFits
  | _ => false

/-- Scalar values that a document may show as they are. -/
def isPrintable (n : Nat) : Bool :=
  (0x20 ≤ n && n ≤ 0x7E) || (0xA1 ≤ n && n ≤ 0xD7FF && n ≠ 0x2028 && n ≠ 0x2029) ||
    (0xE000 ≤ n && n ≤ 0xFFFD && n ≠ 0xFEFF) || (0x10000 ≤ n && n ≤ 0x10FFFF)

/-- The marks that a plain scalar cannot start with. -/
def indicators : Text := "-?:,[]\x7b\x7d#&*!|=>'\"%@`"

def startsPlain (t : Text) : Bool :=
  match t with
  | [] => false
  | c :: _ => !c.isBlank && !List.elem c indicators

def endsPlain (t : Text) : Bool :=
  match t.getLast? with
  | none => false
  | some c => !c.isBlank && c ≠ ':'

/-- Whether no colon stands before a blank and no hash sign behind one. -/
def isPlainInside : Text → Bool
  | c :: d :: rest =>
    !(c = ':' && d.isBlank) && !(c.isBlank && d = '#') && isPlainInside (d :: rest)
  | _ => true

def escape (n : Nat) : Text :=
  match [(0x00, "\\0"), (0x07, "\\a"), (0x08, "\\b"), (0x09, "\\t"), (0x0A, "\\n"), (0x0B, "\\v"),
      (0x0C, "\\f"), (0x0D, "\\r"), (0x1B, "\\e"), (0x22, "\\\""), (0x5C, "\\\\"), (0x85, "\\N"),
      (0xA0, "\\_"), (0x2028, "\\L"), (0x2029, "\\P")].lookup n with
  | some short => short
  | none =>
    if isPrintable n then CodeUnit.ofScalar n
    else
      let hex := (Nat.toDigits 16 n).map fun c => CodeUnit.ofChar c.toUpper
      let (mark, width) : String × Nat := if n ≤ 0xFF then ("\\x", 2) else ("\\u", 4)
      mark ++ List.replicate (width - hex.length) ('0' : CodeUnit) ++ hex

def doubleQuoted (t : Text) : Text := "\"" ++ (Text.scalars t).flatMap escape ++ "\""

def singleQuoted (t : Text) : Text := "'" ++ Text.replaceUnit '\'' "''" t ++ "'"

def indentLines (indent : Nat) (t : Text) : Text :=
  Text.join "\n" ((Text.splitOn '\n' t).map fun line =>
    if line.isEmpty then line else List.replicate indent (' ' : CodeUnit) ++ line)

/-- A literal block. Its head tells when the text starts with a space, and what to do with the line
breaks at its end: none is there, one is, or more are. -/
def literal (indent : Nat) (t : Text) : Text :=
  let spaced := match t.dropWhile (fun c => c = (10 : CodeUnit)) with
    | [] => false
    | c :: _ => c = ' '
  let chomp : Text := match t.reverse with
    | [] => "-"
    | last :: before =>
      if last ≠ '\n' then "-"
      else match before with
        | [] => "+"
        | c :: _ => if c = '\n' then "+" else ""
  let body := indentLines indent t
  "|" ++ (if spaced then "2" else "") ++ chomp ++ "\n" ++
    (if body.getLast? = some 10 then body.dropLast else body)

/-- A text on one line or, when it is no key, as a literal block of the given indentation. -/
def scalar (indent : Nat) (isKey : Bool) (t : Text) : Text :=
  if t.isEmpty then "''"
  else if oldBooleans.contains t || isSexagesimal t then "'" ++ t ++ "'"
  else if (Text.scalars t).any (fun n => !isPrintable n && (isKey || n ≠ 10)) then doubleQuoted t
  else if t.any (fun c => c = (10 : CodeUnit)) then literal indent t
  else if startsPlain t && endsPlain t && isPlainInside t && !isAmbiguous t then t
  else singleQuoted t

/-- A number. A fraction in exponent notation keeps a point, and a negative zero its sign. -/
def numberText (x : Number) : Text :=
  match x with
  | .nan => ".nan"
  | .infinite negative => if negative then "-.inf" else ".inf"
  | .finite negative m =>
    if m = 0 then (if negative then "-0.0" else "0")
    else if m.den = 1 then x.toText
    else
      let text := x.toText
      let digits := (splitSign text).2.takeWhile CodeUnit.isDigit
      let behind := (splitSign text).2.dropWhile CodeUnit.isDigit
      if Text.startsWith behind "e" then (if negative then "-" else "") ++ digits ++ "." ++ behind
      else text

def nextLine (level : Nat) : Text := "\n" ++ List.replicate (2 * level) (' ' : CodeUnit)

/-- A mark and what follows it, on the same line unless that starts with a line break. -/
def behindMark (mark : Text) (body : Text) : Text :=
  match body with
  | [] => mark ++ " "
  | c :: _ => if c = '\n' then mark ++ body else mark ++ " " ++ body

/-- Keys longer than this stand on a line of their own behind a question mark. -/
def longestKey : Nat := 1024

mutual

/-- A value at a depth. A compact container starts on the current line. -/
def node (level : Nat) (compact : Bool) : Json → Text
  | .null => "null"
  | .bool b => if b then "true" else "false"
  | .number x => numberText x
  | .text t => scalar (2 * max 1 level) false t
  | .instant t => t.toDataText
  | .array items =>
    if items.isEmpty then "[]" else sequence level (if compact then [] else nextLine level) items
  | .object members =>
    if members.isEmpty then "\x7b\x7d"
    else mapping level (if compact then [] else nextLine level) members

def sequence (level : Nat) (lead : Text) : List Json → Text
  | [] => []
  | item :: items =>
    lead ++ behindMark "-" (node (level + 1) true item) ++ sequence level (nextLine level) items

/-- The members of a mapping; the first stands behind `lead`, the others on lines of their own. -/
def mapping (level : Nat) (lead : Text) : List (Text × Json) → Text
  | [] => []
  | (key, value) :: members =>
    let head := scalar 2 true key
    lead ++
      (if longestKey < head.length then
        behindMark "?" head ++ nextLine level ++ behindMark ":" (node (level + 1) true value)
      else behindMark (head ++ ":") (node (level + 1) false value)) ++
      mapping level (nextLine level) members

end

def document (j : Json) : Text := node 0 true j ++ "\n"

end QueryLint.Yaml
