import QueryLint.Yaml.Reader

/-!
Reading a YAML text as one document: its directives, its markers, and the node between them.
-/

namespace QueryLint.Yaml
set_option autoImplicit false

/-- The text with a line break at its end and without a byte order mark. -/
def prepared (t : Text) : Text :=
  let t := if (t.getLast?.map isBreak).getD false then t else t ++ [10]
  if t.head? = some 0xFEFF then t.drop 1 else t

/-- What the directives of a document have said: whether there were any, whether one gave the version, and
the name spaces of handles. -/
structure Directives where
  any : Bool := false
  versioned : Bool := false
  handles : Handles := []

def words (t : Text) : List Text :=
  (Text.splitOn ' ' (Text.replaceUnit '\t' " " t)).filter fun word => !word.isEmpty

def isVersion (t : Text) : Bool :=
  match Text.splitOn '.' t with
  | [major, minor] =>
    !major.isEmpty && major.all CodeUnit.isDigit && !minor.isEmpty && minor.all CodeUnit.isDigit &&
      Text.digitsValue major = 1
  | _ => false

namespace Directives

def add? (d : Directives) (name : Text) (arguments : List Text) : Option Directives :=
  if name.isEmpty then none
  else if name = "YAML" then
    match arguments with
    | [version] => if d.versioned || !isVersion version then none else some { d with any := true, versioned := true }
    | _ => none
  else if name = "TAG" then
    match arguments with
    | [handle, space] =>
      if !isHandle handle || Record.has d.handles handle || !isTagText space then none
      else some { d with any := true, handles := Record.set handle (unescapedTag space) d.handles }
    | _ => none
  else some { d with any := true }

/-- The directive that a line writes behind its mark; a comment may follow. -/
def addLine? (d : Directives) (line : Text) : Option Directives :=
  let name := line.takeWhile fun u => !u.isBlank
  let arguments := (words (line.drop name.length)).takeWhile fun word => !Text.startsWith word "#"
  d.add? name arguments

def read : Nat → Directives → Cursor → Option (Directives × Cursor)
  | 0, _, _ => none
  | fuel + 1, d, c =>
    let (_, c) := c.skipSpace
    if c.indent = 0 && c.isAt '%' then
      (d.addLine? (c.lineRest.drop 1)).bind fun d => read fuel d c.skipLine.newLine
    else some (d, c)

end Directives

/-- One document and what follows it. Directives need a marker behind them. -/
def documentAt (c : Cursor) : Option (Json × Cursor) :=
  (Directives.read (c.rest.length + 1) {} c).bind fun (directives, c) =>
    let marked : Bool := c.indent = 0 && Text.startsWith c.rest "---"
    if directives.any && !marked then none
    else
      let c := if marked then (c.advanceBy 3).skipSpace.2 else c
      let root := nodeWithin mostNested ⟨c.indent, .value, false, true⟩
      (root.run { cursor := c, handles := directives.handles }).bind fun (node, behind) =>
        let (_, next) := behind.cursor.skipSpace
        if next.atSeparator then
          some (node.value, if next.isAt '.' then (next.advanceBy 3).skipSpace.2 else next)
        else if next.rest.isEmpty then some (node.value, next)
        else none

/-- The value of a text that holds at most one document; nothing at all is `null`. -/
def read (t : Text) : Option Json :=
  if t.isEmpty then some .null
  else if t.any (fun c => c = (0 : CodeUnit)) then none
  else
    let c := Cursor.start (prepared t)
    if c.rest.isEmpty then some .null
    else (documentAt c).bind fun (value, next) => if next.rest.isEmpty then some value else none

end QueryLint.Yaml
