import QueryLint.Text

/-!
A place in a YAML text and the ways to move on from it.

The structure of a document hangs on lines and indentation, so a cursor knows its column, the
indentation of its line, and whether a tab has been passed in the line.
-/

namespace QueryLint.Yaml
set_option autoImplicit false

/-- What is left of a text, the unit before it, the line, the column in it, its indentation in
spaces, and whether a tab has been met among its white space. -/
structure Cursor where
  rest : Text
  previous : Option CodeUnit
  line : Nat
  column : Nat
  indent : Nat
  tabbed : Bool

def isBreak (c : CodeUnit) : Bool := c = '\n' || c = '\r'

def isSpaceOrBreak (c : CodeUnit) : Bool := c.isBlank || isBreak c

def isFlowMark (c : CodeUnit) : Bool :=
  c = ',' || c = '[' || c = ']' || c = '\x7b' || c = '\x7d'

/-- Whether white space or the end of the text comes first. -/
def endsWord (t : Text) : Bool :=
  match t with
  | [] => true
  | c :: _ => isSpaceOrBreak c

namespace Cursor

def start (t : Text) : Cursor :=
  let spaces := (t.takeWhile fun c => c = (32 : CodeUnit)).length
  ⟨t.drop spaces, none, 0, spaces, spaces, false⟩

def advance (c : Cursor) : Cursor :=
  match c.rest with
  | [] => c
  | u :: rest => { c with rest, previous := some u, column := c.column + 1 }

def advanceBy : Nat → Cursor → Cursor
  | 0, c => c
  | n + 1, c => advanceBy n c.advance

/-- Passes a line break; CR and LF together are one. -/
def newLine (c : Cursor) : Cursor :=
  let rest := match c.rest with
    | a :: b :: rest => if a = '\r' && b = '\n' then rest else b :: rest
    | _ => []
  ⟨rest, some 10, c.line + 1, 0, 0, false⟩

/-- Passes white space and, where they are allowed, comments; counts the line breaks passed. Spaces
at the start of a line are its indentation. -/
def skip (comments : Bool) : Nat → (inComment atStart : Bool) → Nat → Cursor → Nat × Cursor
  | 0, _, _, breaks, c => (breaks, c)
  | fuel + 1, inComment, atStart, breaks, c =>
    match c.rest with
    | [] => (breaks, c)
    | u :: _ =>
      if isBreak u then skip comments fuel false true (breaks + 1) c.newLine
      else if inComment then skip comments fuel true false breaks c.advance
      else if u = ' ' then
        let indent := if atStart then c.indent + 1 else c.indent
        skip comments fuel false atStart breaks { c.advance with indent }
      else if u = '\t' then skip comments fuel false false breaks { c.advance with tabbed := true }
      else if comments && u = '#' then skip comments fuel true false breaks c.advance
      else (breaks, c)

def skipSpace (c : Cursor) : Nat × Cursor := skip true c.rest.length false false 0 c

def skipBreaks (c : Cursor) : Nat × Cursor := skip false c.rest.length false false 0 c

def isAt (c : Cursor) (u : CodeUnit) : Bool := c.rest.head? = some u

/-- Whether a mark comes next that stands as a word of its own. -/
def isAtMark (c : Cursor) (u : CodeUnit) : Bool := c.isAt u && endsWord (c.rest.drop 1)

def skipBlanks (c : Cursor) : Cursor := c.advanceBy (c.rest.takeWhile CodeUnit.isBlank).length

def lineRest (c : Cursor) : Text := c.rest.takeWhile fun u => !isBreak u

def skipLine (c : Cursor) : Cursor := c.advanceBy c.lineRest.length

def atSeparator (c : Cursor) : Bool :=
  c.column = 0 && (Text.startsWith c.rest "---" || Text.startsWith c.rest "...") &&
    endsWord (c.rest.drop 3)

end Cursor

end QueryLint.Yaml
