import QueryLint.Yaml.Cursor

/-!
The styles in which a document writes the text of a scalar: plain, in single or double quotes, and as
a literal or folded block.

Plain and quoted scalars may run over several lines. White space around a line break is dropped
there, one break stands for a space, and of more breaks all but the first are kept.
-/

namespace QueryLint.Yaml
set_option autoImplicit false

/-- What line breaks inside a scalar stand for: a space if there is one, else all but the first. -/
def folded (breaks : Nat) : Text :=
  if breaks = 1 then " " else List.replicate (breaks - 1) (10 : CodeUnit)

def startsPlainScalar (inFlow : Bool) (t : Text) : Bool :=
  match t with
  | [] => false
  | c :: rest =>
    if isSpaceOrBreak c || isFlowMark c || List.elem c ("#&*!|>'\"%@`" : Text) then false
    else if c = '?' || c = '-' then
      match rest with
      | [] => false
      | d :: _ => !(isSpaceOrBreak d || (inFlow && isFlowMark d))
    else true

/-- Scalar values that no document may hold outside quotes. -/
def isForbidden (n : Nat) : Bool :=
  n ≤ 0x08 || n = 0x0B || n = 0x0C || (0x0E ≤ n && n ≤ 0x1F) || (0x7F ≤ n && n ≤ 0x84) ||
    (0x86 ≤ n && n ≤ 0x9F) || n = 0xFFFE || n = 0xFFFF || (0xD800 ≤ n && n ≤ 0xDFFF)

def hasForbidden (t : Text) : Bool := (Text.scalars t).any isForbidden

/-- Reads on in a plain scalar. `out` has been read, `gap` is white space behind it, and `breaks`
counts line breaks behind it. Lines go on as long as they are indented enough. -/
def plainBody (indent : Nat) (inFlow : Bool) :
    Nat → (out gap : Text) → (breaks : Nat) → Cursor → Text × Cursor
  | 0, out, _, _, c => (out, c)
  | fuel + 1, out, gap, breaks, c =>
    match c.rest with
    | [] => (out, c)
    | u :: rest =>
      let endsHere :=
        if u = ':' then endsWord rest || (inFlow && (rest.head?.map isFlowMark).getD false)
        else if u = '#' then (c.previous.map isSpaceOrBreak).getD true
        else c.atSeparator || (inFlow && isFlowMark u)
      if endsHere then (out, c)
      else if isBreak u then
        let (n, next) := c.skipBreaks
        if indent ≤ next.indent then plainBody indent inFlow fuel out [] n next else (out, c)
      else if breaks = 0 && u.isBlank then
        plainBody indent inFlow fuel out (gap ++ [u]) 0 c.advance
      else
        let joined := if breaks = 0 then out ++ gap else out ++ folded breaks
        plainBody indent inFlow fuel (joined ++ [u]) [] 0 c.advance

/-- A plain scalar, which is never empty. None means that the text is no document; nothing found
leaves the cursor where it was. -/
def plainScalar? (indent : Nat) (inFlow : Bool) (c : Cursor) : Option (Option (Text × Cursor)) :=
  if startsPlainScalar inFlow c.rest then
    let (text, next) := plainBody indent inFlow (c.rest.length + 1) [] [] 0 c
    if text.isEmpty then some none
    else if hasForbidden text then none
    else some (some (text, next))
  else some none

/-- Reads on behind a single quote; two quotes stand for one. `gap` is white space behind what has
been read. -/
def singleBody : Nat → (out gap : Text) → Cursor → Option (Text × Cursor)
  | 0, _, _, _ => none
  | fuel + 1, out, gap, c =>
    match c.rest with
    | [] => none
    | u :: rest =>
      if u = '\'' then
        if Text.startsWith rest "'" then singleBody fuel (out ++ gap ++ [u]) [] c.advance.advance
        else some (out ++ gap, c.advance)
      else if isBreak u then
        let (n, next) := c.skipBreaks
        singleBody fuel (out ++ folded n) [] next
      else if c.atSeparator || (u < 0x20 && u ≠ '\t') then none
      else if u.isBlank then singleBody fuel out (gap ++ [u]) c.advance
      else singleBody fuel (out ++ gap ++ [u]) [] c.advance

def singleQuoted? (c : Cursor) : Option (Text × Cursor) := singleBody c.rest.length [] [] c.advance

/-- The number of hexadecimal digits behind an escape. -/
def hexWidth? (c : CodeUnit) : Option Nat :=
  if c = 'x' then some 2 else if c = 'u' then some 4 else if c = 'U' then some 8 else none

/-- What an escape with hexadecimal digits stands for. A number that does not fit into 31 bits keeps
only its last sixteen. -/
def ofHexEscape (n : Nat) : Text := if n < 0x80000000 then CodeUnit.ofScalar n else [n.toUInt16]

def shortEscape? (c : CodeUnit) : Option CodeUnit :=
  ([('0', 0), ('a', 7), ('b', 8), ('t', 9), ('\t', 9), ('n', 10), ('v', 11), ('f', 12), ('r', 13),
    ('e', 27), (' ', 32), ('"', 34), ('/', 47), ('\\', 92), ('N', 0x85), ('_', 0xA0), ('L', 0x2028),
    ('P', 0x2029)].find? fun entry => CodeUnit.ofChar entry.1 = c).map (·.2)

/-- The escape whose backslash comes next, and what it stands for. A line break that is escaped stands
for nothing. -/
def escaped? (c : Cursor) : Option (Text × Cursor) :=
  match c.rest.drop 1 with
  | [] => none
  | e :: more =>
    if isBreak e then some ([], c.advance.skipBreaks.2)
    else match hexWidth? e with
      | some width =>
        let digits := more.take width
        if digits.length < width then none
        else (Text.toNatBase? 16 digits).map fun n => (ofHexEscape n, c.advanceBy (width + 2))
      | none => (shortEscape? e).map fun unit => ([unit], c.advanceBy 2)

def doubleBody : Nat → (out gap : Text) → Cursor → Option (Text × Cursor)
  | 0, _, _, _ => none
  | fuel + 1, out, gap, c =>
    match c.rest with
    | [] => none
    | u :: _ =>
      if u = '"' then some (out ++ gap, c.advance)
      else if u = '\\' then
        match escaped? c with
        | none => none
        | some (t, next) => doubleBody fuel (out ++ gap ++ t) [] next
      else if isBreak u then
        let (n, next) := c.skipBreaks
        doubleBody fuel (out ++ folded n) [] next
      else if c.atSeparator || (u < 0x20 && u ≠ '\t') then none
      else if u.isBlank then doubleBody fuel out (gap ++ [u]) c.advance
      else doubleBody fuel (out ++ gap ++ [u]) [] c.advance

def doubleQuoted? (c : Cursor) : Option (Text × Cursor) := doubleBody c.rest.length [] [] c.advance

/-- What becomes of the line breaks at the end of a block scalar: one is kept, none, or all. -/
inductive Chomping where
  | clip
  | strip
  | keep
deriving DecidableEq

/-- The head of a block scalar: whether its lines are folded, what becomes of its last line breaks, and
by how much it is indented. -/
structure BlockHead where
  isFolded : Bool
  chomping : Chomping := .clip
  width : Option Nat := none

namespace BlockHead

def takeMarks : Nat → BlockHead → Cursor → Option (BlockHead × Cursor)
  | 0, _, _ => none
  | fuel + 1, head, c =>
    match c.rest with
    | [] => some (head, c)
    | u :: _ =>
      if u = '+' || u = '-' then
        if head.chomping ≠ .clip then none
        else takeMarks fuel { head with chomping := if u = '+' then .keep else .strip } c.advance
      else if u.isDigit then
        if u = '0' || head.width.isSome then none
        else takeMarks fuel { head with width := some (u.toNat - 48) } c.advance
      else some (head, c)

/-- Takes the whole head up to the end of its line, where a comment may stand behind blanks. -/
def take? (c : Cursor) : Option (BlockHead × Cursor) :=
  (takeMarks c.rest.length ⟨c.isAt '>', .clip, none⟩ c.advance).bind fun (head, c) =>
    let behind := c.skipBlanks
    let behind := if behind.column ≠ c.column && behind.isAt '#' then behind.skipLine else behind
    if behind.lineRest.isEmpty then some (head, behind) else none

end BlockHead

/-- What has been read of a block scalar: its text without the last line breaks, the indentation of its
lines and whether that is settled, the empty lines behind the text, whether there was a line that is
not empty, and whether the last such line was indented further. -/
structure BlockText where
  out : Text := []
  indent : Nat
  settled : Bool
  emptyLines : Nat := 0
  hasContent : Bool := false
  indentedMore : Bool := false

namespace BlockText

def breaks (n : Nat) : Text := List.replicate n (10 : CodeUnit)

def keptBreaks (b : BlockText) : Text := breaks (if b.hasContent then b.emptyLines + 1 else b.emptyLines)

/-- What stands between the text and a further line. In a folded block the breaks around a line that is
indented further are kept. -/
def between (head : BlockHead) (b : BlockText) (line : Text) : Text :=
  if !head.isFolded || (line.head?.map CodeUnit.isBlank).getD false then b.keptBreaks
  else if b.indentedMore then breaks (b.emptyLines + 1)
  else if b.emptyLines = 0 then (if b.hasContent then " " else [])
  else breaks b.emptyLines

def addLine (head : BlockHead) (b : BlockText) (line : Text) : BlockText :=
  { b with
    out := b.out ++ b.between head line ++ line
    settled := true
    emptyLines := 0
    hasContent := true
    indentedMore := head.isFolded && (line.head?.map CodeUnit.isBlank).getD false }

/-- The whole text, with the line breaks at its end as the head says. -/
def finished (head : BlockHead) (b : BlockText) : Text :=
  b.out ++ match head.chomping with
    | .keep => b.keptBreaks
    | .clip => if b.hasContent then breaks 1 else []
    | .strip => []

end BlockText

/-- Reads the lines of a block scalar from the end of the line before on. The first line that is not
empty settles the indentation unless the head does, and has to be indented; the first that is indented
less ends the scalar. -/
def blockBody (head : BlockHead) : Nat → BlockText → Cursor → Option (Text × Cursor)
  | 0, _, _ => none
  | fuel + 1, b, c =>
    if c.rest.isEmpty then some (b.out, c)
    else
      let start := c.newLine
      let spaces := (start.rest.takeWhile fun u => u = (32 : CodeUnit)).length
      let taken := if b.settled then min spaces b.indent else spaces
      let line := { start.advanceBy taken with indent := taken }
      let b := if b.settled then b else { b with indent := max b.indent taken }
      if (line.rest.head?.map isBreak).getD false then
        blockBody head fuel { b with emptyLines := b.emptyLines + 1 } line
      else if !b.settled && b.indent = 0 then none
      else if taken < b.indent then some (b.finished head, line)
      else if hasForbidden line.lineRest then none
      else blockBody head fuel (b.addLine head line.lineRest) line.skipLine

/-- A block scalar, whose first mark comes next, at the least indentation of its place. -/
def blockScalar? (indent : Nat) (c : Cursor) : Option (Text × Cursor) :=
  (BlockHead.take? c).bind fun (head, c) =>
    let b : BlockText := match head.width with
      | some width => { indent := indent + width - 1, settled := true }
      | none => { indent, settled := false }
    blockBody head (c.rest.length + 1) b c

end QueryLint.Yaml
