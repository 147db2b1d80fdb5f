import QueryLint.Delimiter

/-!
Command tokens of a query text.

A text is cut into chunks: white space and comments that are skipped, stray lines that cannot start
a command, and clauses. A clause is a command name and its payload, which is either bracketed and
may span lines, or the rest of the line. The chunks of a text concatenate to the text, so the
position of a token follows from the chunks before it. Cutting never fails.
-/

namespace QueryLint
set_option autoImplicit false

structure PayloadText where
  text : Text
  bracketed : Bool
  fault : Option Delimiter.Fault
deriving DecidableEq, Repr

/-- A command name, the blanks behind it, its payload, and what else was passed with them. -/
structure Clause where
  name : Text
  gap : Text
  payload : Option PayloadText
  tail : Text
deriving DecidableEq, Repr

def Clause.text (c : Clause) : Text :=
  c.name ++ c.gap ++ (c.payload.map (·.text)).getD [] ++ c.tail

inductive Chunk where
  | skipped (text : Text)
  | stray (line : Text)
  | clause (clause : Clause)
deriving DecidableEq, Repr

def Chunk.text : Chunk → Text
  | skipped text => text
  | stray line => line
  | clause c => c.text

namespace Chunk

def isNameStart (c : CodeUnit) : Bool := c.isLetter

def isNameUnit (c : CodeUnit) : Bool := c.isLetter || c.isDigit || c = '_' || c = '-'

def startsLineComment (t : Text) : Bool :=
  Text.startsWith t "#" || Text.startsWith t "//" || Text.startsWith t "--"

def startsBlockComment (t : Text) : Bool := Text.startsWith t "/*"

def startsComment (t : Text) : Bool := startsLineComment t || startsBlockComment t

def throughCommentEnd : Text → Text
  | [] => []
  | [c] => [c]
  | c :: d :: rest =>
    if c = '*' && d = '/' then [c, d] else c :: throughCommentEnd (d :: rest)

/-- Whether a command stands at the start of a line: a keyword that no colon or comma follows, which
would make it the key or an item of a payload. -/
def startsCommand (isKeyword : Text → Bool) (line : Text) : Bool :=
  let t := line.dropWhile CodeUnit.isBlank
  match t with
  | [] => false
  | c :: _ =>
    if !isNameStart c then false
    else
      let word := t.takeWhile isNameUnit
      match (t.dropWhile isNameUnit).dropWhile CodeUnit.isBlank with
      | [] => isKeyword word
      | d :: _ => if d = ':' || d = ',' then false else isKeyword word

/-- A line up to a comment that stands behind a blank and outside quotes. -/
def beforeComment (quote : Option CodeUnit) (behindBlank : Bool) : Text → Text
  | [] => []
  | c :: rest =>
    match quote with
    | some q =>
      if c = '\\' then
        match rest with
        | [] => [c]
        | d :: rest => c :: d :: beforeComment quote d.isBlank rest
      else c :: beforeComment (if c = q then none else some q) c.isBlank rest
    | none =>
      if c.isQuote then c :: beforeComment (some c) false rest
      else if behindBlank && startsComment (c :: rest) then []
      else c :: beforeComment none c.isBlank rest

/-- The content of a line: no comment behind it and no white space at its end. -/
def lineContent (line : Text) : Text := Text.trimEnd (beforeComment none false line)

/-- How much of the line behind a balanced payload belongs to the payload: its content, unless that
is a comment or nothing. -/
def trailingLength (line : Text) : Nat :=
  let trimmed := Text.trim line
  if trimmed.isEmpty || startsComment trimmed then 0 else (lineContent line).length

/-- The clause of a bracketed payload; `t` is the text from the opening bracket on. -/
def bracketedClause (isKeyword : Text → Bool) (name gap : Text) (bracket : Bracket) (t : Text) :
    Clause :=
  let extent := Delimiter.extent (startsCommand isKeyword) bracket (t.drop 1)
  let length := match extent.fault with
    | some _ => extent.length
    | none => extent.length + trailingLength (Text.firstLine (t.drop extent.length))
  let raw := t.take length
  let text := Text.trimEnd raw
  ⟨name, gap, some ⟨text, true, extent.fault⟩, raw.drop text.length⟩

def lineClause (name gap line : Text) : Clause :=
  let text := lineContent line
  ⟨name, gap, if text.isEmpty then none else some ⟨text, false, none⟩, line.drop text.length⟩

def clauseAt (isKeyword : Text → Bool) (t : Text) : Clause :=
  let name := t.takeWhile isNameUnit
  let behind := t.dropWhile isNameUnit
  let gap := behind.takeWhile CodeUnit.isBlank
  let rest := behind.dropWhile CodeUnit.isBlank
  match rest with
  | [] => ⟨name, [], none, []⟩
  | c :: _ =>
    match Bracket.ofOpening? c with
    | some bracket => bracketedClause isKeyword name gap bracket rest
    | none =>
      if c = '\n' || c = '\r' || startsComment rest then ⟨name, [], none, []⟩
      else lineClause name gap (Text.firstLine rest)

def first (isKeyword : Text → Bool) (c : CodeUnit) (rest : Text) : Chunk :=
  if c.isLayout then skipped [c]
  else if startsLineComment (c :: rest) then skipped (Text.firstLine (c :: rest))
  else if startsBlockComment (c :: rest) then
    skipped ((c :: rest).take 2 ++ throughCommentEnd (rest.drop 1))
  else if !isNameStart c then stray (Text.firstLine (c :: rest))
  else clause (clauseAt isKeyword (c :: rest))

/-- The chunks of a text. Each takes at least the first unit of what is left. -/
def ofText (isKeyword : Text → Bool) (t : Text) : List Chunk :=
  match t with
  | [] => []
  | c :: rest =>
    let chunk := first isKeyword c rest
    chunk :: ofText isKeyword (rest.drop (chunk.text.length - 1))
termination_by t.length
decreasing_by simp only [List.length_drop, List.length_cons]; omega

end Chunk

structure RawPayload where
  text : Text
  start : Position
  bracketed : Bool
deriving DecidableEq, Repr

/-- A command name with its payload. The token ends at the offset `stop`. -/
structure Token where
  name : Text
  start : Position
  stop : Nat
  payload : Option RawPayload
  fault : Option Delimiter.Fault
deriving DecidableEq, Repr

/-- A line that cannot start a command; `after` is the index of the last token before it. -/
structure Stray where
  text : Text
  start : Position
  after : Option Nat
deriving DecidableEq, Repr

structure Tokens where
  tokens : List Token
  strays : List Stray
deriving DecidableEq, Repr

namespace Token

def ofClause (p : Position) (c : Clause) : Token :=
  let nameEnd := p.after c.name
  match c.payload with
  | none => ⟨c.name, p, nameEnd.offset, none, none⟩
  | some payload =>
    let start := nameEnd.after c.gap
    ⟨c.name, p, start.offset + payload.text.length, some ⟨payload.text, start, payload.bracketed⟩,
      payload.fault⟩

end Token

namespace Tokens

def ofChunks (p : Position) (count : Nat) : List Chunk → Tokens
  | [] => ⟨[], []⟩
  | chunk :: chunks =>
    match chunk with
    | .skipped text => ofChunks (p.after text) count chunks
    | .stray line =>
      let rest := ofChunks (p.after line) count chunks
      let after := if count = 0 then none else some (count - 1)
      { rest with strays := ⟨Text.trimEnd line, p, after⟩ :: rest.strays }
    | .clause c =>
      let rest := ofChunks (p.after c.text) (count + 1) chunks
      { rest with tokens := Token.ofClause p c :: rest.tokens }

/-- The tokens and strays of a text. Keywords matter only where a payload is never closed. -/
def ofText (isKeyword : Text → Bool) (t : Text) : Tokens :=
  ofChunks Position.start 0 (Chunk.ofText isKeyword t)

end Tokens
end QueryLint
