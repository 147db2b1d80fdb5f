import QueryLint.Payload.Value

/-!
Lexemes of a payload.

A payload consists of marks, quoted literals and words, with white space between them at choice. A
word may hold a group in parentheses, which hides every unit up to its closing parenthesis on the
same line. Cutting stops at the first literal or group that is never closed; the lexeme then tells
what is broken, so that the fault is raised only where a value or a key was expected.
-/

namespace QueryLint.Payload
set_option autoImplicit false

/-- The units that stand for themselves between literals. -/
inductive Mark where
  | openBrace
  | closeBrace
  | openSquare
  | closeSquare
  | comma
  | colon
deriving DecidableEq, Repr

def Mark.unit : Mark → CodeUnit
  | openBrace => '\x7b'
  | closeBrace => '\x7d'
  | openSquare => '['
  | closeSquare => ']'
  | comma => ','
  | colon => ':'

def Mark.ofUnit? (c : CodeUnit) : Option Mark :=
  if c = '\x7b' then some openBrace
  else if c = '\x7d' then some closeBrace
  else if c = '[' then some openSquare
  else if c = ']' then some closeSquare
  else if c = ',' then some comma
  else if c = ':' then some colon
  else none

def quoteOf (c : CodeUnit) : Quote := if c = '\'' then .single else .double

inductive Lexeme where
  | mark (mark : Mark)
  | quoted (quote : Quote) (text : Text)
  | word (text : Text)
  /-- A quote without its partner on the line. -/
  | openQuote (quote : Quote)
  /-- A word that starts with the unit `first` and opens a group, `groupAt` units into the payload,
  that the line does not close. -/
  | openGroup (first : CodeUnit) (groupAt : Nat)
deriving DecidableEq, Repr

def Lexeme.firstUnit : Lexeme → CodeUnit
  | mark m => m.unit
  | quoted .single _ => '\''
  | quoted .double _ => '"'
  | word text => text.headD 0
  | openQuote .single => '\''
  | openQuote .double => '"'
  | openGroup first _ => first

structure Placed where
  offset : Nat
  lexeme : Lexeme
deriving DecidableEq, Repr

def unescape (c : CodeUnit) : CodeUnit :=
  if c = 'n' then 10 else if c = 'r' then 13 else if c = 't' then 9 else c

/-- The text of a literal behind its opening quote and the length of what was read, the closing
quote with it. -/
def quotedBody (quote : CodeUnit) : Text → Option (Text × Nat)
  | [] => none
  | c :: rest =>
    if c = '\n' then none
    else if c = quote then some ([], 1)
    else if c = '\\' then
      match rest with
      | [] => none
      | d :: rest => (quotedBody quote rest).map fun (text, n) => (unescape d :: text, n + 2)
    else (quotedBody quote rest).map fun (text, n) => (c :: text, n + 1)

def endsWord (c : CodeUnit) : Bool := c.isLayout || c.isQuote || (Mark.ofUnit? c).isSome

/-- The rest of a group behind its opening parenthesis, the closing one with it; `depth` counts the
parentheses open inside it. -/
def groupBody (depth : Nat) : Text → Option Text
  | [] => none
  | c :: rest =>
    if c = '\n' then none
    else if c = '(' then (groupBody (depth + 1) rest).map (c :: ·)
    else if c = ')' then
      match depth with
      | 0 => some [c]
      | depth + 1 => (groupBody depth rest).map (c :: ·)
    else (groupBody depth rest).map (c :: ·)

/-- A word at the start of a text, or the offset of its first group that is never closed. -/
def wordBody (t : Text) : Except Nat Text :=
  match t with
  | [] => .ok []
  | c :: rest =>
    if endsWord c then .ok []
    else if c = '(' then
      match groupBody 0 rest with
      | none => .error 0
      | some group =>
        match wordBody (rest.drop group.length) with
        | .ok word => .ok (c :: group ++ word)
        | .error n => .error (n + group.length + 1)
    else
      match wordBody rest with
      | .ok word => .ok (c :: word)
      | .error n => .error (n + 1)
termination_by t.length
decreasing_by
  · simp only [List.length_drop, List.length_cons]; omega
  · simp

def lexemes (offset : Nat) (t : Text) : List Placed :=
  match t with
  | [] => []
  | c :: rest =>
    if c.isLayout then lexemes (offset + 1) rest
    else match Mark.ofUnit? c with
    | some mark => ⟨offset, .mark mark⟩ :: lexemes (offset + 1) rest
    | none =>
      if c.isQuote then
        match quotedBody c rest with
        | none => [⟨offset, .openQuote (quoteOf c)⟩]
        | some (text, n) =>
          ⟨offset, .quoted (quoteOf c) text⟩ :: lexemes (offset + 1 + n) (rest.drop n)
      else
        match wordBody (c :: rest) with
        | .error n => [⟨offset, .openGroup c (offset + n)⟩]
        | .ok word => ⟨offset, .word word⟩ :: lexemes (offset + word.length) (rest.drop (word.length - 1))
termination_by t.length
decreasing_by
  · simp
  · simp
  · simp only [List.length_drop, List.length_cons]; omega
  · simp only [List.length_drop, List.length_cons]; omega

end QueryLint.Payload
