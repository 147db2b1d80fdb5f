import QueryLint.Text

/-!
Where a bracketed payload ends.

The scanner walks from an opening bracket over nested brackets. Quotes hide brackets, a backslash
inside quotes hides the next unit, and a line break that is not hidden ends a quote. The payload
ends with the bracket that brings the depth back to zero. When no such bracket comes, the payload
is cut before the first line in it that starts a command, or else runs to the end of the text.
-/

namespace QueryLint
set_option autoImplicit false

inductive Bracket where
  | brace
  | square
deriving DecidableEq, Repr

namespace Bracket

def opening : Bracket → CodeUnit
  | brace => '\x7b'
  | square => '['

def closing : Bracket → CodeUnit
  | brace => '\x7d'
  | square => ']'

def ofOpening? (c : CodeUnit) : Option Bracket :=
  if c = brace.opening then some brace else if c = square.opening then some square else none

def ofClosing? (c : CodeUnit) : Option Bracket :=
  if c = brace.closing then some brace else if c = square.closing then some square else none

end Bracket

namespace Delimiter

inductive Fault where
  | mismatched (expected found : Bracket)
  | unclosed (bracket : Bracket)
deriving DecidableEq, Repr

def Fault.message : Fault → Text
  | mismatched expected found =>
    "Mismatched delimiter: expected '" ++ [expected.closing] ++ "' but found '" ++ [found.closing] ++ "'"
  | unclosed bracket => "Unclosed '" ++ [bracket.opening] ++ "'"

structure Extent where
  length : Nat
  fault : Option Fault
deriving DecidableEq, Repr

/-- The scanner between two units: the open brackets, innermost first and at least one; the quote
that hides them; the first mismatch with its offset; the first line break before a command. -/
structure Scan where
  top : Bracket
  below : List Bracket
  quote : Option CodeUnit
  mismatch : Option (Nat × Fault)
  boundary : Option Nat

namespace Scan

def start (bracket : Bracket) : Scan := ⟨bracket, [], none, none, none⟩

/-- The outcome when the text ends with brackets open: a mismatch counts if it lies in the payload. -/
def unfinished (s : Scan) (passed : Nat) : Extent :=
  let length := s.boundary.getD passed
  match s.mismatch with
  | some (offset, fault) => ⟨length, some (if offset < length then fault else .unclosed s.top)⟩
  | none => ⟨length, some (.unclosed s.top)⟩

/-- The first mismatch, once the closing bracket `found` has been seen. -/
def mismatchWith (s : Scan) (passed : Nat) (found : Bracket) : Option (Nat × Fault) :=
  match s.mismatch with
  | some seen => some seen
  | none => if found = s.top then none else some (passed, .mismatched s.top found)

def run (startsCommand : Text → Bool) (passed : Nat) (s : Scan) : Text → Extent
  | [] => s.unfinished passed
  | c :: rest =>
    if c = '\n' then
      let boundary := match s.boundary with
        | some offset => some offset
        | none => if startsCommand rest then some passed else none
      run startsCommand (passed + 1) { s with quote := none, boundary } rest
    else match s.quote with
    | some quote =>
      if c = '\\' then
        match rest with
        | [] => s.unfinished (passed + 1)
        | _ :: rest => run startsCommand (passed + 2) s rest
      else run startsCommand (passed + 1) { s with quote := if c = quote then none else some quote } rest
    | none =>
      if c.isQuote then run startsCommand (passed + 1) { s with quote := some c } rest
      else match Bracket.ofOpening? c with
      | some bracket =>
        run startsCommand (passed + 1) { s with top := bracket, below := s.top :: s.below } rest
      | none =>
        match Bracket.ofClosing? c with
        | none => run startsCommand (passed + 1) s rest
        | some found =>
          let mismatch := s.mismatchWith passed found
          match s.below with
          | [] => ⟨passed + 1, mismatch.map (·.2)⟩
          | top :: below => run startsCommand (passed + 1) { s with top, below, mismatch } rest

end Scan

/-- The payload that opens with `bracket` and goes on with `rest`; `startsCommand` tells of the
text at the start of a line whether it starts a command. -/
def extent (startsCommand : Text → Bool) (bracket : Bracket) (rest : Text) : Extent :=
  Scan.run startsCommand 1 (.start bracket) rest

end Delimiter
end QueryLint
