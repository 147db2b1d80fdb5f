import QueryLint.CommandLine.Arguments
import QueryLint.Issue

/-!
Colours on a terminal. A palette is switched on or off as a whole, by the arguments, then by the
environment, and otherwise by whether the output goes to a terminal.
-/

namespace QueryLint.CommandLine
set_option autoImplicit false

inductive Style where
  | reset
  | bold
  | dim
  | red
  | green
  | yellow
  | cyan
  | gray
deriving DecidableEq, Repr

def Style.number : Style → Nat
  | reset => 0
  | bold => 1
  | dim => 2
  | red => 31
  | green => 32
  | yellow => 33
  | cyan => 36
  | gray => 90

structure Palette where
  enabled : Bool
deriving DecidableEq, Repr

namespace Palette

def sequence (p : Palette) (style : Style) : Text :=
  if p.enabled then "\x1b[" ++ Text.ofNat style.number ++ "m" else []

def paint (p : Palette) (styles : List Style) (t : Text) : Text :=
  if p.enabled then styles.flatMap p.sequence ++ t ++ p.sequence .reset else t

def severityStyle : Severity → Style
  | .critical => .red
  | .warning => .yellow
  | .info => .cyan

/-- The titles of a report, in bold and in the colour of their severity. -/
def decorate (p : Palette) (severity : Severity) (t : Text) : Text :=
  p.paint [.bold, severityStyle severity] t

/-- The arguments that can switch colours: those in front of a bare `--`. -/
def considered (arguments : List Text) : List Text :=
  arguments.takeWhile fun argument => argument ≠ dashes

def isWanted (arguments : List Text) (environment : Record Text) (isTerminal : Bool) : Bool :=
  let given (switch : Switch) : Bool := (considered arguments).contains (dashes ++ switch.word)
  let isSet (name : Text) : Bool := Record.get? environment name = some "1"
  if given .noColor || isSet "NO_COLOR" then false
  else given .color || isSet "FORCE_COLOR" || isTerminal

end Palette
end QueryLint.CommandLine
