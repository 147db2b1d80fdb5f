import QueryLint.Payload.Value

/-!
Durations: a decimal number and a unit at choice, `300000`, `5m`, `1.5h`. Without a unit the number
counts milliseconds. Only positive durations are durations.
-/

namespace QueryLint
set_option autoImplicit false

inductive TimeUnit where
  | week
  | day
  | hour
  | minute
  | second
  | millisecond
deriving DecidableEq, Repr

namespace TimeUnit

def milliseconds : TimeUnit → Nat
  | week => 604800000
  | day => 86400000
  | hour => 3600000
  | minute => 60000
  | second => 1000
  | millisecond => 1

def symbol : TimeUnit → Text
  | week => "w"
  | day => "d"
  | hour => "h"
  | minute => "m"
  | second => "s"
  | millisecond => "ms"

def all : List TimeUnit := [week, day, hour, minute, second, millisecond]

/-- The unit of a symbol in either case. Only the letters A to Z have a case here. -/
def ofSymbol? (t : Text) : Option TimeUnit :=
  let lowered := t.map fun c => if c.isUpper then c + 32 else c
  all.find? fun unit => unit.symbol = lowered

end TimeUnit

namespace Duration

def split? (t : Text) : Option (Number × TimeUnit) :=
  let whole := t.takeWhile CodeUnit.isDigit
  let behindWhole := t.dropWhile CodeUnit.isDigit
  let (fraction, rest) : Option Text × Text := match behindWhole with
    | [] => (none, [])
    | c :: more =>
      if c = '.' then (some (more.takeWhile CodeUnit.isDigit), more.dropWhile CodeUnit.isDigit)
      else (none, behindWhole)
  if whole.isEmpty || fraction = some [] then none
  else
    let number := Number.ofDecimal false (Numeral.toDecimal ⟨whole, fraction, none⟩)
    let unit := rest.dropWhile CodeUnit.isSpace
    if unit.isEmpty then some (number, .millisecond)
    else (TimeUnit.ofSymbol? unit).map fun u => (number, u)

def positive? (ms : Number) : Option Number := if ms.isPositive then some ms else none

def ofText? (t : Text) : Option Number :=
  match split? (Text.trim t) with
  | some (number, unit) => positive? (number * Number.ofNat unit.milliseconds)
  | none => none

/-- The milliseconds of a payload value: a number counts as it is, other scalars by their text. -/
def ofValue? : Value → Option Number
  | .number value _ => positive? value
  | v => v.text?.bind ofText?

def fits (ms : Number) (unit : TimeUnit) : Bool :=
  let size := Number.ofNat unit.milliseconds
  size.le ms && (ms % size).isZero

def toText (ms : Number) : Text :=
  match [TimeUnit.week, .day, .hour, .minute, .second].find? (fits ms) with
  | some unit => (ms / Number.ofNat unit.milliseconds).toText ++ unit.symbol
  | none => ms.toText ++ TimeUnit.symbol .millisecond

end Duration
end QueryLint
