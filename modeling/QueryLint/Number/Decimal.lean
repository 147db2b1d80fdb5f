import QueryLint.Number

/-!
Decimal notation of numbers.

Reading takes the exact value of the digits and rounds it once. Writing uses the fewest digits that
read back as the same number, and of those the nearest: whole numbers below `2 ^ 53` are thus
written out in full. Positional notation is used from `1e-6` up to below `1e21`.
-/

namespace QueryLint
set_option autoImplicit false

/-- `digits` times the power of ten with the given exponent. -/
structure Decimal where
  digits : Nat
  exponent : Int
deriving DecidableEq

namespace Decimal

def tenPow (e : Int) : Rat := if 0 ≤ e then (Nat.pow 10 e.toNat : Rat) else mkRat 1 (Nat.pow 10 (-e).toNat)

def value (d : Decimal) : Rat := (d.digits : Rat) * tenPow d.exponent

/-- How many digits a number has in decimal notation. -/
def width (n : Nat) : Nat := (Nat.toDigits 10 n).length

def stripZeros : Nat → Decimal → Decimal
  | 0, d => d
  | fuel + 1, d =>
    if d.digits ≠ 0 && d.digits % 10 = 0 then stripZeros fuel ⟨d.digits / 10, d.exponent + 1⟩ else d

def normal (d : Decimal) : Decimal := stripZeros (width d.digits) d

/-- For a positive `q`, the exponent `p` with `10 ^ (p - 1) ≤ q < 10 ^ p`. -/
def pointOf (q : Rat) : Int :=
  if 1 ≤ q then (width q.floor.toNat : Int) else 1 - (width ((1 / q).ceil.toNat - 1) : Int)

def readsAs (q : Rat) (d : Decimal) : Bool := Number.nearest d.value = q

/-- Of the two neighbours of `q` with `count` digits, the nearer one that reads back. -/
def withDigits (q : Rat) (count : Nat) : Option Decimal :=
  let exponent := pointOf q - (count : Int)
  let below := (q / tenPow exponent).floor.toNat
  let low : Decimal := ⟨below, exponent⟩
  let high : Decimal := ⟨below + 1, exponent⟩
  match low.readsAs q, high.readsAs q with
  | true, true =>
    let down := q - low.value
    let up := high.value - q
    some (if down < up then low else if up < down then high else if below % 2 = 0 then low else high)
  | true, false => some low
  | false, true => some high
  | false, false => none

/-- The whole expansion of a magnitude whose denominator is a power of two. -/
def expansion (q : Rat) : Decimal :=
  let places := Nat.log2 q.den
  ⟨q.num.toNat * Nat.pow 5 places, -(places : Int)⟩

/-- The fewest digits that read back as `q`, which seventeen always suffice for. -/
def shortest (q : Rat) : Decimal :=
  normal (((List.range 17).findSome? fun i => withDigits q (i + 1)).getD (expansion q))

/-- A decimal as text: positional while the decimal point lies at most 21 places to the right and
6 places to the left of the first digit, with a signed exponent otherwise. -/
def toText (d : Decimal) : Text :=
  let digits := Text.ofNat d.digits
  let count : Int := digits.length
  let point : Int := d.exponent + count
  if count ≤ point && point ≤ 21 then digits ++ List.replicate (point - count).toNat ('0' : CodeUnit)
  else if 0 < point && point ≤ 21 then digits.take point.toNat ++ "." ++ digits.drop point.toNat
  else if -6 < point && point ≤ 0 then
    "0." ++ List.replicate (-point).toNat ('0' : CodeUnit) ++ digits
  else
    let power := point - 1
    let mantissa := match digits with
      | [] => []
      | [c] => [c]
      | c :: rest => [c] ++ "." ++ rest
    mantissa ++ "e" ++ (if power < 0 then "-" else "+") ++ Text.ofNat power.natAbs

end Decimal

namespace Number

/-- The number nearest to a decimal of the given sign. Exponents far out of range are settled by
the place of the first digit alone. -/
def ofDecimal (negative : Bool) (d : Decimal) : Number :=
  if d.digits = 0 then finite negative 0
  else
    let point := d.exponent + (Decimal.width d.digits : Int)
    if 400 < point then infinite negative
    else if point < -400 then finite negative 0
    else round negative d.value

def magnitudeText (m : Rat) : Text :=
  if m.den = 1 && m.num < 9007199254740992 then Text.ofNat m.num.toNat else (Decimal.shortest m).toText

def toText : Number → Text
  | nan => "NaN"
  | infinite negative => if negative then "-Infinity" else "Infinity"
  | finite negative m => if m = 0 then "0" else (if negative then "-" else "") ++ magnitudeText m

/-- Two decimal places, a half going up in magnitude; magnitudes from `1e21` on as in `toText`. -/
def toFixedTwo (x : Number) : Text :=
  match x with
  | finite negative m =>
    if Decimal.tenPow 21 ≤ m then x.toText
    else
      let hundredths := (m * 100 + 1 / 2).floor.toNat
      let places := Text.ofNat (hundredths % 100)
      (if negative && m ≠ 0 then "-" else "") ++ Text.ofNat (hundredths / 100) ++ "." ++
        (if places.length < 2 then "0" ++ places else places)
  | _ => x.toText

end Number

/-- The parts of an unsigned decimal numeral: `whole . fraction e exponent`. -/
structure Numeral where
  whole : Text
  fraction : Option Text
  exponent : Option (Bool × Text)
deriving DecidableEq

namespace Numeral

/-- The exponent part at the start of a text: a mark, a sign at choice, and at least one digit. -/
def scanExponent (t : Text) : Option (Bool × Text) × Text :=
  match t with
  | [] => (none, t)
  | mark :: rest =>
    if mark = 'e' || mark = 'E' then
      let (negative, digitsOn) := match rest with
        | [] => (false, rest)
        | sign :: more =>
          if sign = '-' then (true, more) else if sign = '+' then (false, more) else (false, rest)
      let digits := digitsOn.takeWhile CodeUnit.isDigit
      if digits.isEmpty then (none, t) else (some (negative, digits), digitsOn.dropWhile CodeUnit.isDigit)
    else (none, t)

def scan (t : Text) : Numeral × Text :=
  let whole := t.takeWhile CodeUnit.isDigit
  let rest := t.dropWhile CodeUnit.isDigit
  let (fraction, rest) : Option Text × Text := match rest with
    | [] => (none, rest)
    | c :: more =>
      if c = '.' then (some (more.takeWhile CodeUnit.isDigit), more.dropWhile CodeUnit.isDigit)
      else (none, rest)
  let (exponent, rest) := scanExponent rest
  (⟨whole, fraction, exponent⟩, rest)

/-- A numeral needs a digit before or after its point. -/
def wellFormed (n : Numeral) : Bool := !n.whole.isEmpty || !(n.fraction.getD []).isEmpty

def toDecimal (n : Numeral) : Decimal :=
  let fraction := n.fraction.getD []
  let power : Int := match n.exponent with
    | none => 0
    | some (negative, digits) =>
      if negative then -(Text.digitsValue digits : Int) else (Text.digitsValue digits : Int)
  ⟨Text.digitsValue (n.whole ++ fraction), power - (fraction.length : Int)⟩

def ofText? (t : Text) : Option Numeral :=
  match scan t with
  | (n, []) => if n.wellFormed then some n else none
  | _ => none

end Numeral

namespace Number

/-- A numeric literal: a numeral with a minus sign at choice. -/
def ofLiteral? (t : Text) : Option Number :=
  match t with
  | [] => none
  | c :: rest =>
    if c = '-' then (Numeral.ofText? rest).map fun n => ofDecimal true n.toDecimal
    else (Numeral.ofText? t).map fun n => ofDecimal false n.toDecimal

/-- The base marked by `0x`, `0o` or `0b` at the start of a text, and the units behind the mark. -/
def based? : Text → Option (Nat × Text)
  | zero :: mark :: digits =>
    if zero ≠ '0' then none
    else if mark = 'x' || mark = 'X' then some (16, digits)
    else if mark = 'o' || mark = 'O' then some (8, digits)
    else if mark = 'b' || mark = 'B' then some (2, digits)
    else none
  | _ => none

def ofUnsigned (negative : Bool) (t : Text) : Number :=
  if t = "Infinity" then infinite negative
  else match Numeral.ofText? t with
    | some n => ofDecimal negative n.toDecimal
    | none => nan

/-- The liberal reading of a text as a number: white space around it is dropped, nothing is zero,
either sign and the marks `0x`, `0o` and `0b` are understood. -/
def ofText (t : Text) : Number :=
  match Text.trim t with
  | [] => 0
  | c :: rest =>
    if c = '-' then ofUnsigned true rest
    else if c = '+' then ofUnsigned false rest
    else match based? (c :: rest) with
      | some (base, digits) =>
        if digits.isEmpty then nan
        else ((Text.toNatBase? base digits).map ofNat).getD nan
      | none => ofUnsigned false (c :: rest)

end Number
end QueryLint
