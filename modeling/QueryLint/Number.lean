import QueryLint.Text

/-!
Binary floating-point numbers with 53 bits of precision, in exact arithmetic.

A finite number is a sign and a nonnegative rational magnitude. Every operation computes its exact
rational result and rounds it once, to the nearest number of the format and on a tie to the one
whose last bit is zero. The sign of zero is kept: it shows in some printed forms.
-/

namespace QueryLint
set_option autoImplicit false

inductive Number where
  | nan
  | infinite (negative : Bool)
  | finite (negative : Bool) (magnitude : Rat)
deriving DecidableEq

namespace Number

def twoPow (e : Int) : Rat := if 0 ≤ e then (Nat.pow 2 e.toNat : Rat) else mkRat 1 (Nat.pow 2 (-e).toNat)

/-- The greatest `e` with `2 ^ e ≤ q`, for a positive `q`. -/
def binaryExponent (q : Rat) : Int :=
  let e : Int := (Nat.log2 q.num.toNat : Int) - (Nat.log2 q.den : Int)
  if twoPow e ≤ q then e else e - 1

/-- The distance between neighbouring numbers at a positive magnitude. -/
def spacing (q : Rat) : Rat := twoPow (max (binaryExponent q - 52) (-1074))

/-- The nearest integer; a half goes to the even neighbour. -/
def roundEven (q : Rat) : Int :=
  let below := q.floor
  let part := q - (below : Rat)
  if part < 1 / 2 then below
  else if 1 / 2 < part then below + 1
  else if below % 2 = 0 then below else below + 1

/-- The nearest magnitude on the grid of the format, overflow not yet considered. -/
def nearest (q : Rat) : Rat := if q = 0 then 0 else (roundEven (q / spacing q) : Rat) * spacing q

/-- The least magnitude that is too large for the format. -/
def overflowBound : Rat := twoPow 1024

/-- The number next to an exact result of the given sign and magnitude. -/
def round (negative : Bool) (q : Rat) : Number :=
  if overflowBound ≤ nearest q then infinite negative else finite negative (nearest q)

def ofRat (q : Rat) : Number := if q < 0 then round true (-q) else round false q

def ofNat (n : Nat) : Number := round false (n : Rat)

def ofInt (n : Int) : Number := ofRat (n : Rat)

instance (n : Nat) : OfNat Number n := ⟨ofNat n⟩

def value : Number → Rat
  | finite true m => -m
  | finite false m => m
  | _ => 0

def isNegative : Number → Bool
  | nan => false
  | infinite negative => negative
  | finite negative _ => negative

def isFinite : Number → Bool
  | finite _ _ => true
  | _ => false

def isZero : Number → Bool
  | finite _ m => m = 0
  | _ => false

def isInteger : Number → Bool
  | finite _ m => m.den = 1
  | _ => false

def neg : Number → Number
  | nan => nan
  | infinite negative => infinite !negative
  | finite negative m => finite (!negative) m

/-- The sum. Opposite numbers add up to positive zero. -/
def add : Number → Number → Number
  | nan, _ => nan
  | _, nan => nan
  | infinite s, infinite t => if s = t then infinite s else nan
  | infinite s, finite _ _ => infinite s
  | finite _ _, infinite t => infinite t
  | finite s m, finite t n =>
    let sum := (finite s m).value + (finite t n).value
    if sum = 0 then finite (s && t) 0 else ofRat sum

def sub (x y : Number) : Number := add x (neg y)

def mul : Number → Number → Number
  | nan, _ => nan
  | _, nan => nan
  | finite s m, finite t n => round (s != t) (m * n)
  | x, y => if x.isZero || y.isZero then nan else infinite (x.isNegative != y.isNegative)

def div : Number → Number → Number
  | nan, _ => nan
  | _, nan => nan
  | infinite _, infinite _ => nan
  | infinite s, finite t _ => infinite (s != t)
  | finite s _, infinite t => finite (s != t) 0
  | finite s m, finite t n =>
    if n = 0 then (if m = 0 then nan else infinite (s != t)) else round (s != t) (m / n)

/-- The remainder of division toward zero; it has the sign of the dividend. -/
def rem : Number → Number → Number
  | finite s m, finite _ n => if n = 0 then nan else finite s (m - ((m / n).floor : Rat) * n)
  | finite s m, infinite _ => finite s m
  | _, _ => nan

def ceil : Number → Number
  | finite true m => finite true (m.floor : Rat)
  | finite false m => finite false (m.ceil : Rat)
  | x => x

instance : Add Number := ⟨add⟩
instance : Sub Number := ⟨sub⟩
instance : Mul Number := ⟨mul⟩
instance : Div Number := ⟨div⟩
instance : Mod Number := ⟨rem⟩
instance : Neg Number := ⟨neg⟩

def lt : Number → Number → Bool
  | nan, _ => false
  | _, nan => false
  | infinite s, infinite t => s && !t
  | infinite s, finite _ _ => s
  | finite _ _, infinite t => !t
  | finite s m, finite t n => (finite s m).value < (finite t n).value

/-- Weak order; false as soon as one side is not a number. -/
def le : Number → Number → Bool
  | nan, _ => false
  | _, nan => false
  | x, y => !lt y x

def isPositive (x : Number) : Bool := lt 0 x

/-- How many of the numbers 0, 1, 2, … lie below `x`; none for an infinite `x`. -/
def countBelow? : Number → Option Nat
  | nan => some 0
  | infinite true => some 0
  | infinite false => none
  | finite true _ => some 0
  | finite false m => some m.ceil.toNat

end Number
end QueryLint
