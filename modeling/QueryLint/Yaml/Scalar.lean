import QueryLint.Json
import QueryLint.Yaml.Tag
import QueryLint.Yaml.Timestamp

/-!
The values of scalars: what a text means under a tag, and which tag a plain scalar has without
being told. The writer quotes exactly the texts that would otherwise not be read as texts.

Numbers have no marks between their digits and have to be finite, except for the infinities that are
spelled out.
-/

namespace QueryLint.Yaml
set_option autoImplicit false

def isNull (t : Text) : Bool := t = "~" || t = "null" || t = "Null" || t = "NULL"

def boolean? (t : Text) : Option Bool :=
  if t = "true" || t = "True" || t = "TRUE" then some true
  else if t = "false" || t = "False" || t = "FALSE" then some false
  else none

def digits? (base : Nat) (t : Text) : Option Nat := if t.isEmpty then none else Text.toNatBase? base t

/-- A whole number without its sign: decimal, or binary, octal or hexadecimal behind its mark. -/
def unsignedInteger? : Text → Option Nat
  | zero :: mark :: digits =>
    if zero = '0' && mark = 'b' then digits? 2 digits
    else if zero = '0' && mark = 'x' then digits? 16 digits
    else if zero = '0' && mark = 'o' then digits? 8 digits
    else digits? 10 (zero :: mark :: digits)
  | t => digits? 10 t

def splitSign : Text → Bool × Text
  | [] => (false, [])
  | c :: rest => if c = '-' then (true, rest) else if c = '+' then (false, rest) else (false, c :: rest)

def finite? (x : Number) : Option Number := if x.isFinite then some x else none

def integer? (t : Text) : Option Number :=
  let (negative, rest) := splitSign t
  (unsignedInteger? rest).bind fun n =>
    finite? (if n = 0 then Number.ofNat 0 else if negative then -(Number.ofNat n) else Number.ofNat n)

/-- Decimal numbers with a fraction and an exponent at choice. A number that starts with its point has
no sign. -/
def decimal? (t : Text) : Option Number :=
  let (negative, rest) := splitSign t
  (Numeral.ofText? rest).bind fun n =>
    if n.whole.isEmpty && rest.length < t.length then none
    else finite? (Number.ofDecimal negative n.toDecimal)

def float? (t : Text) : Option Number :=
  let (negative, rest) := splitSign t
  if rest = ".inf" || rest = ".Inf" || rest = ".INF" then some (.infinite negative)
  else if t = ".nan" || t = ".NaN" || t = ".NAN" then some .nan
  else decimal? t

/-- The key under which a mapping takes over the members of others. -/
def mergeKey : Text := "<<"

/-- The digits of the notation for bytes, in the order of their values. -/
def byteDigits : Text := "ABCDEFGHIJKLMNOPQRSTUVWXYZabcdefghijklmnopqrstuvwxyz0123456789+/"

/-- The bytes of up to four digits of six bits; what fills no byte is dropped. -/
def bytesOf (digits : List Nat) : List Nat :=
  let bits := digits.foldl (fun n d => n * 64 + d) 0
  match digits.length with
  | 4 => [bits / 65536, bits / 256 % 256, bits % 256]
  | 3 => [bits / 1024, bits / 4 % 256]
  | 2 => [bits / 16]
  | _ => []

def groupedBytes : List Nat → List Nat
  | a :: b :: c :: d :: rest => bytesOf [a, b, c, d] ++ groupedBytes rest
  | rest => bytesOf rest

/-- The bytes that a text writes. Line breaks do not count, padding counts as digits for the length
only, and nothing at all stands for three zeros. -/
def bytes? (t : Text) : Option (List Nat) :=
  let written := t.filter fun (c : CodeUnit) => c ≠ '\n' && c ≠ '\r'
  let digits := written.filter fun (c : CodeUnit) => c ≠ '='
  if digits.all (fun c => List.elem c byteDigits) && written.length % 4 = 0 then
    if digits.isEmpty then some [0, 0, 0] else some (groupedBytes (digits.map fun c => List.idxOf c byteDigits))
  else none

/-- Bytes as plain data: an object with a member for each place. -/
def bytesJson (bytes : List Nat) : Json :=
  .object (bytes.zipIdx.map fun (byte, i) => (Text.ofNat i, .ofNat byte))

def Tag.scalar? : Tag → Text → Option Json
  | null, t => if isNull t then some .null else none
  | boolean, t => (boolean? t).map .bool
  | integer, t => (integer? t).map .number
  | float, t => (float? t).map .number
  | timestamp, t => (Timestamp.read? t).map .instant
  | merge, t => if t = mergeKey then some (.text t) else none
  | binary, t => (bytes? t).map bytesJson
  | text, t => some (.text t)
  | _, _ => none

/-- The tag of a plain scalar and its value under it: the first that fits, else a text. -/
def resolve (t : Text) : Tag × Json :=
  (Tag.implicit.findSome? fun tag => (tag.scalar? t).map fun value => (tag, value)).getD (.text, .text t)

/-- Whether a plain scalar is read as something else than text. -/
def isAmbiguous (t : Text) : Bool := Tag.implicit.any fun tag => (tag.scalar? t).isSome

end QueryLint.Yaml
