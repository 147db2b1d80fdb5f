/-!
Texts as sequences of sixteen-bit code units.

Every offset, column, width and distance of this library counts code units, so a text is simply the
list of its units: an offset is a list length and a slice is a `take` or a `drop`. A text may hold
half of a surrogate pair; such a half is shown as the replacement character when the text leaves
the library as a `String`.
-/

namespace QueryLint
set_option autoImplicit false

abbrev CodeUnit := UInt16

abbrev Text := List CodeUnit

namespace CodeUnit

/-- The units of a character: one in the basic plane, a surrogate pair above it. -/
def ofScalar (n : Nat) : List CodeUnit :=
  if n < 0x10000 then [n.toUInt16]
  else [(0xD800 + (n - 0x10000) / 0x400).toUInt16, (0xDC00 + (n - 0x10000) % 0x400).toUInt16]

def ofChar (c : Char) : CodeUnit := c.toNat.toUInt16

instance : Coe Char CodeUnit := ⟨ofChar⟩

def isHighSurrogate (c : CodeUnit) : Bool := 0xD800 ≤ c && c ≤ 0xDBFF

def isLowSurrogate (c : CodeUnit) : Bool := 0xDC00 ≤ c && c ≤ 0xDFFF

def isDigit (c : CodeUnit) : Bool := ('0' : CodeUnit) ≤ c && c ≤ ('9' : CodeUnit)

def isUpper (c : CodeUnit) : Bool := ('A' : CodeUnit) ≤ c && c ≤ ('Z' : CodeUnit)

def isLower (c : CodeUnit) : Bool := ('a' : CodeUnit) ≤ c && c ≤ ('z' : CodeUnit)

def isLetter (c : CodeUnit) : Bool := c.isUpper || c.isLower

/-- Letters, digits and the underscore: the units that make up a search word. -/
def isWordUnit (c : CodeUnit) : Bool := c.isLetter || c.isDigit || c = '_'

def hexDigit? (c : CodeUnit) : Option Nat :=
  if c.isDigit then some (c.toNat - 48)
  else if ('a' : CodeUnit) ≤ c && c ≤ ('f' : CodeUnit) then some (c.toNat - 87)
  else if ('A' : CodeUnit) ≤ c && c ≤ ('F' : CodeUnit) then some (c.toNat - 55)
  else none

/-- White space in the wide sense: the ASCII controls TAB to CR, the space separators of Unicode,
the two line separators and the byte order mark. -/
def isSpace (c : CodeUnit) : Bool :=
  (0x0009 ≤ c && c ≤ 0x000D) || c = 0x0020 || c = 0x00A0 || c = 0x1680 ||
    (0x2000 ≤ c && c ≤ 0x200A) || c = 0x2028 || c = 0x2029 || c = 0x202F || c = 0x205F ||
    c = 0x3000 || c = 0xFEFF

/-- White space between the parts of a query: space, TAB, LF and CR. -/
def isLayout (c : CodeUnit) : Bool := c = ' ' || c = '\t' || c = '\n' || c = '\r'

def isBlank (c : CodeUnit) : Bool := c = ' ' || c = '\t'

def isQuote (c : CodeUnit) : Bool := c = '"' || c = '\''

end CodeUnit

namespace Text

def ofString (s : String) : Text := s.toList.flatMap fun c => CodeUnit.ofScalar c.toNat

instance : Coe String Text := ⟨ofString⟩

/-- A property of all units of a text is decided along the text, never over all units there are. -/
instance (priority := 2000) decidableForallMem (t : Text) (P : CodeUnit → Prop) [DecidablePred P] :
    Decidable (∀ c ∈ t, P c) := List.decidableBAll P t

/-- The scalar values of a text; a lone surrogate half stands for itself. -/
def scalars : Text → List Nat
  | [] => []
  | [c] => [c.toNat]
  | c :: d :: rest =>
    if c.isHighSurrogate && d.isLowSurrogate then
      (0x10000 + (c.toNat - 0xD800) * 0x400 + (d.toNat - 0xDC00)) :: scalars rest
    else c.toNat :: scalars (d :: rest)

def ofScalars (ns : List Nat) : Text := ns.flatMap CodeUnit.ofScalar

/-- The text as a string; a lone surrogate half becomes U+FFFD. -/
def toString (t : Text) : String :=
  String.ofList ((scalars t).map fun n => if n.isValidChar then Char.ofNat n else '\uFFFD')

/-- What remains of a text once it has been stored as well-formed UTF-8. -/
def wellFormed (t : Text) : Text :=
  ofScalars ((scalars t).map fun n => if n.isValidChar then n else 0xFFFD)

def trimStart (t : Text) : Text := t.dropWhile CodeUnit.isSpace

def trimEnd : Text → Text
  | [] => []
  | c :: rest =>
    match trimEnd rest with
    | [] => if c.isSpace then [] else [c]
    | kept => c :: kept

def trim (t : Text) : Text := trimEnd (trimStart t)

def startsWith (t lead : Text) : Bool := lead.isPrefixOf t

def endsWith (t tail : Text) : Bool := tail.isSuffixOf t

def contains (t part : Text) : Bool :=
  part.isPrefixOf t || match t with
    | [] => false
    | _ :: rest => contains rest part

def splitOn (sep : CodeUnit) : Text → List Text
  | [] => [[]]
  | c :: rest =>
    if c = sep then [] :: splitOn sep rest
    else match splitOn sep rest with
      | [] => [[c]]
      | piece :: pieces => (c :: piece) :: pieces

def join (sep : Text) : List Text → Text
  | [] => []
  | [t] => t
  | t :: ts => t ++ sep ++ join sep ts

theorem join_cons (sep t : Text) (ts : List Text) : join sep (t :: ts) = t ++ ts.flatMap fun u => sep ++ u := by
  induction ts generalizing t with
  | nil => simp [join]
  | cons u ts ih => simp [join, ih]

def padEnd (width : Nat) (t : Text) : Text := t ++ List.replicate (width - t.length) (' ' : CodeUnit)

def replaceUnit (c : CodeUnit) (replacement : Text) (t : Text) : Text :=
  t.flatMap fun d => if d = c then replacement else [d]

def fillIn (argument : Text) : Text → Text
  | [] => []
  | [c] => [c]
  | c :: d :: rest =>
    if c = '%' && d = 's' then argument ++ fillIn argument rest else c :: fillIn argument (d :: rest)

def ofNat (n : Nat) : Text := (Nat.toDigits 10 n).map CodeUnit.ofChar

def ofInt (n : Int) : Text := if n < 0 then "-" ++ ofNat n.natAbs else ofNat n.natAbs

/-- The number that a list of digits writes in a base; none when a unit is no digit of it. -/
def toNatBase? (base : Nat) (t : Text) : Option Nat :=
  t.foldlM (fun n c => match c.hexDigit? with
    | some d => if d < base then some (n * base + d) else none
    | none => none) 0

/-- The number written by decimal digits; other units count as their distance from `0`. -/
def digitsValue (t : Text) : Nat := t.foldl (fun n c => n * 10 + (c.toNat - 48)) 0

/-- Order by code units, position by position. -/
def le : Text → Text → Bool
  | [], _ => true
  | _ :: _, [] => false
  | c :: t, d :: u => c < d || (c = d && le t u)

def firstLine (t : Text) : Text := t.takeWhile fun c => c ≠ '\n'

end Text

/-- A place in a text: units before it, and its line and column, both counted from one. -/
structure Position where
  offset : Nat
  line : Nat
  column : Nat
deriving DecidableEq, Repr

namespace Position

def start : Position := ⟨0, 1, 1⟩

def next (p : Position) (c : CodeUnit) : Position :=
  if c = '\n' then ⟨p.offset + 1, p.line + 1, 1⟩ else ⟨p.offset + 1, p.line, p.column + 1⟩

def after (p : Position) (t : Text) : Position := t.foldl next p

@[simp] theorem after_nil (p : Position) : p.after [] = p := rfl

theorem after_append (p : Position) (t u : Text) : p.after (t ++ u) = (p.after t).after u := by
  simp [after, List.foldl_append]

@[simp] theorem offset_after (p : Position) (t : Text) : (p.after t).offset = p.offset + t.length := by
  induction t generalizing p with
  | nil => rfl
  | cons c t ih =>
    have h : (p.next c).offset = p.offset + 1 := by unfold next; split <;> rfl
    rw [show p.after (c :: t) = (p.next c).after t from rfl, ih, h, List.length_cons]
    omega

end Position
end QueryLint
