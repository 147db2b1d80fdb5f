import QueryLint.Instant

/-!
Timestamps as YAML writes them: a date, or a date and a time of day with a fraction and a zone at
choice.
-/

namespace QueryLint.Yaml.Timestamp
set_option autoImplicit false

/-- A number of at least `least` and at most `most` digits at the start of a text, which has no
further digit behind it, and the rest. -/
def digits? (least most : Nat) (t : Text) : Option (Int × Text) :=
  let digits := t.takeWhile CodeUnit.isDigit
  if least ≤ digits.length && digits.length ≤ most then
    some ((Text.digitsValue digits : Int), t.drop digits.length)
  else none

def behind? (mark : CodeUnit) : Text → Option Text
  | [] => none
  | c :: rest => if c = mark then some rest else none

/-- The year of a date; the first hundred years stand for those of the twentieth century. -/
def fullYear (year : Int) : Int := if year < 100 then 1900 + year else year

def thousandths (digits : Text) : Int :=
  (Text.digitsValue ((digits ++ [48, 48, 48]).take 3) : Int)

/-- A zone as minutes ahead of universal time: `Z`, or a sign and hours with minutes at choice. -/
def zone? (t : Text) : Option Int :=
  if t = "Z" then some 0
  else match t with
    | [] => none
    | sign :: rest => do
      let (hours, rest) ← digits? 1 2 rest
      let minutes ← match rest with
        | [] => some 0
        | _ => do
          let (minutes, rest) ← digits? 2 2 (← behind? ':' rest)
          if rest.isEmpty then some minutes else none
      if sign = '+' then some (hours * 60 + minutes)
      else if sign = '-' then some (-(hours * 60 + minutes))
      else none

/-- The fraction and the zone behind the seconds, in thousandths and minutes. -/
def fractionAndZone? (t : Text) : Option (Int × Int) :=
  let (fraction, rest) : Text × Text := match behind? '.' t with
    | none => ([], t)
    | some rest => (rest.takeWhile CodeUnit.isDigit, rest.dropWhile CodeUnit.isDigit)
  if rest.isEmpty then some (thousandths fraction, 0)
  else (zone? (rest.dropWhile CodeUnit.isBlank)).map fun zone => (thousandths fraction, zone)

def timeOn? (date : CivilDate) (t : Text) : Option Instant := do
  let (hour, rest) ← digits? 1 2 t
  let (minute, rest) ← digits? 2 2 (← behind? ':' rest)
  let (second, rest) ← digits? 2 2 (← behind? ':' rest)
  let (fraction, zone) ← fractionAndZone? rest
  return .ofParts date hour (minute - zone) second fraction

def behindDate? : Text → Option Text
  | [] => none
  | c :: rest =>
    if c = 'T' || c = 't' then some rest
    else if c.isBlank then some (rest.dropWhile CodeUnit.isBlank)
    else none

/-- The point in time that a text writes. A date alone has two digits for month and day each. -/
def read? (t : Text) : Option Instant := do
  let (year, rest) ← digits? 4 4 t
  let afterYear ← behind? '-' rest
  let (month, rest) ← digits? 1 2 afterYear
  let (day, rest) ← digits? 1 2 (← behind? '-' rest)
  let date : CivilDate := ⟨fullYear year, month, day⟩
  if rest.isEmpty then
    if afterYear.length = 5 then some (.ofParts date 0 0 0 0) else none
  else timeOn? date (← behindDate? rest)

end QueryLint.Yaml.Timestamp
