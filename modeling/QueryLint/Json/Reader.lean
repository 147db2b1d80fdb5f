import QueryLint.Json

/-!
Reading JSON. The reader accepts exactly the texts of the standard grammar; of two members with one
key the later value counts, at the place of the first. Lone surrogate halves written as escapes are
kept as they are.
-/

namespace QueryLint.Json
set_option autoImplicit false

def skipLayout (t : Text) : Text := t.dropWhile CodeUnit.isLayout

def hex4? : Text → Option (CodeUnit × Text)
  | a :: b :: c :: d :: rest =>
    match a.hexDigit?, b.hexDigit?, c.hexDigit?, d.hexDigit? with
    | some a, some b, some c, some d => some ((((a * 16 + b) * 16 + c) * 16 + d).toUInt16, rest)
    | _, _, _, _ => none
  | _ => none

def simpleEscape? (c : CodeUnit) : Option CodeUnit :=
  if c = '"' || c = '\\' || c = '/' then some c
  else if c = 'b' then some 8
  else if c = 'f' then some 12
  else if c = 'n' then some 10
  else if c = 'r' then some 13
  else if c = 't' then some 9
  else none

/-- The rest of a string behind its opening quote, and what follows its closing quote. -/
def stringBody : Nat → Text → Option (Text × Text)
  | 0, _ => none
  | _ + 1, [] => none
  | fuel + 1, c :: rest =>
    if c = '"' then some ([], rest)
    else if c = '\\' then
      match rest with
      | [] => none
      | e :: rest =>
        if e = 'u' then
          (hex4? rest).bind fun (unit, rest) =>
            (stringBody fuel rest).map fun (body, rest) => (unit :: body, rest)
        else
          (simpleEscape? e).bind fun unit =>
            (stringBody fuel rest).map fun (body, rest) => (unit :: body, rest)
    else if c < 0x20 then none
    else (stringBody fuel rest).map fun (body, rest) => (c :: body, rest)

/-- A number: no needless zero in front, and digits on both sides of a point. -/
def numberAt (t : Text) : Option (Number × Text) :=
  let (negative, unsigned) : Bool × Text := match t with
    | [] => (false, t)
    | c :: rest => if c = '-' then (true, rest) else (false, t)
  let (n, rest) := Numeral.scan unsigned
  let wholeFits := match n.whole with
    | [] => false
    | [_] => true
    | c :: _ => c ≠ '0'
  if wholeFits && n.fraction ≠ some [] then some (Number.ofDecimal negative n.toDecimal, rest) else none

def wordAt (word : Text) (j : Json) (t : Text) : Option (Json × Text) :=
  if t.startsWith word then some (j, t.drop word.length) else none

mutual

def valueAt : Nat → Text → Option (Json × Text)
  | 0, _ => none
  | fuel + 1, t =>
    match skipLayout t with
    | [] => none
    | c :: rest =>
      if c = '\x7b' then
        match skipLayout rest with
        | [] => none
        | d :: more =>
          if d = '\x7d' then some (object [], more)
          else (membersAt fuel (d :: more)).map fun (members, rest) => (record members, rest)
      else if c = '[' then
        match skipLayout rest with
        | [] => none
        | d :: more =>
          if d = ']' then some (array [], more)
          else (itemsAt fuel (d :: more)).map fun (items, rest) => (array items, rest)
      else if c = '"' then
        (stringBody (rest.length + 1) rest).map fun (body, rest) => (text body, rest)
      else if c = 't' then wordAt "true" (bool true) (c :: rest)
      else if c = 'f' then wordAt "false" (bool false) (c :: rest)
      else if c = 'n' then wordAt "null" null (c :: rest)
      else (numberAt (c :: rest)).map fun (x, rest) => (number x, rest)

def itemsAt : Nat → Text → Option (List Json × Text)
  | 0, _ => none
  | fuel + 1, t =>
    match valueAt fuel t with
    | none => none
    | some (item, rest) =>
      match skipLayout rest with
      | [] => none
      | c :: rest =>
        if c = ']' then some ([item], rest)
        else if c = ',' then (itemsAt fuel rest).map fun (items, rest) => (item :: items, rest)
        else none

def membersAt : Nat → Text → Option (List (Text × Json) × Text)
  | 0, _ => none
  | fuel + 1, t =>
    match skipLayout t with
    | [] => none
    | quote :: rest =>
      if quote ≠ '"' then none
      else match stringBody (rest.length + 1) rest with
        | none => none
        | some (key, rest) =>
          match skipLayout rest with
          | [] => none
          | colon :: rest =>
            if colon ≠ ':' then none
            else match valueAt fuel rest with
              | none => none
              | some (item, rest) =>
                match skipLayout rest with
                | [] => none
                | c :: rest =>
                  if c = '\x7d' then some ([(key, item)], rest)
                  else if c = ',' then
                    (membersAt fuel rest).map fun (members, rest) => ((key, item) :: members, rest)
                  else none

end

/-- The value that makes up the whole of a text. Every step into the text costs at most two units
of fuel per unit of text. -/
def read (t : Text) : Option Json :=
  match valueAt (2 * t.length + 2) t with
  | some (j, rest) => if (skipLayout rest).isEmpty then some j else none
  | none => none

end QueryLint.Json
