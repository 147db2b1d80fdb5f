import QueryLint.Json

/-!
Checking plain data against what is expected of it.

A check looks at a value that may be absent and either gives what it stands for or lists everything
that is wrong with it, each complaint with the path of the part it concerns. Parts are checked
independently, so that all complaints come out together and in a fixed order.
-/

namespace QueryLint.Schema
set_option autoImplicit false

inductive Problem where
  | mismatch (expected received : Text)
  | required
  | notListed (choices : List Text) (received : Text)
  | notPositive
  | notWhole
  | tooSmall (least : Nat)
  | tooLarge (greatest : Nat)
  | emptyText
  | unknownKeys (keys : List Text)
  | noAlternative
deriving DecidableEq, Repr

/-- Choices as they are shown: quoted, with bars between. -/
def choicesText (choices : List Text) : Text :=
  Text.join " | " (choices.map fun choice => "'" ++ choice ++ "'")

def Problem.message : Problem → Text
  | mismatch expected received => "Expected " ++ expected ++ ", received " ++ received
  | required => "Required"
  | notListed choices received =>
    "Invalid enum value. Expected " ++ choicesText choices ++ ", received '" ++ received ++ "'"
  | notPositive => "Number must be greater than 0"
  | notWhole => "Expected integer, received float"
  | tooSmall least => "Number must be greater than or equal to " ++ Text.ofNat least
  | tooLarge greatest => "Number must be less than or equal to " ++ Text.ofNat greatest
  | emptyText => "String must contain at least 1 character(s)"
  | unknownKeys keys =>
    "Unrecognized key(s) in object: " ++
      Text.join ", " (keys.map fun key => "'" ++ key ++ "'")
  | noAlternative => "Invalid input"

structure Complaint where
  path : List Text
  problem : Problem
deriving DecidableEq, Repr

namespace Complaint

def pathText (c : Complaint) : Text := Text.join "." c.path

def message (c : Complaint) : Text :=
  (if c.pathText.isEmpty then ("(root)" : Text) else c.pathText) ++ ": " ++ c.problem.message

def messages (cs : List Complaint) : Text := Text.join "; " (cs.map message)

end Complaint

inductive Checked (α : Type) where
  | valid (value : α)
  | invalid (complaints : List Complaint)

namespace Checked
variable {α β : Type}

def map (f : α → β) : Checked α → Checked β
  | valid a => valid (f a)
  | invalid cs => invalid cs

/-- Applies a function; the complaints of both sides are listed one after the other. -/
def apply : Checked (α → β) → Checked α → Checked β
  | valid f, valid a => valid (f a)
  | valid _, invalid cs => invalid cs
  | invalid cs, valid _ => invalid cs
  | invalid cs, invalid ds => invalid (cs ++ ds)

instance : Applicative Checked where
  pure := valid
  map := map
  seq f a := apply f (a ())

def all : List (Checked α) → Checked (List α)
  | [] => valid []
  | a :: as => List.cons <$> a <*> all as

end Checked

abbrev Check (α : Type) := List Text → Option Json → Checked α

variable {α : Type}

def complain (path : List Text) (problem : Problem) : Checked α := .invalid [⟨path, problem⟩]

def guarded (path : List Text) (problems : List (Bool × Problem)) (value : α) : Checked α :=
  match problems.filter (·.1) with
  | [] => .valid value
  | found => .invalid (found.map fun p => ⟨path, p.2⟩)

def typeName : Json → Text
  | .null => "null"
  | .bool _ => "boolean"
  | .number .nan => "nan"
  | .number _ => "number"
  | .text _ => "string"
  | .instant _ => "date"
  | .array _ => "array"
  | .object _ => "object"

def mismatch (expected : Text) (path : List Text) : Option Json → Checked α
  | none => complain path .required
  | some j => complain path (.mismatch expected (typeName j))

def text : Check Text
  | _, some (.text t) => .valid t
  | path, j => mismatch "string" path j

def nonEmptyText : Check Text
  | path, some (.text t) => guarded path [(t.isEmpty, .emptyText)] t
  | path, j => mismatch "string" path j

def number (problems : Number → List (Bool × Problem)) : Check Number
  | path, some (.number .nan) => mismatch "number" path (some (.number .nan))
  | path, some (.number x) => guarded path (problems x) x
  | path, j => mismatch "number" path j

def choice (choices : List (Text × α)) : Check α
  | path, some (.text t) =>
    match choices.lookup t with
    | some a => .valid a
    | none => complain path (.notListed (choices.map (·.1)) t)
  | path, j => mismatch (choicesText (choices.map (·.1))) path j

def list (check : Check α) : Check (List α)
  | path, some (.array items) =>
    Checked.all (items.zipIdx.map fun (item, i) => check (path ++ [Text.ofNat i]) (some item))
  | path, j => mismatch "array" path j

/-- An object whose values pass a check. The reserved key is dropped. -/
def recordOf (check : Check α) : Check (Record α)
  | path, some (.object members) =>
    (Checked.all (members.map fun (key, value) =>
      Prod.mk key <$> check (path ++ [key]) (some value))).map fun entries =>
        entries.filter fun entry => entry.1 ≠ Record.reservedKey
  | path, j => mismatch "object" path j

def object (check : List Text → Record Json → Checked α) : Check α
  | path, some (.object members) => check path members
  | path, j => mismatch "object" path j

def member (path : List Text) (members : Record Json) (key : Text) (check : Check α) : Checked α :=
  check (path ++ [key]) (Record.get? members key)

def others (known : List Text) (members : Record Json) : Record Json :=
  members.filter fun m => !known.contains m.1

/-- Members beyond the known ones, where they are kept. The reserved key is dropped. -/
def extras (known : List Text) (members : Record Json) : Record Json :=
  (others known members).filter fun m => m.1 ≠ Record.reservedKey

def nothingBeyond (path : List Text) (known : List Text) (members : Record Json) : Checked Unit :=
  match Record.keys (others known members) with
  | [] => .valid ()
  | keys => complain path (.unknownKeys keys)

def withDefault (value : α) (check : Check α) : Check α
  | _, none => .valid value
  | path, j => check path j

def optional (check : Check α) : Check (Option α)
  | _, none => .valid none
  | path, j => some <$> check path j

inductive Scalar where
  | text (value : Text)
  | number (value : Number)
deriving DecidableEq

def Scalar.toJson : Scalar → Json
  | text t => .text t
  | number x => .number x

def Scalar.toText : Scalar → Text
  | text t => t
  | number x => x.toText

def scalar : Check Scalar
  | _, some (.text t) => .valid (.text t)
  | path, some (.number .nan) => complain path .noAlternative
  | _, some (.number x) => .valid (.number x)
  | path, _ => complain path .noAlternative

end QueryLint.Schema
