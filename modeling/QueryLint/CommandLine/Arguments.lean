import QueryLint.Failure

/-!
The arguments of the command line.

An argument that starts with two dashes is an option; some options take the argument behind them as
their value. All arguments behind a bare `--` are operands. The first operand is the command.
-/

namespace QueryLint.CommandLine
set_option autoImplicit false

inductive ValueOption where
  | format
  | dialect
  | config
  | categories
  | timeRange
  | rows
  | name
  | description
  | language
  | limit
deriving DecidableEq, Repr

namespace ValueOption

def all : List ValueOption :=
  [format, dialect, config, categories, timeRange, rows, name, description, language, limit]

def word : ValueOption → Text
  | format => "format"
  | dialect => "dialect"
  | config => "config"
  | categories => "categories"
  | timeRange => "time-range"
  | rows => "rows"
  | name => "name"
  | description => "description"
  | language => "lang"
  | limit => "limit"

def ofWord? (t : Text) : Option ValueOption := all.find? fun option => option.word = t

end ValueOption

inductive Switch where
  | noColor
  | color
  | help
deriving DecidableEq, Repr

namespace Switch

def all : List Switch := [noColor, color, help]

def word : Switch → Text
  | noColor => "no-color"
  | color => "color"
  | help => "help"

def ofWord? (t : Text) : Option Switch := all.find? fun switch => switch.word = t

end Switch

def dashes : Text := "--"

inductive Part where
  | operand (text : Text)
  | value (option : ValueOption) (text : Text)
  | switch (switch : Switch)
deriving DecidableEq, Repr

def Part.ofArguments : List Text → Except Misuse (List Part)
  | [] => .ok []
  | argument :: rest =>
    if argument = dashes then .ok (rest.map operand)
    else if !Text.startsWith argument dashes then (ofArguments rest).map (operand argument :: ·)
    else
      let word := argument.drop dashes.length
      match Switch.ofWord? word with
      | some found => (ofArguments rest).map (switch found :: ·)
      | none =>
        match ValueOption.ofWord? word with
        | none => .error (.unknownOption word)
        | some option =>
          match rest with
          | [] => .error (.missingValue word)
          | text :: rest => (ofArguments rest).map (value option text :: ·)

structure Arguments where
  command : Option Text
  operands : List Text
  values : List (ValueOption × Text)
  switches : List Switch
deriving DecidableEq, Repr

namespace Arguments

def ofParts (parts : List Part) : Arguments :=
  let operands := parts.filterMap fun part => match part with
    | .operand text => some text
    | _ => none
  { command := operands.head?
    operands := operands.tail
    values := parts.filterMap fun part => match part with
      | .value option text => some (option, text)
      | _ => none
    switches := parts.filterMap fun part => match part with
      | .switch found => some found
      | _ => none }

def parse (arguments : List Text) : Except Misuse Arguments :=
  (Part.ofArguments arguments).map ofParts

def get? (a : Arguments) (option : ValueOption) : Option Text := a.values.reverse.lookup option

def has (a : Arguments) (switch : Switch) : Bool := a.switches.contains switch

end Arguments
end QueryLint.CommandLine
