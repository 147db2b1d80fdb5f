import QueryLint.Analysis
import QueryLint.Failure

/-!
Sessions: what a command is given, what it changes, and how it ends.

Reading and writing YAML and comparing names are left to libraries, which are given as functions.

A step of a command may read and write files and log what it does, and it may fail, but it prints
nothing. A program is made of steps and prints between them. What it has printed stays printed when it
fails afterwards.
-/

namespace QueryLint.CommandLine
set_option autoImplicit false

structure Libraries where
  readYaml : Text → Option Json
  writeYaml : Json → Text
  compareNames : Text → Text → Ordering

structure Surroundings where
  directory : Text
  environment : Record Text
  isTerminal : Bool
  input : Text
  elapsed : Elapsed

structure Session where
  disk : Disk
  log : List Log.Entry

/-- The pieces that have been printed so far, as results and as complaints. -/
structure Console where
  output : List Text
  complaint : List Text
deriving DecidableEq, Repr

inductive Exit where
  | success
  | findings
  | misuse
deriving DecidableEq, Repr

def Exit.code : Exit → Nat
  | success => 0
  | findings => 1
  | misuse => 2

/-- How a run ends, and what it has printed. -/
structure Reply extends Console where
  exit : Exit
deriving DecidableEq, Repr

/-- A step of a command. -/
abbrev Action := ExceptT Failure (StateM Session)

namespace Action
variable {α : Type}

def fail (failure : Failure) : Action α := throw failure

def misused (cause : Misuse) : Action α := fail (.misuse cause)

def ofExcept : Except Failure α → Action α
  | .ok a => pure a
  | .error failure => fail failure

def disk : Action Disk := do return (← get).disk

def setDisk (disk : Disk) : Action Unit := modify fun s => { s with disk }

def log (entries : List Log.Entry) : Action Unit := modify fun s => { s with log := s.log ++ entries }

end Action

/-- A command or a part of one that prints. -/
abbrev Program := ExceptT Failure (StateT Console (StateM Session))

/-- A step is a program that prints nothing. -/
instance : MonadLift Action Program where
  monadLift step := ExceptT.mk (StateT.lift step.run)

namespace Program

def misused (cause : Misuse) : Program Exit := throw (.misuse cause)

def print (piece : Text) : Program Unit :=
  modifyThe Console fun s => { s with output := s.output ++ [piece] }

def complain (piece : Text) : Program Unit :=
  modifyThe Console fun s => { s with complaint := s.complaint ++ [piece] }

end Program
end QueryLint.CommandLine
