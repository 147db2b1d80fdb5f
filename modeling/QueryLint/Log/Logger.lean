import QueryLint.Log

/-!
A logger: a level and the listeners that are told of every entry at or above it.

An entry that is shown is first written as a line and then delivered to the listeners in the order
in which they were added. A listener may fail; its failure is written as a line too and keeps no
other listener from the entry.
-/

namespace QueryLint.Log
set_option autoImplicit false

structure Listener where
  name : Text
  failure : Option Text
deriving DecidableEq, Repr

/-- A level and the listeners with the numbers of their subscriptions; `next` is the number of the
next one. -/
structure Logger where
  level : Level
  listeners : List (Nat × Listener)
  next : Nat

/-- What an entry leads to: the listeners it was delivered to, and what was written. -/
structure Emission where
  delivered : List Text
  written : Text
deriving DecidableEq, Repr

namespace Logger

/-- A logger without listeners, at the level that a setting of the environment asks for. -/
def ofSetting (setting : Option Text) : Logger := ⟨Level.ofSetting setting, [], 0⟩

def setLevel (l : Logger) (level : Level) : Logger := { l with level }

def isDebugEnabled (l : Logger) : Bool := l.level = .debug

def subscribe (l : Logger) (listener : Listener) : Logger × Nat :=
  ({ l with listeners := l.listeners ++ [(l.next, listener)], next := l.next + 1 }, l.next)

def unsubscribe (l : Logger) (subscription : Nat) : Logger :=
  { l with listeners := l.listeners.filter fun listener => listener.1 ≠ subscription }

def failureLine (reason : Text) : Text :=
  let error : Text := if reason.isEmpty then "Error" else "Error: " ++ reason
  "[mxqlint] log callback error: " ++ error ++ "\n"

def emit (l : Logger) (e : Entry) : Emission :=
  if e.shownAt l.level then
    ⟨l.listeners.map (·.2.name), e.line ++ (l.listeners.filterMap (·.2.failure)).flatMap failureLine⟩
  else ⟨[], []⟩

end Logger
end QueryLint.Log
