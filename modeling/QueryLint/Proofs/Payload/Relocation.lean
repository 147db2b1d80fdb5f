import QueryLint.Payload.Reader

/-!
Lexemes at other offsets.

The reader copies offsets from the lexemes to the state, the notes and the fault, and never looks at
them. So a renaming of the offsets goes through the reader, whatever it is.
-/

namespace QueryLint.Payload
set_option autoImplicit false

section
variable (f : Nat → Nat)

def Lexeme.relocate : Lexeme → Lexeme
  | openGroup first groupAt => openGroup first (f groupAt)
  | l => l

def Placed.relocate (l : Placed) : Placed := ⟨f l.offset, l.lexeme.relocate f⟩

def Frame.relocate : Frame → Frame
  | object opened entries key => object (f opened) entries key
  | array opened items => array (f opened) items

def Expecting.relocate : Expecting → Expecting
  | value => value
  | item opened items comma => item (f opened) items (comma.map f)
  | key opened entries comma => key (f opened) entries (comma.map f)
  | colon opened entries k => colon (f opened) entries k
  | separator v => separator v

def State.relocate (s : State) : State := ⟨s.stack.map (Frame.relocate f), s.expecting.relocate f⟩

def Note.relocate (n : Note) : Note := ⟨n.kind, f n.offset⟩

def Fault.relocate (fault : Fault) : Fault := ⟨fault.cause, f fault.offset⟩

def Parsed.relocate (p : Parsed) : Parsed := ⟨p.value, p.notes.map (Note.relocate f)⟩

def relocateStep (o : Outcome) : Outcome :=
  (o.mapError (Fault.relocate f)).map fun (s, note) => (s.relocate f, note.map (Note.relocate f))

def relocateParse (r : Except Fault Parsed) : Except Fault Parsed :=
  (r.mapError (Fault.relocate f)).map (Parsed.relocate f)

theorem Lexeme.firstUnit_relocate (l : Lexeme) : (l.relocate f).firstUnit = l.firstUnit := by
  cases l <;> rfl

theorem beginValue_relocate (stack : List Frame) (l : Placed) :
    beginValue (stack.map (Frame.relocate f)) (l.relocate f) = relocateStep f (beginValue stack l) := by
  obtain ⟨offset, lexeme⟩ := l
  cases lexeme with
  | mark m => cases m <;> rfl
  | _ => rfl

theorem close_relocate (stack : List Frame) (v : Value) (bracket : Bracket) (comma : Option Nat) :
    close (stack.map (Frame.relocate f)) v bracket (comma.map f) =
      relocateStep f (close stack v bracket comma) := by
  cases comma <;> rfl

theorem takeKey_relocate (stack : List Frame) (opened : Nat) (entries : List (Key × Value)) (key : Key)
    (offset : Nat) : takeKey (stack.map (Frame.relocate f)) (f opened) entries key (f offset) =
      relocateStep f (takeKey stack opened entries key offset) := by
  unfold takeKey
  split
  · rfl
  · split <;> rfl

theorem step_relocate (s : State) (l : Placed) :
    step (s.relocate f) (l.relocate f) = relocateStep f (step s l) := by
  obtain ⟨stack, expecting⟩ := s
  cases expecting with
  | value => exact beginValue_relocate f stack l
  | item opened items comma =>
    have hvalue := beginValue_relocate f (.array opened items :: stack) l
    have hclose := close_relocate f stack (.array items) .square comma
    obtain ⟨offset, lexeme⟩ := l
    cases lexeme with
    | mark m =>
      cases m with
      | closeSquare => exact hclose
      | _ => exact hvalue
    | _ => exact hvalue
  | key opened entries comma =>
    have hkey := takeKey_relocate f stack opened entries
    have hclose := close_relocate f stack (.object entries) .brace comma
    obtain ⟨offset, lexeme⟩ := l
    cases lexeme with
    | mark m =>
      cases m with
      | closeBrace => exact hclose
      | _ => rfl
    | quoted quote text => exact hkey _ offset
    | word word => exact hkey _ offset
    | openQuote quote => rfl
    | openGroup first groupAt => rfl
  | colon opened entries key =>
    obtain ⟨offset, lexeme⟩ := l
    cases lexeme with
    | mark m => cases m <;> rfl
    | _ => rfl
  | separator v =>
    obtain ⟨offset, lexeme⟩ := l
    cases stack with
    | nil => exact congrArg (fun found => refuse (.trailingContent found) (f offset)) (lexeme.firstUnit_relocate f)
    | cons frame stack =>
      cases frame with
      | object opened entries key =>
        cases lexeme with
        | mark m => cases m <;> rfl
        | _ => rfl
      | array opened items =>
        cases lexeme with
        | mark m => cases m <;> rfl
        | _ => rfl

theorem finish_relocate (length : Nat) (s : State) :
    finish (f length) (s.relocate f) = (finish length s).mapError (Fault.relocate f) := by
  obtain ⟨stack, expecting⟩ := s
  cases expecting with
  | separator v =>
    cases stack with
    | nil => rfl
    | cons frame stack => cases frame <;> rfl
  | _ => rfl

theorem run_relocate (length : Nat) (s : State) (ls : List Placed) :
    run (f length) (s.relocate f) (ls.map (Placed.relocate f)) = relocateParse f (run length s ls) := by
  induction ls generalizing s with
  | nil =>
    rw [List.map_nil, run, run, finish_relocate]
    cases finish length s <;> rfl
  | cons l ls ih =>
    rw [List.map_cons, run, run, step_relocate]
    cases step s l with
    | error fault => rfl
    | ok outcome =>
      obtain ⟨next, note⟩ := outcome
      have hnext := ih next
      change (run (f length) (next.relocate f) (ls.map (Placed.relocate f))).map (fun parsed =>
        { parsed with notes := (note.map (Note.relocate f)).toList ++ parsed.notes }) = _
      rw [hnext]
      dsimp only
      cases run length next ls with
      | error fault => rfl
      | ok parsed => cases note <;> rfl

end

end QueryLint.Payload
