import QueryLint.Proofs.Payload.Runs

/-!
Where a refused payload goes wrong.

Whatever the reader has taken, its state can be completed: the value, key or colon that it waits for
can be supplied, and then the open containers closed one after the other. So the offset of a fault
is the end of a text that some accepted payload starts with. Most faults are at the lexeme that
cannot be taken or at the end of the payload. The others are at an opening bracket that was taken
before, and at a parenthesis inside a word.
-/

namespace QueryLint.Payload
set_option autoImplicit false

/-- `Viable u`: some payload that starts with `u` is accepted. -/
def Viable (u : Text) : Prop := ∃ z parsed, parse (u ++ z) = .ok parsed

def Reading (u : Text) (s : State) : Prop := ∃ notes, Reaches .start (lexemes 0 u) s notes

/-- The value that the first lexemes of a text derive, whatever follows them. -/
def LeadingValue (t : Text) (v : Value) : Prop :=
  ∃ ls, Written v ls ∧ ls <+: (lexemes 0 t).map Placed.lexeme

/-- `RepeatsKey key u v`: at the end of `u` stands an open object that has one entry with the key, and
`v` starts with the key of its next entry, which is the same. -/
def RepeatsKey (key u v : Text) : Prop :=
  ∃ stack opened entries comma style w rest, Reading u ⟨stack, .key opened entries comma⟩ ∧
    (keyTexts entries).count key = 1 ∧ (Key.mk key style).lexeme.Spells w ∧ v = w ++ rest ∧
    (style = .bare → StopsWord rest)

theorem LeadingValue.unique {t : Text} {v v' : Value} (h : LeadingValue t v) (h' : LeadingValue t v') :
    v = v' := by
  obtain ⟨-, ⟨d, hd, rfl, rfl⟩, rest, hrest⟩ := h
  obtain ⟨-, ⟨d', hd', rfl, rfl⟩, rest', hrest'⟩ := h'
  obtain ⟨rfl, -⟩ := tokens_writtenOnce hd d' rest rest' hd' (hrest.trans hrest'.symm)
  rfl

namespace Frame

def bracket : Frame → Bracket
  | object _ _ _ => .brace
  | array _ _ => .square

def opened : Frame → Nat
  | object opened _ _ => opened
  | array opened _ => opened

end Frame

/-- The closing brackets of the open containers. -/
def closers (stack : List Frame) : Text := stack.map fun frame => frame.bracket.closing

def Expecting.completion : Expecting → Text
  | value => "''"
  | item _ _ _ => "]"
  | key _ _ _ => "\x7d"
  | colon _ _ _ => ":''\x7d"
  | separator _ => ""

def State.completion (s : State) : Text := s.expecting.completion ++ closers s.stack

theorem stopsWord_completion (s : State) : StopsWord s.completion := by
  obtain ⟨stack, expecting⟩ := s
  intro c hc
  cases expecting with
  | separator v =>
    cases stack with
    | nil => cases hc
    | cons frame stack =>
      cases hc
      cases frame with
      | object => exact endsWord_markUnit .closeBrace
      | array => exact endsWord_markUnit .closeSquare
  | _ =>
    cases hc
    decide

theorem exists_run_cons {length : Nat} {s next : State} {l : Placed} {note : Option Note}
    {ls : List Placed} (hstep : step s l = .ok (next, note))
    (h : ∃ parsed, run length next ls = .ok parsed) : ∃ parsed, run length s (l :: ls) = .ok parsed := by
  obtain ⟨⟨v, notes⟩, h⟩ := h
  exact ⟨_, run_cons_eq_ok_iff.2 ⟨next, note, notes, hstep, h, rfl⟩⟩

/-- By induction on the open containers: each is closed behind the value read last. -/
theorem run_closers (length offset : Nat) (stack : List Frame) (v : Value) :
    ∃ parsed, run length ⟨stack, .separator v⟩ (lexemes offset (closers stack)) = .ok parsed := by
  induction stack generalizing offset v with
  | nil =>
    rw [closers, List.map_nil, lexemes]
    exact ⟨_, rfl⟩
  | cons frame stack ih =>
    rw [closers, List.map_cons]
    cases frame with
    | object opened entries key =>
      rw [show (Frame.object opened entries key).bracket.closing = Mark.closeBrace.unit from rfl,
        lexemes_mark]
      exact exists_run_cons rfl (ih (offset + 1) _)
    | array opened items =>
      rw [show (Frame.array opened items).bracket.closing = Mark.closeSquare.unit from rfl,
        lexemes_mark]
      exact exists_run_cons rfl (ih (offset + 1) _)

theorem run_completion (length offset : Nat) (s : State) :
    ∃ parsed, run length s (lexemes offset s.completion) = .ok parsed := by
  obtain ⟨stack, expecting⟩ := s
  have hempty : ∀ (offset : Nat) (t : Text), lexemes offset ("''" ++ t) =
      ⟨offset, .quoted .single []⟩ :: lexemes (offset + 2) t := fun offset t =>
    lexemes_quoted (q := .single) .nil offset t
  cases expecting with
  | value =>
    rw [State.completion, Expecting.completion, hempty]
    exact exists_run_cons rfl (run_closers length _ stack _)
  | item opened items comma =>
    rw [State.completion, Expecting.completion,
      show Text.ofString "]" ++ closers stack = Mark.closeSquare.unit :: closers stack from rfl,
      lexemes_mark]
    exact exists_run_cons rfl (run_closers length _ stack _)
  | key opened entries comma =>
    rw [State.completion, Expecting.completion,
      show Text.ofString "\x7d" ++ closers stack = Mark.closeBrace.unit :: closers stack from rfl,
      lexemes_mark]
    exact exists_run_cons rfl (run_closers length _ stack _)
  | colon opened entries k =>
    rw [State.completion, Expecting.completion,
      show Text.ofString ":''\x7d" ++ closers stack =
        Mark.colon.unit :: ("''" ++ Mark.closeBrace.unit :: closers stack) from rfl,
      lexemes_mark, hempty, lexemes_mark]
    exact exists_run_cons rfl (exists_run_cons rfl (exists_run_cons rfl
      (run_closers length _ stack _)))
  | separator v =>
    rw [State.completion, Expecting.completion]
    exact run_closers length offset stack v

theorem viable_leads {u v : Text} {before : List Placed} {s : State} {notes : List Note}
    (hleads : Leads 0 u before v) (h : Reaches .start before s notes) : Viable u := by
  obtain ⟨parsed, hrun⟩ := run_completion (u ++ s.completion).length u.length s
  exact ⟨s.completion, _, parse_leads hleads h (fun _ => stopsWord_completion s) hrun⟩

/-- Words may come next, at least those that are long enough. -/
def State.TakesWords (s : State) : Prop :=
  ∃ n, ∀ (offset : Nat) (w : Text), n ≤ w.length → ∃ next note, step s ⟨offset, .word w⟩ = .ok (next, note)

theorem takesWords_value (stack : List Frame) : State.TakesWords ⟨stack, .value⟩ :=
  ⟨0, fun _ _ _ => ⟨_, _, rfl⟩⟩

theorem takesWords_item (stack : List Frame) (opened : Nat) (items : List Value) (comma : Option Nat) :
    State.TakesWords ⟨stack, .item opened items comma⟩ :=
  ⟨0, fun _ _ _ => ⟨_, _, rfl⟩⟩

/-- No key of the object is as long as all of them together and one unit more. -/
theorem takesWords_key (stack : List Frame) (opened : Nat) (entries : List (Key × Value))
    (comma : Option Nat) : State.TakesWords ⟨stack, .key opened entries comma⟩ := by
  refine ⟨(keyTexts entries).flatten.length + 1, ?_⟩
  intro offset w hw
  have hkey : w ∉ keyTexts entries := by
    intro hmem
    have hlength := (List.sublist_flatten_of_mem hmem).length_le
    omega
  exact ⟨_, _, step_eq_ok_iff.2 (@Moves.key stack opened entries comma offset ⟨w, .bare⟩ hkey)⟩

theorem WordRun.append {w w' : Text} (h : WordRun w) (h' : WordRun w') : WordRun (w ++ w') := by
  induction h with
  | nil => exact h'
  | unit hc _ ih => exact .unit hc ih
  | group hs _ ih =>
    rw [List.cons_append, List.append_assoc, List.cons_append]
    exact .group hs ih

theorem wordRun_replicate (n : Nat) : WordRun (List.replicate n ('x' : CodeUnit)) := by
  induction n with
  | zero => exact .nil
  | succ n ih => exact .unit ((isWordUnit_iff _).mpr (by decide)) ih

/-- A word in front of a parenthesis may be another word, as long as needed. -/
theorem viable_group {u w v : Text} {before : List Placed} {s : State} {notes : List Note}
    (hleads : Leads 0 u before (w ++ ('(' : CodeUnit) :: v)) (h : Reaches .start before s notes)
    (hw : WordRun w) (htakes : s.TakesWords) : Viable (u ++ w) := by
  obtain ⟨n, hn⟩ := htakes
  generalize htail : List.replicate (n + 1) ('x' : CodeUnit) = tail
  have hlength : tail.length = n + 1 := by rw [← htail, List.length_replicate]
  have hword : IsWord (w ++ tail) := by
    refine ⟨?_, hw.append (htail ▸ wordRun_replicate _)⟩
    rw [← List.length_pos_iff, List.length_append]
    omega
  obtain ⟨next, note, hstep⟩ := hn u.length (w ++ tail) (by rw [List.length_append]; omega)
  have hstops : ¬ StopsWord (w ++ ('(' : CodeUnit) :: v) := by
    intro hstop
    cases w with
    | nil => exact absurd (hstop _ rfl) (by decide)
    | cons c w => exact absurd (hstop c rfl) (by simp [head_endsWord hw])
  have hlexemes := lexemes_word hword (stopsWord_completion next) u.length
  obtain ⟨parsed, hrun⟩ := exists_run_cons hstep
    (run_completion (u ++ (w ++ tail ++ next.completion)).length (u.length + (w ++ tail).length) next)
  rw [← hlexemes] at hrun
  have hparse := parse_leads hleads h (fun hstop => absurd hstop hstops) hrun
  rw [List.append_assoc, ← List.append_assoc] at hparse
  exact ⟨tail ++ next.completion, _, hparse⟩

/-- `Refused s l fault`: the lexeme cannot be taken in the state. -/
inductive Refused : State → Placed → Fault → Prop where
  | value (s : State) (l : Placed) : Refused s l ⟨.expectedValue (some l.lexeme.firstUnit), l.offset⟩
  | key (s : State) (l : Placed) : Refused s l ⟨.expectedKey (some l.lexeme.firstUnit), l.offset⟩
  | colon (s : State) (l : Placed) (key : Text) :
      Refused s l ⟨.expectedColon key (some l.lexeme.firstUnit), l.offset⟩
  | separator (s : State) (l : Placed) (bracket : Bracket) :
      Refused s l ⟨.expectedSeparator bracket l.lexeme.firstUnit, l.offset⟩
  | quote (s : State) (l : Placed) : Refused s l ⟨.unterminatedString, l.offset⟩
  | group {s : State} {l : Placed} {c : CodeUnit} {groupAt : Nat} :
      l.lexeme = .openGroup c groupAt → s.TakesWords → Refused s l ⟨.unclosedGroup, groupAt⟩
  | duplicate {stack : List Frame} {opened : Nat} {entries : List (Key × Value)}
      {comma : Option Nat} {l : Placed} {key : Key} : l.lexeme = key.lexeme →
      key.text ∈ keyTexts entries →
      Refused ⟨stack, .key opened entries comma⟩ l ⟨.duplicateKey key.text, l.offset⟩
  | content (v : Value) (l : Placed) :
      Refused ⟨[], .separator v⟩ l ⟨.trailingContent l.lexeme.firstUnit, l.offset⟩

theorem beginValue_error {stack : List Frame} {s : State} {l : Placed} {fault : Fault}
    (hs : s.TakesWords) (h : beginValue stack l = .error fault) : Refused s l fault := by
  obtain ⟨offset, lexeme⟩ := l
  cases lexeme with
  | mark m => cases m <;> cases h <;> exact .value s _
  | quoted => cases h
  | word => cases h
  | openQuote =>
    cases h
    exact .quote s _
  | openGroup =>
    cases h
    exact .group rfl hs

theorem takeKey_error {stack frames : List Frame} {opened : Nat} {entries : List (Key × Value)}
    {comma : Option Nat} {key : Key} {l : Placed} {fault : Fault} (hl : l.lexeme = key.lexeme)
    (h : takeKey frames opened entries key l.offset = .error fault) :
    Refused ⟨stack, .key opened entries comma⟩ l fault := by
  unfold takeKey at h
  split at h
  · rename_i hany
    cases h
    refine .duplicate hl ?_
    simpa [keyTexts] using hany
  · cases h

theorem key_error {stack : List Frame} {opened : Nat} {entries : List (Key × Value)}
    {comma : Option Nat} {l : Placed} {fault : Fault}
    (h : step ⟨stack, .key opened entries comma⟩ l = .error fault) :
    Refused ⟨stack, .key opened entries comma⟩ l fault := by
  obtain ⟨offset, lexeme⟩ := l
  cases lexeme with
  | mark m => cases m <;> cases h <;> exact .key _ _
  | quoted quote text =>
    have hlexeme : (Placed.mk offset (.quoted quote text)).lexeme =
      (Key.mk text (.quoted quote)).lexeme := rfl
    exact takeKey_error hlexeme h
  | word w =>
    have hlexeme : (Placed.mk offset (.word w)).lexeme = (Key.mk w .bare).lexeme := rfl
    exact takeKey_error hlexeme h
  | openQuote =>
    cases h
    exact .quote _ _
  | openGroup =>
    cases h
    exact .group rfl (takesWords_key stack opened entries comma)

theorem separator_error {stack : List Frame} {v : Value} {l : Placed} {fault : Fault}
    (h : step ⟨stack, .separator v⟩ l = .error fault) : Refused ⟨stack, .separator v⟩ l fault := by
  simp only [step] at h
  split at h
  · cases h
    exact .content v l
  · split at h
    · cases h
    · cases h
    · cases h
      exact .separator _ l .brace
  · split at h
    · cases h
    · cases h
    · cases h
      exact .separator _ l .square

theorem step_error {s : State} {l : Placed} {fault : Fault} (h : step s l = .error fault) :
    Refused s l fault := by
  obtain ⟨stack, expecting⟩ := s
  cases expecting with
  | value => exact beginValue_error (takesWords_value stack) h
  | item opened items comma =>
    simp only [step] at h
    split at h
    · cases h
    · exact beginValue_error (takesWords_item stack opened items comma) h
  | key opened entries comma => exact key_error h
  | colon opened entries key =>
    simp only [step] at h
    split at h
    · cases h
    · cases h
      exact .colon _ l key.text
  | separator v => exact separator_error h

/-- `Unfinished length s fault`: a payload of the length cannot end in the state. -/
inductive Unfinished (length : Nat) : State → Fault → Prop where
  | value (s : State) : Unfinished length s ⟨.expectedValue none, length⟩
  | key (s : State) : Unfinished length s ⟨.expectedKey none, length⟩
  | colon (s : State) (key : Text) : Unfinished length s ⟨.expectedColon key none, length⟩
  | unclosed {s : State} {frame : Frame} : frame ∈ s.stack →
      Unfinished length s ⟨.unclosed frame.bracket, frame.opened⟩

theorem finish_error {length : Nat} {s : State} {fault : Fault} (h : finish length s = .error fault) :
    Unfinished length s fault := by
  obtain ⟨stack, expecting⟩ := s
  cases expecting with
  | value =>
    cases h
    exact .value _
  | item =>
    cases h
    exact .value _
  | key =>
    cases h
    exact .key _
  | colon opened entries key =>
    cases h
    exact .colon _ key.text
  | separator v =>
    cases stack with
    | nil => cases h
    | cons frame stack =>
      have hmem : frame ∈ (State.mk (frame :: stack) (.separator v)).stack := List.mem_cons_self
      cases frame with
      | object =>
        cases h
        exact .unclosed hmem
      | array =>
        cases h
        exact .unclosed hmem

def Expecting.openings : Expecting → List Nat
  | item opened _ _ => [opened]
  | key opened _ _ => [opened]
  | colon opened _ _ => [opened]
  | _ => []

def State.openings (s : State) : List Nat := s.expecting.openings ++ s.stack.map Frame.opened

theorem Begins.openings {stack : List Frame} {next : State} {l : Placed} (h : Begins stack l next) :
    next.openings ⊆ l.offset :: stack.map Frame.opened := by
  cases h <;> simp [State.openings, Expecting.openings]

/-- A container is opened at the lexeme that is taken, or was open before. -/
theorem Moves.openings {s next : State} {l : Placed} {note : Option Note} (h : Moves s l next note) :
    next.openings ⊆ l.offset :: s.openings := by
  cases h with
  | value hbegins => exact hbegins.openings
  | item hbegins => exact hbegins.openings
  | _ => simp [State.openings, Expecting.openings, Frame.opened]

theorem Reaches.openings {s t : State} {ls : List Placed} {notes : List Note} (h : Reaches s ls t notes) :
    t.openings ⊆ ls.map Placed.offset ++ s.openings := by
  induction h with
  | refl => simp
  | @cons s next last l ls note notes hstep _ ih =>
    intro o ho
    have hnext := (moves_of_step hstep).openings
    rcases List.mem_append.mp (ih ho) with ho | ho
    · simp [ho]
    · have hmem := hnext ho
      simp only [List.mem_cons] at hmem
      simp only [List.map_cons, List.cons_append, List.mem_cons, List.mem_append]
      tauto

/-- `fault.Ends t`: the offset of the fault ends a viable start of the payload `t`. Behind a whole
value this start is accepted with that value, and before a repeated key it ends where the key comes
again. -/
structure Fault.Ends (fault : Fault) (t : Text) : Prop where
  inside : fault.offset ≤ t.length
  viable : Viable (t.take fault.offset)
  content : ∀ found, fault.cause = .trailingContent found → ∃ v notes,
    parse (t.take fault.offset) = .ok ⟨v, notes⟩ ∧ LeadingValue t v
  repeated : ∀ key, fault.cause = .duplicateKey key →
    RepeatsKey key (t.take fault.offset) (t.drop fault.offset)

theorem Fault.Ends.of_front {fault : Fault} {u v : Text} (hoffset : fault.offset = u.length)
    (hviable : Viable u)
    (hcontent : ∀ found, fault.cause = .trailingContent found → ∃ value notes,
      parse u = .ok ⟨value, notes⟩ ∧ LeadingValue (u ++ v) value)
    (hrepeated : ∀ key, fault.cause = .duplicateKey key → RepeatsKey key u v) : fault.Ends (u ++ v) := by
  constructor
  · rw [hoffset, List.length_append]
    omega
  · rwa [hoffset, List.take_left]
  · rwa [hoffset, List.take_left]
  · rwa [hoffset, List.take_left, List.drop_left]

theorem Fault.Ends.plain {fault : Fault} {u v : Text} (hoffset : fault.offset = u.length)
    (hviable : Viable u) (hcontent : ∀ found, fault.cause ≠ .trailingContent found)
    (hrepeated : ∀ key, fault.cause ≠ .duplicateKey key) : fault.Ends (u ++ v) :=
  .of_front hoffset hviable (fun found hfound => absurd hfound (hcontent found))
    fun key hkey => absurd hkey (hrepeated key)

theorem leadingValue_of_reaches {t : Text} {before behind : List Placed} {v : Value} {notes : List Note}
    (hlexemes : lexemes 0 t = before ++ behind)
    (h : Reaches .start before ⟨[], .separator v⟩ notes) : LeadingValue t v := by
  obtain ⟨outer, inner, houter, hinner, htaken⟩ := h.taken State.taken_start
  obtain rfl : outer = [] := houter
  refine ⟨inner, hinner, ?_⟩
  rw [hlexemes, List.map_append, ← List.nil_append inner, ← htaken]
  exact List.prefix_append _ _

theorem nodup_of_reaches {before : List Placed} {stack : List Frame} {opened : Nat}
    {entries : List (Key × Value)} {comma : Option Nat} {notes : List Note}
    (h : Reaches .start before ⟨stack, .key opened entries comma⟩ notes) :
    (keyTexts entries).Nodup := by
  obtain ⟨-, -, -, ⟨-, -, -, hnodup, -⟩, -⟩ := h.taken State.taken_start
  exact hnodup

theorem parse_front {u v : Text} {before : List Placed} {value : Value} {notes : List Note}
    (hleads : Leads 0 u before v) (h : Reaches .start before ⟨[], .separator value⟩ notes) :
    parse u = .ok ⟨value, notes⟩ := by
  rw [parse, lexemes_front hleads h.isComplete]
  exact (run_eq_ok_iff _ _ _ _ _).mpr h

theorem repeatsKey_leads {u v : Text} {before behind : List Placed} {stack : List Frame}
    {opened : Nat} {entries : List (Key × Value)} {comma : Option Nat} {notes : List Note} {key : Key}
    (hleads : Leads 0 u before v) (h : Reaches .start before ⟨stack, .key opened entries comma⟩ notes)
    (hcut : Cut u.length v (⟨u.length, key.lexeme⟩ :: behind)) (hkey : key.text ∈ keyTexts entries) :
    RepeatsKey key.text u v := by
  obtain ⟨text, style⟩ := key
  have hcomplete : (Key.mk text style).lexeme.isComplete = true := by cases style <;> rfl
  obtain ⟨w, rest, rfl, hw, hstop, -⟩ := hcut.spelled hcomplete
  have hcount := (nodup_of_reaches h).count (a := text)
  rw [if_pos hkey] at hcount
  have hreading : Reading u ⟨stack, .key opened entries comma⟩ := by
    refine ⟨notes, ?_⟩
    rwa [lexemes_front hleads h.isComplete]
  refine ⟨stack, opened, entries, comma, style, w, rest, hreading, hcount, hw, rfl, ?_⟩
  rintro rfl
  exact hstop rfl

/-- The fault of a lexeme that cannot be taken where the reader stands. -/
theorem Refused.ends {t : Text} {before behind : List Placed} {l : Placed} {s : State}
    {notes : List Note} {fault : Fault} (hlexemes : lexemes 0 t = before ++ l :: behind)
    (hreaches : Reaches .start before s notes) (h : Refused s l fault) : fault.Ends t := by
  have hleading := fun v => @leadingValue_of_reaches t before (l :: behind) v notes hlexemes
  obtain ⟨u, v, rfl, hleads, hcut, hoffset, -⟩ := exists_leads hlexemes hreaches
  have hl : l.offset = u.length := hoffset l rfl
  have hviable := viable_leads hleads hreaches
  cases h with
  | value => exact .plain hl hviable (by simp) (by simp)
  | key => exact .plain hl hviable (by simp) (by simp)
  | colon => exact .plain hl hviable (by simp) (by simp)
  | separator => exact .plain hl hviable (by simp) (by simp)
  | quote => exact .plain hl hviable (by simp) (by simp)
  | @group s l c groupAt hgroup htakes =>
    obtain ⟨offset, lexeme⟩ := l
    dsimp only at hl hgroup
    subst hl hgroup
    obtain ⟨w, rest, rfl, hw, rfl⟩ := hcut.brokenGroup
    have hviable := viable_group hleads hreaches hw htakes
    rw [← List.append_assoc]
    exact .plain (by rw [List.length_append]) hviable (by simp) (by simp)
  | @duplicate stack opened entries comma l key hkey hmem =>
    obtain ⟨offset, lexeme⟩ := l
    dsimp only at hl hkey
    subst hl hkey
    have hrepeats := repeatsKey_leads hleads hreaches hcut hmem
    refine .of_front rfl hviable (by simp) ?_
    intro text hcause
    obtain rfl : key.text = text := Cause.duplicateKey.inj hcause
    exact hrepeats
  | content value l =>
    refine .of_front hl hviable ?_ (by simp)
    intro found _
    exact ⟨value, notes, parse_front hleads hreaches, hleading value hreaches⟩

/-- The fault of a payload that ends too early. -/
theorem Unfinished.ends {t : Text} {s : State} {notes : List Note} {fault : Fault}
    (hreaches : Reaches .start (lexemes 0 t) s notes) (h : Unfinished t.length s fault) :
    fault.Ends t := by
  have hviable : Viable t := by
    obtain ⟨u, v, rfl, hleads, -, -, hend⟩ := exists_leads (List.append_nil _).symm hreaches
    rw [hend rfl, List.append_nil]
    exact viable_leads hleads hreaches
  rw [← List.append_nil t]
  cases h with
  | value => exact .plain rfl hviable (by simp) (by simp)
  | key => exact .plain rfl hviable (by simp) (by simp)
  | colon => exact .plain rfl hviable (by simp) (by simp)
  | @unclosed frame hframe =>
    have hmem : frame.opened ∈ s.openings :=
      List.mem_append_right _ (List.mem_map_of_mem hframe)
    have hopenings := hreaches.openings hmem
    simp only [State.openings, State.start, Expecting.openings, List.map_nil, List.append_nil,
      List.mem_map] at hopenings
    obtain ⟨l, hl, hoffset⟩ := hopenings
    obtain ⟨before, behind, hlexemes⟩ := List.append_of_mem hl
    rw [hlexemes] at hreaches
    obtain ⟨s', before', -, hbefore, -, -⟩ := hreaches.append_inv
    obtain ⟨u, v, rfl, hleads, -, hu, -⟩ := exists_leads hlexemes hbefore
    rw [List.append_nil]
    exact .plain (hoffset.symm.trans (hu l rfl)) (viable_leads hleads hbefore) (by simp) (by simp)

/-- The offset of a fault ends a viable start of the payload. -/
theorem parse_error_ends {t : Text} {fault : Fault} (h : parse t = .error fault) : fault.Ends t := by
  obtain ⟨before, l, behind, s, notes, hlexemes, hreaches, hstep⟩ | ⟨s, notes, hreaches, hfinish⟩ :=
    run_error h
  · exact (step_error hstep).ends hlexemes hreaches
  · exact (finish_error hfinish).ends hreaches

/-- A payload with a key that comes twice, once bare and once quoted. -/
theorem parse_error_ends_repeated :
    parse "\x7ba: 1, 'a': 2\x7d" = .error ⟨.duplicateKey "a", 7⟩ ∧
      Fault.Ends ⟨.duplicateKey "a", 7⟩ "\x7ba: 1, 'a': 2\x7d" := by
  have hlexemes : lexemes 0 "\x7ba: 1, 'a': 2\x7d" =
      [⟨0, .mark .openBrace⟩, ⟨1, .word "a"⟩, ⟨2, .mark .colon⟩, ⟨4, .word "1"⟩, ⟨5, .mark .comma⟩,
        ⟨7, .quoted .single "a"⟩, ⟨10, .mark .colon⟩, ⟨12, .word "2"⟩, ⟨13, .mark .closeBrace⟩] := by
    decide +kernel
  have hparse : parse "\x7ba: 1, 'a': 2\x7d" = .error ⟨.duplicateKey "a", 7⟩ := by
    rw [parse, hlexemes]
    rfl
  exact ⟨hparse, parse_error_ends hparse⟩

end QueryLint.Payload
