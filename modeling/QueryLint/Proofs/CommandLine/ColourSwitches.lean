import Mathlib.Data.List.TakeWhile
import QueryLint.CommandLine.Palette
import QueryLint.Proofs.Outcomes

/-!
The switches for colours are read twice: by the parser of the arguments, and by a search for their
words in front of the first bare `--`. The search knows nothing of values. It takes a value for a
switch when it is written like one, and a value `--` for the end of the options. Apart from such
values the two readings agree, and this module says exactly on which lists of arguments they do.
-/

namespace QueryLint.CommandLine
set_option autoImplicit false

/-- Whether the parsed switches ask for colours; without any, a terminal decides. -/
def Arguments.wantsColour (a : Arguments) (isTerminal : Bool) : Bool :=
  if a.has .noColor then false else a.has .color || isTerminal

namespace Part

def isBareValue : Part → Bool
  | value _ text => text = dashes
  | _ => false

/-- What a search by words takes for the switch: the switch itself, or a value written like it. -/
def LooksLike (s : Switch) : Part → Prop
  | operand _ => False
  | value _ text => text = dashes ++ s.word
  | switch found => found = s

/-- A search up to the first bare `--` meets the switch. -/
def Shows (s : Switch) (parts : List Part) : Prop :=
  ∃ p ∈ parts.takeWhile (fun p => !p.isBareValue), p.LooksLike s

/-- What a search meets is what was parsed, as far as the decision depends on it. -/
def ReadAlike (parts : List Part) : Prop :=
  (Shows .noColor parts ↔ switch .noColor ∈ parts) ∧
    (switch .noColor ∉ parts → (Shows .color parts ↔ switch .color ∈ parts))

theorem shows_cons {s : Switch} {p : Part} (hp : p.isBareValue = false) (parts : List Part) :
    Shows s (p :: parts) ↔ p.LooksLike s ∨ Shows s parts := by
  simp [Shows, hp]

end Part

theorem Switch.word_of_ofWord? {word : Text} {s : Switch} (h : Switch.ofWord? word = some s) :
    s.word = word := by
  simpa using List.find?_some h

theorem Switch.ofWord?_word (s : Switch) : Switch.ofWord? s.word = some s := by
  cases s <;> decide

theorem Switch.word_injective : Function.Injective Switch.word := by
  intro s s' h
  have hfind := Switch.ofWord?_word s
  rw [h, Switch.ofWord?_word] at hfind
  exact (Option.some.inj hfind).symm

theorem startsWith_spelled (word : Text) : Text.startsWith (dashes ++ word) dashes = true := by
  simp [Text.startsWith]

theorem spelled_of_startsWith {argument : Text} (h : Text.startsWith argument dashes = true) :
    argument = dashes ++ argument.drop dashes.length := by
  obtain ⟨rest, rfl⟩ := List.isPrefixOf_iff_prefix.1 h
  simp

theorem considered_cons {argument : Text} (h : argument ≠ dashes) (rest : List Text) :
    Palette.considered (argument :: rest) = argument :: Palette.considered rest := by
  simp [Palette.considered, h]

theorem mem_considered_iff {arguments : List Text} {parts : List Part}
    (h : Part.ofArguments arguments = .ok parts) (s : Switch) :
    dashes ++ s.word ∈ Palette.considered arguments ↔ Part.Shows s parts := by
  fun_induction Part.ofArguments arguments generalizing parts with
  | case1 =>
    cases h
    simp [Palette.considered, Part.Shows]
  | case2 rest =>
    -- behind the bare `--` there are only operands
    cases h
    simp only [Palette.considered, Part.Shows]
    constructor
    · intro hmem
      simp at hmem
    · rintro ⟨p, hp, hlooks⟩
      obtain ⟨text, -, rfl⟩ := List.mem_map.1 (List.takeWhile_subset _ hp)
      exact hlooks.elim
  | case3 argument rest hbare hoption ih =>
    obtain ⟨tail, htail, rfl⟩ := Except.exists_of_map_ok h
    have hother : dashes ++ s.word ≠ argument := by
      rintro rfl
      simp [startsWith_spelled] at hoption
    rw [considered_cons hbare, Part.shows_cons rfl, List.mem_cons, ih htail]
    simp [hother, Part.LooksLike]
  | case4 argument rest hbare hoption word found hfound =>
    rename_i ih
    obtain ⟨tail, htail, rfl⟩ := Except.exists_of_map_ok h
    have hargument : argument = dashes ++ found.word := by
      rw [Switch.word_of_ofWord? hfound]
      exact spelled_of_startsWith (by simpa using hoption)
    have hsame : dashes ++ s.word = argument ↔ found = s := by
      rw [hargument, List.append_cancel_left_eq, Switch.word_injective.eq_iff, eq_comm]
    rw [considered_cons hbare, Part.shows_cons rfl, List.mem_cons, ih htail, hsame]
    rfl
  | case5 => cases h
  | case6 => cases h
  | case7 argument hbare hoption word hswitch option hfound text rest =>
    rename_i ih
    obtain ⟨tail, htail, rfl⟩ := Except.exists_of_map_ok h
    have hother : dashes ++ s.word ≠ argument := by
      rintro rfl
      have hword : word = s.word := List.drop_left
      rw [hword, Switch.ofWord?_word] at hswitch
      cases hswitch
    rw [considered_cons hbare, List.mem_cons]
    by_cases htext : text = dashes
    · -- the search stops at the value
      subst htext
      simp [hother, Palette.considered, Part.Shows, Part.isBareValue]
    · rw [considered_cons htext, List.mem_cons, ih htail, Part.shows_cons (by simp [Part.isBareValue, htext])]
      simp [hother, Part.LooksLike, eq_comm]

theorem has_iff (parts : List Part) (s : Switch) :
    (Arguments.ofParts parts).has s = true ↔ Part.switch s ∈ parts := by
  simp only [Arguments.has, Arguments.ofParts, List.contains_iff_mem, List.mem_filterMap]
  constructor
  · rintro ⟨p, hp, hs⟩
    split at hs
    · cases hs
      exact hp
    · cases hs
  · intro hs
    exact ⟨_, hs, rfl⟩

theorem mem_values_iff (parts : List Part) (option : ValueOption) (text : Text) :
    (option, text) ∈ (Arguments.ofParts parts).values ↔ Part.value option text ∈ parts := by
  simp only [Arguments.ofParts, List.mem_filterMap]
  constructor
  · rintro ⟨p, hp, hs⟩
    split at hs
    · cases hs
      exact hp
    · cases hs
  · intro hs
    exact ⟨_, hs, rfl⟩

/-- Without values that look like a switch or like the end of the options the parts show the switches
that were parsed. -/
theorem Part.shows_iff_mem {parts : List Part} {s : Switch}
    (h : ∀ option text, value option text ∈ parts → text ≠ dashes ∧ text ≠ dashes ++ s.word) :
    Shows s parts ↔ switch s ∈ parts := by
  have hall : parts.takeWhile (fun p => !p.isBareValue) = parts := by
    apply List.takeWhile_eq_self_iff.2
    intro p hp
    cases p with
    | operand text => rfl
    | switch found => rfl
    | value option text => simp [isBareValue, (h option text hp).1]
  rw [Shows, hall]
  constructor
  · rintro ⟨p, hp, hlooks⟩
    cases p with
    | operand text => exact hlooks.elim
    | switch found =>
      cases hlooks
      exact hp
    | value option text => exact absurd hlooks (h option text hp).2
  · intro hs
    exact ⟨_, hs, rfl⟩

/-- The decision of the search, in an environment that says nothing. -/
theorem isWanted_eq {arguments : List Text} {parts : List Part} {environment : Record Text}
    (h : Part.ofArguments arguments = .ok parts)
    (hno : Record.get? environment "NO_COLOR" = none)
    (hforce : Record.get? environment "FORCE_COLOR" = none) (isTerminal : Bool) :
    Palette.isWanted arguments environment isTerminal = true ↔
      ¬Part.Shows .noColor parts ∧ (Part.Shows .color parts ∨ isTerminal = true) := by
  rw [← mem_considered_iff h, ← mem_considered_iff h]
  simp [Palette.isWanted, hno, hforce]

/-- The two readings of the switches decide alike, for a terminal and without one, exactly if the
parts are read alike; and they are where no value is written `--`, `--no-color` or `--color`. -/
theorem isWanted_eq_wantsColour_iff {arguments : List Text} {a : Arguments} {environment : Record Text}
    (hparse : Arguments.parse arguments = .ok a)
    (hno : Record.get? environment "NO_COLOR" = none)
    (hforce : Record.get? environment "FORCE_COLOR" = none) :
    ∃ parts, Part.ofArguments arguments = .ok parts ∧ Arguments.ofParts parts = a ∧
      ((∀ isTerminal, Palette.isWanted arguments environment isTerminal = a.wantsColour isTerminal) ↔
        Part.ReadAlike parts) ∧
      ((∀ v ∈ a.values, v.2 ≠ dashes ∧ v.2 ≠ dashes ++ Switch.noColor.word ∧
          v.2 ≠ dashes ++ Switch.color.word) → Part.ReadAlike parts) := by
  obtain ⟨parts, hparts, rfl⟩ := Except.exists_of_map_ok hparse
  refine ⟨parts, hparts, rfl, ?_, ?_⟩
  · have hwants : ∀ isTerminal, (Arguments.ofParts parts).wantsColour isTerminal = true ↔
        Part.switch .noColor ∉ parts ∧ (Part.switch .color ∈ parts ∨ isTerminal = true) := by
      intro isTerminal
      rw [← has_iff, ← has_iff, Arguments.wantsColour]
      cases (Arguments.ofParts parts).has .noColor <;> simp
    have hsame : ∀ isTerminal, Palette.isWanted arguments environment isTerminal =
        (Arguments.ofParts parts).wantsColour isTerminal ↔
        ((¬Part.Shows .noColor parts ∧ (Part.Shows .color parts ∨ isTerminal = true)) ↔
          (Part.switch .noColor ∉ parts ∧ (Part.switch .color ∈ parts ∨ isTerminal = true))) := by
      intro isTerminal
      rw [Bool.eq_iff_iff, isWanted_eq hparts hno hforce, hwants]
    simp only [hsame, Bool.forall_bool, Part.ReadAlike]
    by_cases hshows : Part.Shows .noColor parts <;>
      by_cases hswitch : Part.switch .noColor ∈ parts <;> simp [hshows, hswitch]
  · intro hvalues
    have hvalue : ∀ option text, Part.value option text ∈ parts → text ≠ dashes ∧
        text ≠ dashes ++ Switch.noColor.word ∧ text ≠ dashes ++ Switch.color.word := by
      intro option text hmem
      exact hvalues (option, text) ((mem_values_iff parts option text).2 hmem)
    constructor
    · apply Part.shows_iff_mem
      intro option text hmem
      exact ⟨(hvalue option text hmem).1, (hvalue option text hmem).2.1⟩
    · intro _
      apply Part.shows_iff_mem
      intro option text hmem
      exact ⟨(hvalue option text hmem).1, (hvalue option text hmem).2.2⟩

/-- A plain value and an operand that looks like a switch: the one switch counts in both readings. -/
theorem isWanted_eq_wantsColour_named :
    ∃ a, Arguments.parse ["validate", "--name", "x", "--no-color", "--", "--color"] = .ok a ∧
      ∀ isTerminal,
        Palette.isWanted ["validate", "--name", "x", "--no-color", "--", "--color"] [] isTerminal =
          a.wantsColour isTerminal := by
  have hparse : Arguments.parse ["validate", "--name", "x", "--no-color", "--", "--color"] =
      .ok ⟨some "validate", ["--color"], [(.name, "x")], [.noColor]⟩ := by decide +kernel
  obtain ⟨parts, -, -, hiff, hplain⟩ :=
    @isWanted_eq_wantsColour_iff _ _ [] hparse rfl rfl
  exact ⟨_, hparse, hiff.2 (hplain (by decide))⟩

/-- A value that looks like a switch turns colours off, and a value `--` hides a switch. -/
theorem isWanted_ne_wantsColour :
    (∃ a, Arguments.parse ["validate", "--name", "--no-color"] = .ok a ∧
      Palette.isWanted ["validate", "--name", "--no-color"] [] true = false ∧
      a.wantsColour true = true) ∧
    ∃ a, Arguments.parse ["validate", "--name", "--", "--no-color"] = .ok a ∧
      Palette.isWanted ["validate", "--name", "--", "--no-color"] [] true = true ∧
      a.wantsColour true = false := by
  have hvalue : Arguments.parse ["validate", "--name", "--no-color"] =
      .ok ⟨some "validate", [], [(.name, "--no-color")], []⟩ := by decide +kernel
  have hbare : Arguments.parse ["validate", "--name", "--", "--no-color"] =
      .ok ⟨some "validate", [], [(.name, "--")], [.noColor]⟩ := by decide +kernel
  exact ⟨⟨_, hvalue, by decide, by decide⟩, _, hbare, by decide, by decide⟩

end QueryLint.CommandLine
