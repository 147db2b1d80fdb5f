import QueryLint.Proofs.Payload.Lexing
import QueryLint.Proofs.Payload.Moves

/-!
Reading lexemes, against the grammar.

What the reader has taken so far determines its state: every open container has taken its opening
bracket and its parts up to the current one, and the value that was read last has a derivation. The
invariant is kept by each step, so an accepted list of lexemes is the list of a derivation. In the
other direction the reader passes over the lexemes of every well-formed derivation, and no list of
lexemes has two derivations.
-/

namespace QueryLint.Payload
set_option autoImplicit false

theorem wordValue_iff_classify (w : Text) (v : Value) : WordValue w v ↔ classify w = v := by
  have hyes : Number.ofLiteral? ("true" : Text) = none := by decide
  have hno : Number.ofLiteral? ("false" : Text) = none := by decide
  have hnull : Number.ofLiteral? ("null" : Text) = none := by decide
  constructor
  · intro h
    cases h with
    | yes => rfl
    | no => rfl
    | null => rfl
    | @number w n hn =>
      have h1 : w ≠ ("true" : Text) := by rintro rfl; simp [hyes] at hn
      have h2 : w ≠ ("false" : Text) := by rintro rfl; simp [hno] at hn
      have h3 : w ≠ ("null" : Text) := by rintro rfl; simp [hnull] at hn
      simp [classify, h1, h2, h3, hn]
    | bare h1 h2 h3 hn => simp [classify, h1, h2, h3, hn]
  · rintro rfl
    unfold classify
    split
    · subst w; exact .yes
    · rename_i htrue
      split
      · subst w; exact .no
      · rename_i hfalse
        split
        · subst w; exact .null
        · rename_i hnull
          split
          · rename_i hn
            exact .number hn
          · rename_i hn
            exact .bare htrue hfalse hnull hn

theorem wordValue_classify (w : Text) : WordValue w (classify w) :=
  (wordValue_iff_classify w _).mpr rfl

theorem WordValue.unique {w : Text} {v v' : Value} (h : WordValue w v) (h' : WordValue w v') :
    v = v' :=
  ((wordValue_iff_classify w v).mp h).symm.trans ((wordValue_iff_classify w v').mp h')

def followed (parts : List (List Lexeme)) : List Lexeme := parts.flatMap (· ++ [.mark .comma])

theorem continued_concat (close : Mark) (first last : List Lexeme) (parts : List (List Lexeme)) :
    first ++ continued close false (parts ++ [last]) =
      followed (first :: parts) ++ last ++ [.mark close] := by
  induction parts generalizing first with
  | nil => simp [continued, followed]
  | cons part parts ih =>
    have h := ih part
    simp only [List.cons_append, continued, followed, List.flatMap_cons, List.append_assoc] at h ⊢
    simp [h]

/-- A container whose last part stands right before the closing bracket. -/
theorem enclosed_concat (close : Mark) (parts : List (List Lexeme)) (last : List Lexeme) :
    enclosed close false (parts ++ [last]) = followed parts ++ last ++ [.mark close] := by
  cases parts with
  | nil => simp [enclosed, continued, followed]
  | cons first parts => exact continued_concat close first last parts

/-- A container that is closed behind a comma, or that has no parts. -/
theorem enclosed_trailing (close : Mark) (parts : List (List Lexeme)) :
    enclosed close (!parts.isEmpty) parts = followed parts ++ [.mark close] := by
  cases parts with
  | nil => simp [enclosed, followed]
  | cons first parts =>
    simp only [enclosed, List.isEmpty_cons, Bool.not_false]
    induction parts generalizing first with
    | nil => simp [continued, followed]
    | cons part parts ih =>
      have h := ih part
      simp only [continued, followed, List.flatMap_cons, List.append_assoc] at h ⊢
      simp [h]

def entryTokens (entry : Key × Derivation) : List Lexeme :=
  entry.1.lexeme :: .mark .colon :: entry.2.tokens

def entryValue (entry : Key × Derivation) : Key × Value := (entry.1, entry.2.value)

def Written (v : Value) (ls : List Lexeme) : Prop := ∃ d : Derivation, d.WellFormed ∧ d.value = v ∧ d.tokens = ls

/-- The lexemes of an array up to where its next item may stand. -/
def ItemsTaken (items : List Value) (ls : List Lexeme) : Prop :=
  ∃ ds : List Derivation, (∀ d ∈ ds, d.WellFormed) ∧ ds.map Derivation.value = items ∧
    ls = .mark .openSquare :: followed (ds.map Derivation.tokens)

/-- The lexemes of an object up to where its next entry may stand. -/
def EntriesTaken (entries : List (Key × Value)) (ls : List Lexeme) : Prop :=
  ∃ ds : List (Key × Derivation), (∀ d ∈ ds, d.2.WellFormed) ∧ ds.map entryValue = entries ∧
    (keyTexts entries).Nodup ∧ ls = .mark .openBrace :: followed (ds.map entryTokens)

def Frame.Taken : Frame → List Lexeme → Prop
  | .object _ entries key, ls => ∃ before, EntriesTaken entries before ∧
      key.text ∉ keyTexts entries ∧ ls = before ++ [key.lexeme, .mark .colon]
  | .array _ items, ls => ItemsTaken items ls

def StackTaken : List Frame → List Lexeme → Prop
  | [], ls => ls = []
  | frame :: frames, ls => ∃ outer inner, StackTaken frames outer ∧ frame.Taken inner ∧ ls = outer ++ inner

def Expecting.Taken : Expecting → List Lexeme → Prop
  | .value, ls => ls = []
  | .item _ items _, ls => ItemsTaken items ls
  | .key _ entries _, ls => EntriesTaken entries ls
  | .colon _ entries k, ls => ∃ before, EntriesTaken entries before ∧
      k.text ∉ keyTexts entries ∧ ls = before ++ [k.lexeme]
  | .separator v, ls => Written v ls

/-- `s.Taken ls`: the reader is in the state `s` when it has taken the lexemes `ls`. -/
def State.Taken (s : State) (ls : List Lexeme) : Prop :=
  ∃ outer inner, StackTaken s.stack outer ∧ s.expecting.Taken inner ∧ ls = outer ++ inner

theorem State.taken_start : State.start.Taken [] := ⟨[], [], rfl, rfl, rfl⟩

theorem keyTexts_concat (entries : List (Key × Value)) (key : Key) (v : Value) :
    keyTexts (entries ++ [(key, v)]) = keyTexts entries ++ [key.text] := by
  simp [keyTexts]

theorem ItemsTaken.nil : ItemsTaken [] [.mark .openSquare] := ⟨[], by simp, rfl, rfl⟩

theorem EntriesTaken.nil : EntriesTaken [] [.mark .openBrace] := ⟨[], by simp, rfl, .nil, rfl⟩

theorem ItemsTaken.concat {items : List Value} {before ls : List Lexeme} {v : Value}
    (hitems : ItemsTaken items before) (hv : Written v ls) :
    ItemsTaken (items ++ [v]) (before ++ ls ++ [.mark .comma]) := by
  obtain ⟨ds, hds, rfl, rfl⟩ := hitems
  obtain ⟨d, hd, rfl, rfl⟩ := hv
  refine ⟨ds ++ [d], ?_, by simp, by simp [followed]⟩
  intro e he
  rcases List.mem_append.mp he with he | he
  · exact hds e he
  · obtain rfl := List.mem_singleton.mp he
    exact hd

theorem nodup_keyTexts_concat {entries : List (Key × Value)} {key : Key} (v : Value)
    (hnodup : (keyTexts entries).Nodup) (hkey : key.text ∉ keyTexts entries) :
    (keyTexts (entries ++ [(key, v)])).Nodup := by
  rw [keyTexts_concat, List.nodup_append]
  refine ⟨hnodup, by simp, ?_⟩
  intro a ha b hb
  obtain rfl := List.mem_singleton.mp hb
  rintro rfl
  exact hkey ha

theorem EntriesTaken.concat {entries : List (Key × Value)} {before ls : List Lexeme} {key : Key}
    {v : Value} (hentries : EntriesTaken entries before) (hkey : key.text ∉ keyTexts entries)
    (hv : Written v ls) :
    EntriesTaken (entries ++ [(key, v)])
      (before ++ [key.lexeme, .mark .colon] ++ ls ++ [.mark .comma]) := by
  obtain ⟨ds, hds, rfl, hnodup, rfl⟩ := hentries
  obtain ⟨d, hd, rfl, rfl⟩ := hv
  refine ⟨ds ++ [(key, d)], ?_, by simp [entryValue], nodup_keyTexts_concat _ hnodup hkey,
    by simp [followed, entryTokens]⟩
  intro e he
  rcases List.mem_append.mp he with he | he
  · exact hds e he
  · obtain rfl := List.mem_singleton.mp he
    exact hd

theorem nodup_keys {entries : List (Key × Derivation)}
    (h : (keyTexts (entries.map entryValue)).Nodup) : (entries.map (·.1.text)).Nodup := by
  simpa [keyTexts, entryValue, Function.comp_def] using h

theorem ItemsTaken.close {items : List Value} {before : List Lexeme} (h : ItemsTaken items before) :
    Written (.array items) (before ++ [.mark .closeSquare]) := by
  obtain ⟨ds, hds, rfl, rfl⟩ := h
  refine ⟨.array ds (!(ds.map Derivation.tokens).isEmpty), .array hds ?_, ?_, ?_⟩
  · intro ht
    simpa using ht
  · simp [Derivation.value, Derivation.itemsValue_eq]
  · rw [Derivation.tokens, Derivation.itemsTokens_eq, enclosed_trailing]
    rfl

theorem ItemsTaken.closeBehind {items : List Value} {before ls : List Lexeme} {v : Value}
    (h : ItemsTaken items before) (hv : Written v ls) :
    Written (.array (items ++ [v])) (before ++ ls ++ [.mark .closeSquare]) := by
  obtain ⟨ds, hds, rfl, rfl⟩ := h
  obtain ⟨d, hd, rfl, rfl⟩ := hv
  refine ⟨.array (ds ++ [d]) false, .array ?_ (by simp), ?_, ?_⟩
  · intro e he
    rcases List.mem_append.mp he with he | he
    · exact hds e he
    · obtain rfl := List.mem_singleton.mp he
      exact hd
  · simp [Derivation.value, Derivation.itemsValue_eq]
  · rw [Derivation.tokens, Derivation.itemsTokens_eq, List.map_append, List.map_singleton,
      enclosed_concat]
    simp

theorem EntriesTaken.close {entries : List (Key × Value)} {before : List Lexeme}
    (h : EntriesTaken entries before) :
    Written (.object entries) (before ++ [.mark .closeBrace]) := by
  obtain ⟨ds, hds, rfl, hnodup, rfl⟩ := h
  refine ⟨.object ds (!(ds.map entryTokens).isEmpty), .object hds (nodup_keys hnodup) ?_, ?_, ?_⟩
  · intro ht
    simpa using ht
  · rw [Derivation.value, Derivation.entriesValue_eq]
    rfl
  · rw [Derivation.tokens, Derivation.entriesTokens_eq]
    exact congrArg _ (enclosed_trailing _ (ds.map entryTokens))

theorem EntriesTaken.closeBehind {entries : List (Key × Value)} {before ls : List Lexeme} {key : Key}
    {v : Value} (h : EntriesTaken entries before) (hkey : key.text ∉ keyTexts entries)
    (hv : Written v ls) :
    Written (.object (entries ++ [(key, v)]))
      (before ++ [key.lexeme, .mark .colon] ++ ls ++ [.mark .closeBrace]) := by
  obtain ⟨ds, hds, rfl, hnodup, rfl⟩ := h
  obtain ⟨d, hd, rfl, rfl⟩ := hv
  have hkeys := nodup_keyTexts_concat d.value hnodup hkey
  refine ⟨.object (ds ++ [(key, d)]) false, .object ?_ ?_ (by simp), ?_, ?_⟩
  · intro e he
    rcases List.mem_append.mp he with he | he
    · exact hds e he
    · obtain rfl := List.mem_singleton.mp he
      exact hd
  · apply nodup_keys
    simpa [entryValue] using hkeys
  · rw [Derivation.value, Derivation.entriesValue_eq]
    simp [entryValue]
  · rw [Derivation.tokens, Derivation.entriesTokens_eq]
    have hparts := enclosed_concat .closeBrace (ds.map entryTokens) (entryTokens (key, d))
    simp only [List.map_append, List.map_singleton]
    refine (congrArg _ hparts).trans ?_
    simp [entryTokens]

theorem Begins.taken {stack : List Frame} {before : List Lexeme} {l : Placed} {next : State}
    (h : Begins stack l next) (hstack : StackTaken stack before) : next.Taken (before ++ [l.lexeme]) := by
  cases h with
  | brace offset => exact ⟨before, _, hstack, .nil, rfl⟩
  | square offset => exact ⟨before, _, hstack, .nil, rfl⟩
  | quoted offset quote text =>
    exact ⟨before, _, hstack, ⟨.quoted quote text, .quoted quote text, rfl, rfl⟩, rfl⟩
  | word offset w =>
    exact ⟨before, _, hstack, ⟨.word w (classify w), .word (wordValue_classify w), rfl, rfl⟩, rfl⟩

theorem Moves.taken {s next : State} {before : List Lexeme} {l : Placed} {note : Option Note}
    (h : Moves s l next note) (hs : s.Taken before) : next.Taken (before ++ [l.lexeme]) := by
  obtain ⟨outer, inner, hstack, hexp, rfl⟩ := hs
  cases h with
  | value hbegins =>
    obtain rfl : inner = [] := hexp
    rw [List.append_nil]
    exact hbegins.taken hstack
  | item hbegins => exact hbegins.taken ⟨outer, inner, hstack, hexp, rfl⟩
  | closeItems =>
    rw [List.append_assoc]
    exact ⟨outer, _, hstack, ItemsTaken.close hexp, rfl⟩
  | key stack opened comma offset hkey =>
    rw [List.append_assoc]
    exact ⟨outer, _, hstack, ⟨inner, hexp, hkey, rfl⟩, rfl⟩
  | closeEntries =>
    rw [List.append_assoc]
    exact ⟨outer, _, hstack, EntriesTaken.close hexp, rfl⟩
  | colon stack opened entries key =>
    obtain ⟨before, hentries, hkey, rfl⟩ := hexp
    refine ⟨outer ++ (before ++ [key.lexeme, .mark .colon]), [], ?_, rfl, by simp⟩
    exact ⟨outer, _, hstack, ⟨before, hentries, hkey, rfl⟩, rfl⟩
  | entryComma =>
    obtain ⟨outer, part, hframes, ⟨before, hentries, hkey, rfl⟩, rfl⟩ := hstack
    exact ⟨outer, _, hframes, hentries.concat hkey hexp, by simp⟩
  | entryClose =>
    obtain ⟨outer, part, hframes, ⟨before, hentries, hkey, rfl⟩, rfl⟩ := hstack
    exact ⟨outer, _, hframes, hentries.closeBehind hkey hexp, by simp⟩
  | itemComma =>
    obtain ⟨outer, part, hframes, hitems, rfl⟩ := hstack
    exact ⟨outer, _, hframes, ItemsTaken.concat hitems hexp, by simp⟩
  | itemClose =>
    obtain ⟨outer, part, hframes, hitems, rfl⟩ := hstack
    exact ⟨outer, _, hframes, ItemsTaken.closeBehind hitems hexp, by simp⟩

theorem Reaches.taken {s t : State} {ls : List Placed} {notes : List Note} {before : List Lexeme}
    (h : Reaches s ls t notes) (hs : s.Taken before) : t.Taken (before ++ ls.map Placed.lexeme) := by
  induction h generalizing before with
  | refl => simpa using hs
  | cons hstep _ ih => simpa using ih ((moves_of_step hstep).taken hs)

/-- Accepted lexemes are those of a derivation of the value. -/
theorem run_taken {length : Nat} {s : State} {before : List Lexeme} {ls : List Placed} {v : Value}
    {notes : List Note} (hs : s.Taken before) (h : run length s ls = .ok ⟨v, notes⟩) :
    Written v (before ++ ls.map Placed.lexeme) := by
  obtain ⟨outer, inner, houter, hv, htaken⟩ := ((run_eq_ok_iff _ _ _ _ _).1 h).taken hs
  obtain rfl : outer = [] := houter
  rw [htaken]
  exact hv

theorem Moves.step {s next : State} {l : Placed} {lexeme : Lexeme} {note : Option Note}
    (h : Moves s ⟨l.offset, lexeme⟩ next note) (hl : l.lexeme = lexeme) : step s l = .ok (next, note) := by
  subst hl
  exact step_eq_ok_iff.2 h

theorem tokens_ne_nil (d : Derivation) : d.tokens ≠ [] := by
  cases d <;> simp [Derivation.tokens]

def StartsValue (l : Lexeme) : Prop :=
  l ≠ .mark .closeSquare ∧ l ≠ .mark .closeBrace ∧ l ≠ .mark .comma ∧ l ≠ .mark .colon

theorem startsValue_tokens {d : Derivation} {l : Lexeme} {ls : List Lexeme} (h : d.tokens = l :: ls) :
    StartsValue l := by
  cases d <;> simp only [Derivation.tokens, List.cons.injEq] at h <;> obtain ⟨rfl, -⟩ := h <;>
    simp [StartsValue]

/-- Inside an array a value may start wherever an item may. -/
theorem reaches_item {stack : List Frame} {opened : Nat} {items : List Value} {comma : Option Nat}
    {ls : List Placed} {s : State} {notes : List Note} {d : Derivation}
    (hls : ls.map Placed.lexeme = d.tokens)
    (h : Reaches ⟨.array opened items :: stack, .value⟩ ls s notes) :
    Reaches ⟨stack, .item opened items comma⟩ ls s notes := by
  cases h with
  | refl => exact absurd hls.symm (tokens_ne_nil d)
  | cons hstep hrest =>
    cases moves_of_step hstep with
    | value hbegins => exact .cons (step_eq_ok_iff.2 (.item hbegins)) hrest

/-- Passing over a value inside its container, whatever surrounds it. -/
def Passes (d : Derivation) : Prop :=
  ∀ (stack : List Frame) (ls : List Placed), ls.map Placed.lexeme = d.tokens →
    ∃ notes, Reaches ⟨stack, .value⟩ ls ⟨stack, .separator d.value⟩ notes

theorem reaches_entry (stack : List Frame) (opened : Nat) (entries : List (Key × Value))
    (comma : Option Nat) {entry : Key × Derivation} {ls : List Placed} (hd : Passes entry.2)
    (hkey : entry.1.text ∉ keyTexts entries) (hls : ls.map Placed.lexeme = entryTokens entry) :
    ∃ notes, Reaches ⟨stack, .key opened entries comma⟩ ls
      ⟨.object opened entries entry.1 :: stack, .separator entry.2.value⟩ notes := by
  obtain ⟨l, ls, rfl, hl, hls⟩ := List.map_eq_cons_iff.mp hls
  obtain ⟨colon, ls, rfl, hcolon, hls⟩ := List.map_eq_cons_iff.mp hls
  have hstep := (Moves.key stack opened comma l.offset hkey).step hl
  have hcol := (Moves.colon stack opened entries entry.1 colon.offset).step hcolon
  obtain ⟨notes, hvalue⟩ := hd (.object opened entries entry.1 :: stack) ls hls
  exact ⟨_, .cons hstep (.cons hcol hvalue)⟩

theorem reaches_continued_items (stack : List Frame) (opened : Nat) (items : List Value) (v : Value)
    {trailing : Bool} {ds : List Derivation} {ls : List Placed} (hds : ∀ d ∈ ds, Passes d)
    (hls : ls.map Placed.lexeme = continued .closeSquare trailing (ds.map Derivation.tokens)) :
    ∃ notes, Reaches ⟨.array opened items :: stack, .separator v⟩ ls
      ⟨stack, .separator (.array (items ++ v :: ds.map Derivation.value))⟩ notes := by
  induction ds generalizing items v ls with
  | nil =>
    cases trailing with
    | false =>
      obtain ⟨l, rfl, hl⟩ := List.map_eq_singleton_iff.mp hls
      exact ⟨_, .single ((Moves.itemClose stack opened items v l.offset).step hl)⟩
    | true =>
      obtain ⟨comma, ls, rfl, hcomma, hls⟩ := List.map_eq_cons_iff.mp hls
      obtain ⟨l, rfl, hl⟩ := List.map_eq_singleton_iff.mp hls
      have hstep := (Moves.itemComma stack opened items v comma.offset).step hcomma
      exact ⟨_, .cons hstep (.single ((Moves.closeItems ..).step hl))⟩
  | cons d ds ih =>
    obtain ⟨comma, ls, rfl, hcomma, hls⟩ := List.map_eq_cons_iff.mp hls
    obtain ⟨part, rest, rfl, hpart, hrest⟩ := List.map_eq_append_iff.mp hls
    have hstep := (Moves.itemComma stack opened items v comma.offset).step hcomma
    obtain ⟨notes, hd⟩ := hds d (by simp) (.array opened (items ++ [v]) :: stack) part hpart
    obtain ⟨more, hds⟩ := ih (items ++ [v]) d.value
      (fun e he => hds e (List.mem_cons_of_mem d he)) hrest
    rw [List.append_assoc, List.singleton_append] at hds
    exact ⟨_, .cons hstep ((reaches_item hpart hd).trans hds)⟩

theorem reaches_continued_entries (stack : List Frame) (opened : Nat) (entries : List (Key × Value))
    (key : Key) (v : Value) {trailing : Bool} {ds : List (Key × Derivation)} {ls : List Placed}
    (hds : ∀ d ∈ ds, Passes d.2)
    (hkeys : (keyTexts (entries ++ (key, v) :: ds.map entryValue)).Nodup)
    (hls : ls.map Placed.lexeme = continued .closeBrace trailing (ds.map entryTokens)) :
    ∃ notes, Reaches ⟨.object opened entries key :: stack, .separator v⟩ ls
      ⟨stack, .separator (.object (entries ++ (key, v) :: ds.map entryValue))⟩ notes := by
  induction ds generalizing entries key v ls with
  | nil =>
    cases trailing with
    | false =>
      obtain ⟨l, rfl, hl⟩ := List.map_eq_singleton_iff.mp hls
      exact ⟨_, .single ((Moves.entryClose stack opened entries key v l.offset).step hl)⟩
    | true =>
      obtain ⟨comma, ls, rfl, hcomma, hls⟩ := List.map_eq_cons_iff.mp hls
      obtain ⟨l, rfl, hl⟩ := List.map_eq_singleton_iff.mp hls
      have hstep := (Moves.entryComma stack opened entries key v comma.offset).step hcomma
      exact ⟨_, .cons hstep (.single ((Moves.closeEntries ..).step hl))⟩
  | cons d ds ih =>
    obtain ⟨comma, ls, rfl, hcomma, hls⟩ := List.map_eq_cons_iff.mp hls
    obtain ⟨part, rest, rfl, hpart, hrest⟩ := List.map_eq_append_iff.mp hls
    have hstep := (Moves.entryComma stack opened entries key v comma.offset).step hcomma
    rw [List.map_cons, ← List.singleton_append, ← List.append_assoc] at hkeys
    have hkey : d.1.text ∉ keyTexts (entries ++ [(key, v)]) := by
      have hn := hkeys
      simp only [keyTexts, List.map_append, List.map_cons] at hn
      intro hmem
      exact (List.nodup_append.mp hn).2.2 d.1.text (by simpa [keyTexts] using hmem) d.1.text
        (by simp [entryValue]) rfl
    obtain ⟨notes, hd⟩ := reaches_entry stack opened (entries ++ [(key, v)]) (some comma.offset)
      (hds d (by simp)) hkey hpart
    obtain ⟨more, hds⟩ := ih (entries ++ [(key, v)]) d.1 d.2.value
      (fun e he => hds e (List.mem_cons_of_mem d he)) hkeys hrest
    rw [List.append_assoc, List.singleton_append] at hds
    exact ⟨_, .cons hstep (hd.trans hds)⟩

/-- The reader passes over the lexemes of every well-formed derivation. -/
theorem passes {d : Derivation} (h : d.WellFormed) : Passes d := by
  induction h with
  | @object entries trailing _ hkeys _ ih =>
    intro stack ls hls
    rw [Derivation.tokens, Derivation.entriesTokens_eq] at hls
    obtain ⟨l, ls, rfl, hl, hls⟩ := List.map_eq_cons_iff.mp hls
    have hopen := (Moves.value (@Begins.brace stack l.offset)).step hl
    rw [Derivation.value, Derivation.entriesValue_eq]
    cases entries with
    | nil =>
      obtain ⟨m, rfl, hm⟩ := List.map_eq_singleton_iff.mp hls
      exact ⟨_, .cons hopen (.single ((Moves.closeEntries ..).step hm))⟩
    | cons d ds =>
      obtain ⟨part, rest, rfl, hpart, hrest⟩ := List.map_eq_append_iff.mp hls
      obtain ⟨notes, hd⟩ := reaches_entry stack l.offset [] none (ih d (by simp)) (by simp [keyTexts]) hpart
      have hnodup : (keyTexts ([] ++ (d.1, d.2.value) :: ds.map entryValue)).Nodup := by
        simpa [keyTexts, entryValue, Function.comp_def] using hkeys
      obtain ⟨more, hds⟩ := reaches_continued_entries stack l.offset [] d.1 d.2.value
        (fun e he => ih e (List.mem_cons_of_mem d he)) hnodup hrest
      exact ⟨_, .cons hopen (hd.trans hds)⟩
  | @array items trailing _ _ ih =>
    intro stack ls hls
    rw [Derivation.tokens, Derivation.itemsTokens_eq] at hls
    obtain ⟨l, ls, rfl, hl, hls⟩ := List.map_eq_cons_iff.mp hls
    have hopen := (Moves.value (@Begins.square stack l.offset)).step hl
    rw [Derivation.value, Derivation.itemsValue_eq]
    cases items with
    | nil =>
      obtain ⟨m, rfl, hm⟩ := List.map_eq_singleton_iff.mp hls
      exact ⟨_, .cons hopen (.single ((Moves.closeItems ..).step hm))⟩
    | cons d ds =>
      obtain ⟨part, rest, rfl, hpart, hrest⟩ := List.map_eq_append_iff.mp hls
      obtain ⟨notes, hd⟩ := ih d (by simp) (.array l.offset [] :: stack) part hpart
      obtain ⟨more, hds⟩ := reaches_continued_items stack l.offset [] d.value
        (fun e he => ih e (List.mem_cons_of_mem d he)) hrest
      exact ⟨_, .cons hopen ((reaches_item hpart hd).trans hds)⟩
  | quoted quote text =>
    intro stack ls hls
    obtain ⟨l, rfl, hl⟩ := List.map_eq_singleton_iff.mp hls
    exact ⟨_, .single ((Moves.value (.quoted l.offset quote text)).step hl)⟩
  | @word w meaning hw =>
    intro stack ls hls
    obtain ⟨l, rfl, hl⟩ := List.map_eq_singleton_iff.mp hls
    obtain rfl := (wordValue_iff_classify w meaning).mp hw
    exact ⟨_, .single ((Moves.value (.word l.offset w)).step hl)⟩

end QueryLint.Payload
