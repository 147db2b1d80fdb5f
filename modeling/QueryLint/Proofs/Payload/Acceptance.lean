import QueryLint.Proofs.Payload.Reading

/-!
Which payloads are accepted: those that have a derivation, and then it is the only one.

A list of lexemes has at most one derivation, even when more lexemes may follow: every part of a
container ends where its own lexemes end, and the comma or bracket behind it tells what comes next.
-/

namespace QueryLint.Payload
set_option autoImplicit false

section Unique
variable {α : Type} (write : α → List Lexeme) (Good : α → Prop)

/-- Whatever follows, nothing else that is good is written by the same lexemes. -/
def WrittenOnce (a : α) : Prop := ∀ b rest rest', Good b → write a ++ rest = write b ++ rest' → a = b ∧ rest = rest'

variable {write Good} {close : Mark}
variable (hstart : ∀ a ls, write a ≠ .mark close :: ls) (hnonempty : ∀ a, write a ≠ [])
include hstart hnonempty

theorem close_ne_write (a : α) (u v : List Lexeme) : .mark close :: u ≠ write a ++ v := by
  intro heq
  cases ha : write a with
  | nil => exact hnonempty a ha
  | cons l ls =>
    rw [ha, List.cons_append] at heq
    obtain ⟨rfl, -⟩ := List.cons.inj heq
    exact hstart a ls ha

variable (hclose : close ≠ .comma)
include hclose

theorem continued_unique {as bs : List α} {trailing trailing' : Bool} {rest rest' : List Lexeme}
    (has : ∀ a ∈ as, WrittenOnce write Good a) (hbs : ∀ b ∈ bs, Good b)
    (h : continued close trailing (as.map write) ++ rest =
      continued close trailing' (bs.map write) ++ rest') :
    as = bs ∧ trailing = trailing' ∧ rest = rest' := by
  have hne : Lexeme.mark close ≠ .mark .comma := by simpa using hclose
  induction as generalizing bs with
  | nil =>
    cases bs with
    | nil => cases trailing <;> cases trailing' <;> simp_all [continued]
    | cons b bs =>
      cases trailing with
      | false => simp [continued, hne] at h
      | true =>
        simp only [continued, List.map_nil, List.map_cons, if_true, List.cons_append,
          List.nil_append, List.cons.injEq, true_and, List.append_assoc] at h
        exact absurd h (close_ne_write hstart hnonempty b _ _)
  | cons a as ih =>
    cases bs with
    | nil =>
      cases trailing' with
      | false => simp [continued, hne.symm] at h
      | true =>
        simp only [continued, List.map_nil, List.map_cons, if_true, List.cons_append,
          List.nil_append, List.cons.injEq, true_and, List.append_assoc] at h
        exact absurd h.symm (close_ne_write hstart hnonempty a _ _)
    | cons b bs =>
      simp only [continued, List.map_cons, List.cons_append, List.cons.injEq, true_and,
        List.append_assoc] at h
      obtain ⟨rfl, htail⟩ := has a List.mem_cons_self b _ _ (hbs b List.mem_cons_self) h
      obtain ⟨rfl, rfl, rfl⟩ := ih (fun a ha => has a (List.mem_cons_of_mem _ ha))
        (fun b hb => hbs b (List.mem_cons_of_mem _ hb)) htail
      exact ⟨rfl, rfl, rfl⟩

variable (write Good close)

theorem enclosed_unique {as bs : List α} {trailing trailing' : Bool} {rest rest' : List Lexeme}
    (has : ∀ a ∈ as, WrittenOnce write Good a) (hbs : ∀ b ∈ bs, Good b)
    (htrailing : trailing = true → as ≠ []) (htrailing' : trailing' = true → bs ≠ [])
    (h : enclosed close trailing (as.map write) ++ rest =
      enclosed close trailing' (bs.map write) ++ rest') :
    as = bs ∧ trailing = trailing' ∧ rest = rest' := by
  cases as with
  | nil =>
    cases bs with
    | nil =>
      have ht : trailing = false := by simpa using htrailing
      have ht' : trailing' = false := by simpa using htrailing'
      simp only [enclosed, List.map_nil, List.cons_append, List.nil_append, List.cons.injEq] at h
      exact ⟨rfl, ht.trans ht'.symm, h.2⟩
    | cons b bs =>
      simp only [enclosed, List.map_nil, List.map_cons, List.cons_append, List.nil_append,
        List.append_assoc] at h
      exact absurd h (close_ne_write hstart hnonempty b _ _)
  | cons a as =>
    cases bs with
    | nil =>
      simp only [enclosed, List.map_nil, List.map_cons, List.cons_append, List.nil_append,
        List.append_assoc] at h
      exact absurd h.symm (close_ne_write hstart hnonempty a _ _)
    | cons b bs =>
      simp only [enclosed, List.map_cons, List.append_assoc] at h
      obtain ⟨rfl, htail⟩ := has a List.mem_cons_self b _ _ (hbs b List.mem_cons_self) h
      obtain ⟨rfl, rfl, rfl⟩ := continued_unique hstart hnonempty hclose
        (fun a ha => has a (List.mem_cons_of_mem _ ha))
        (fun b hb => hbs b (List.mem_cons_of_mem _ hb)) htail
      exact ⟨rfl, rfl, rfl⟩

end Unique

theorem Key.lexeme_injective {k k' : Key} (h : k.lexeme = k'.lexeme) : k = k' := by
  obtain ⟨text, style⟩ := k
  obtain ⟨text', style'⟩ := k'
  cases style <;> cases style' <;> simp_all [Key.lexeme]

theorem entryTokens_ne_close (entry : Key × Derivation) (ls : List Lexeme) :
    entryTokens entry ≠ .mark .closeBrace :: ls := by
  obtain ⟨⟨text, style⟩, d⟩ := entry
  cases style <;> simp [entryTokens, Key.lexeme]

theorem entryTokens_writtenOnce {entry : Key × Derivation}
    (h : WrittenOnce Derivation.tokens Derivation.WellFormed entry.2) :
    WrittenOnce entryTokens (fun e => e.2.WellFormed) entry := by
  intro other rest rest' hother heq
  simp only [entryTokens, List.cons_append, List.cons.injEq, true_and] at heq
  obtain ⟨hkey, htokens⟩ := heq
  obtain ⟨hvalue, hrest⟩ := h other.2 rest rest' hother htokens
  exact ⟨Prod.ext (Key.lexeme_injective hkey) hvalue, hrest⟩

theorem tokens_writtenOnce {d : Derivation} (h : d.WellFormed) :
    WrittenOnce Derivation.tokens Derivation.WellFormed d := by
  induction h with
  | @object entries trailing _ _ htrailing ih =>
    intro d' rest rest' h' heq
    cases h' with
    | @object entries' trailing' hentries' _ htrailing' =>
      simp only [Derivation.tokens, Derivation.entriesTokens_eq, List.cons_append, List.cons.injEq,
        true_and] at heq
      obtain ⟨rfl, rfl, rfl⟩ := enclosed_unique entryTokens
        (fun e : Key × Derivation => e.2.WellFormed) .closeBrace (fun e ls => entryTokens_ne_close e ls)
          (by simp [entryTokens]) (by decide)
        (fun e he => entryTokens_writtenOnce (ih e he)) hentries' htrailing
        htrailing' heq
      exact ⟨rfl, rfl⟩
    | array => simp [Derivation.tokens] at heq
    | quoted => simp [Derivation.tokens] at heq
    | word => simp [Derivation.tokens] at heq
  | @array items trailing _ htrailing ih =>
    intro d' rest rest' h' heq
    cases h' with
    | @array items' trailing' hitems' htrailing' =>
      simp only [Derivation.tokens, Derivation.itemsTokens_eq, List.cons_append, List.cons.injEq,
        true_and] at heq
      obtain ⟨rfl, rfl, rfl⟩ := enclosed_unique Derivation.tokens Derivation.WellFormed .closeSquare
        (fun d ls hd => (startsValue_tokens hd).1 rfl) tokens_ne_nil (by decide) ih hitems'
        htrailing htrailing' heq
      exact ⟨rfl, rfl⟩
    | object => simp [Derivation.tokens] at heq
    | quoted => simp [Derivation.tokens] at heq
    | word => simp [Derivation.tokens] at heq
  | quoted quote text =>
    intro d' rest rest' h' heq
    cases h' <;> simp_all [Derivation.tokens]
  | @word w meaning hw =>
    intro d' rest rest' h' heq
    cases h' with
    | word hw' =>
      simp only [Derivation.tokens, List.cons_append, List.nil_append, List.cons.injEq,
        Lexeme.word.injEq] at heq
      obtain ⟨rfl, rfl⟩ := heq
      obtain rfl := hw.unique hw'
      exact ⟨rfl, rfl⟩
    | object => simp [Derivation.tokens] at heq
    | array => simp [Derivation.tokens] at heq
    | quoted => simp [Derivation.tokens] at heq

theorem apart_cons_mark (m : Mark) {ls : List Lexeme} (h : Apart ls) : Apart (.mark m :: ls) := by
  refine List.isChain_cons.mpr ⟨?_, h⟩
  intro l _
  simp [Lexeme.isWord]

theorem apart_append_mark {as bs : List Lexeme} {m : Mark} (ha : Apart as)
    (hb : Apart (.mark m :: bs)) : Apart (as ++ .mark m :: bs) := by
  refine List.isChain_append.mpr ⟨ha, hb, ?_⟩
  intro a _ b hb
  obtain rfl : .mark m = b := by simpa using hb
  simp [Lexeme.isWord]

theorem continued_eq_mark (close : Mark) (trailing : Bool) (parts : List (List Lexeme)) :
    ∃ m ls, continued close trailing parts = .mark m :: ls := by
  cases parts with
  | nil => cases trailing <;> exact ⟨_, _, rfl⟩
  | cons part parts => exact ⟨_, _, rfl⟩

theorem apart_continued (close : Mark) (trailing : Bool) {parts : List (List Lexeme)}
    (h : ∀ part ∈ parts, Apart part) : Apart (continued close trailing parts) := by
  induction parts with
  | nil =>
    cases trailing with
    | false => exact .singleton _
    | true => exact apart_cons_mark _ (.singleton _)
  | cons part parts ih =>
    have hrest := ih (fun p hp => h p (List.mem_cons_of_mem _ hp))
    obtain ⟨m, ls, hls⟩ := continued_eq_mark close trailing parts
    rw [continued]
    rw [hls] at hrest ⊢
    exact apart_cons_mark _ (apart_append_mark (h part List.mem_cons_self) hrest)

theorem apart_enclosed (close : Mark) (trailing : Bool) {parts : List (List Lexeme)}
    (h : ∀ part ∈ parts, Apart part) : Apart (enclosed close trailing parts) := by
  cases parts with
  | nil => exact .singleton _
  | cons part parts =>
    have hrest := apart_continued close trailing (fun p hp => h p (List.mem_cons_of_mem _ hp))
    obtain ⟨m, ls, hls⟩ := continued_eq_mark close trailing parts
    rw [enclosed]
    rw [hls] at hrest ⊢
    exact apart_append_mark (h part List.mem_cons_self) hrest

theorem apart_tokens {d : Derivation} (h : d.WellFormed) : Apart d.tokens := by
  induction h with
  | @object entries trailing _ _ _ ih =>
    rw [Derivation.tokens, Derivation.entriesTokens_eq]
    refine apart_cons_mark _ (apart_enclosed _ _ ?_)
    intro part hpart
    obtain ⟨entry, hentry, rfl⟩ := List.mem_map.mp hpart
    exact apart_append_mark (.singleton _) (apart_cons_mark _ (ih entry hentry))
  | @array items trailing _ _ ih =>
    rw [Derivation.tokens, Derivation.itemsTokens_eq]
    refine apart_cons_mark _ (apart_enclosed _ _ ?_)
    intro part hpart
    obtain ⟨d, hd, rfl⟩ := List.mem_map.mp hpart
    exact ih d hd
  | quoted => exact .singleton _
  | word => exact .singleton _

theorem Begins.isComplete {stack : List Frame} {l : Placed} {next : State} (h : Begins stack l next) :
    l.lexeme.isComplete = true := by
  cases h <;> rfl

theorem Moves.isComplete {s next : State} {l : Placed} {note : Option Note} (h : Moves s l next note) :
    l.lexeme.isComplete = true := by
  cases h with
  | value hbegins => exact hbegins.isComplete
  | item hbegins => exact hbegins.isComplete
  | @key stack opened entries comma offset key =>
    obtain ⟨text, style⟩ := key
    cases style <;> rfl
  | _ => rfl

theorem Reaches.isComplete {s t : State} {ls : List Placed} {notes : List Note} (h : Reaches s ls t notes) :
    ∀ l ∈ ls, l.lexeme.isComplete = true := by
  induction h with
  | refl => simp
  | cons hstep _ ih => exact List.forall_mem_cons.mpr ⟨(moves_of_step hstep).isComplete, ih⟩

theorem run_isComplete {length : Nat} {s : State} {ls : List Placed} {parsed : Parsed}
    (h : run length s ls = .ok parsed) : ∀ l ∈ ls, l.lexeme.isComplete = true :=
  ((run_eq_ok_iff length s ls parsed.value parsed.notes).1 h).isComplete

theorem exists_derives_of_parse {t : Text} {v : Value} {notes : List Note}
    (h : parse t = .ok ⟨v, notes⟩) : ∃ d : Derivation, d.Derives t ∧ d.value = v := by
  obtain ⟨d, hd, hv, htokens⟩ := run_taken State.taken_start h
  rw [List.nil_append] at htokens
  have hspelling := spelling_lexemes (run_isComplete h)
  exact ⟨d, ⟨hd, htokens ▸ hspelling⟩, hv⟩

theorem parse_of_derives {t : Text} {d : Derivation} (h : d.Derives t) :
    ∃ notes, parse t = .ok ⟨d.value, notes⟩ := by
  obtain ⟨hd, hspelling⟩ := h
  have hcut := lexemes_of_spelling hspelling (apart_tokens hd) 0
  obtain ⟨notes, hreaches⟩ := passes hd [] (lexemes 0 t) hcut
  have hrun := hreaches.run_eq t.length []
  rw [List.append_nil] at hrun
  exact ⟨notes ++ [], hrun⟩

theorem derives_unique {t : Text} {d d' : Derivation} (h : d.Derives t) (h' : d'.Derives t) :
    d = d' := by
  have hcut := lexemes_of_spelling h.2 (apart_tokens h.1) 0
  have hcut' := lexemes_of_spelling h'.2 (apart_tokens h'.1) 0
  have htokens : d.tokens ++ [] = d'.tokens ++ [] := by rw [← hcut, ← hcut']
  exact (tokens_writtenOnce h.1 d' [] [] h'.1 htokens).1

/-- A payload is accepted with a value exactly if it has a derivation, which is then its only one,
and the value is the tree of that derivation. -/
theorem parse_ok_iff_derives (t : Text) (v : Value) :
    (∃ notes, parse t = .ok ⟨v, notes⟩) ↔
      ∃ d : Derivation, d.Derives t ∧ d.value = v ∧ ∀ d' : Derivation, d'.Derives t → d' = d := by
  constructor
  · rintro ⟨notes, h⟩
    obtain ⟨d, hd, hv⟩ := exists_derives_of_parse h
    exact ⟨d, hd, hv, fun d' hd' => derives_unique hd' hd⟩
  · rintro ⟨d, hd, rfl, -⟩
    exact parse_of_derives hd

end QueryLint.Payload
