import QueryLint.Proofs.LineEndings.Texts
import QueryLint.Proofs.Payload.Lexing
import QueryLint.Proofs.Payload.Relocation

/-!
Payloads with either kind of line ending.

No lexeme crosses the end of a line, so a payload has the same lexemes with LF and with CR LF. What
the reader makes of lexemes depends on their offsets only in the offsets of its notes and of its
fault. Forgetting these offsets, both payloads are read alike.
-/

namespace QueryLint.Payload
set_option autoImplicit false

open Text

theorem Balanced.newline_not_mem {t : Text} (h : Balanced t) : CodeUnit.ofChar '\n' ∉ t := by
  induction h with
  | nil => simp
  | unit hn _ _ _ ih => simp [Ne.symm hn, ih]
  | group _ _ ihs iht =>
    have hopen : CodeUnit.ofChar '\n' ≠ CodeUnit.ofChar '(' := by decide
    have hclose : CodeUnit.ofChar '\n' ≠ CodeUnit.ofChar ')' := by decide
    simp [hopen, hclose, ihs, iht]

theorem WordRun.newline_not_mem {t : Text} (h : WordRun t) : CodeUnit.ofChar '\n' ∉ t := by
  induction h with
  | nil => simp
  | @unit c t hc _ ih =>
    have hne : CodeUnit.ofChar '\n' ≠ c := by
      rintro rfl
      exact absurd hc.1 (by decide)
    simp [hne, ih]
  | group hs _ ih =>
    have hopen : CodeUnit.ofChar '\n' ≠ CodeUnit.ofChar '(' := by decide
    have hclose : CodeUnit.ofChar '\n' ≠ CodeUnit.ofChar ')' := by decide
    simp [hopen, hclose, hs.newline_not_mem, ih]

theorem QuotedRun.newline_not_mem {quote : CodeUnit} {w t : Text} (h : QuotedRun quote w t)
    (hw : Unix w) : CodeUnit.ofChar '\n' ∉ w := by
  have hslash : CodeUnit.ofChar '\n' ≠ CodeUnit.ofChar '\\' := by decide
  have hescape : ∀ {d : CodeUnit} {w : Text}, Unix (('\\' : CodeUnit) :: d :: w) →
      (Unix w → CodeUnit.ofChar '\n' ∉ w) → CodeUnit.ofChar '\n' ∉ ('\\' : CodeUnit) :: d :: w := by
    intro d w hunix ih
    simp [hslash, Ne.symm hunix.hidden_ne, ih hunix.tail.tail]
  induction h with
  | nil => simp
  | plain hn _ _ _ ih => simp [Ne.symm hn, ih hw.tail]
  | lineFeed _ ih => exact hescape hw ih
  | carriageReturn _ ih => exact hescape hw ih
  | tab _ ih => exact hescape hw ih
  | other _ _ _ _ ih => exact hescape hw ih

theorem groupBody_crlf (depth : Nat) (t : Text) : groupBody depth (crlf t) = groupBody depth t := by
  induction t generalizing depth with
  | nil => rfl
  | cons c t ih =>
    by_cases hc : c = '\n'
    · subst hc
      rfl
    · rw [crlf_cons hc, groupBody.eq_def, groupBody.eq_def _ (c :: t)]
      simp only [ih]

theorem drop_group {t group : Text} (h : groupBody 0 t = some group) :
    (crlf t).drop group.length = crlf (t.drop group.length) := by
  obtain ⟨s, u, hs, rfl, rfl⟩ := balanced_of_groupBody h
  apply drop_crlf_of_free
  have hclose : CodeUnit.ofChar '\n' ≠ CodeUnit.ofChar ')' := by decide
  rw [List.take_left]
  simp [hs.newline_not_mem, hclose]

theorem wordBody_end {c : CodeUnit} (h : endsWord c = true) (t : Text) : wordBody (c :: t) = .ok [] := by
  rw [wordBody, if_pos h]

theorem ne_newline_of_word {c : CodeUnit} (h : ¬endsWord c = true) : c ≠ '\n' := by
  rintro rfl
  exact h (by decide)

theorem wordBody_crlf (t : Text) : wordBody (crlf t) = wordBody t := by
  fun_induction wordBody t with
  | case1 => rw [crlf_nil, wordBody]
  | case2 c rest hend =>
    by_cases hc : c = '\n'
    · subst hc
      exact wordBody_end (by decide) _
    · rw [crlf_cons hc]
      exact wordBody_end hend _
  | case3 rest hgroup hend =>
    rw [crlf_cons (ne_newline_of_word hend), wordBody, if_neg hend, if_pos rfl]
    simp only [groupBody_crlf, hgroup]
  | case4 rest group hgroup word hword hend ih =>
    rw [crlf_cons (ne_newline_of_word hend), wordBody, if_neg hend, if_pos rfl]
    simp only [groupBody_crlf, hgroup, drop_group hgroup, ih, hword]
  | case5 rest group hgroup n hword hend ih =>
    rw [crlf_cons (ne_newline_of_word hend), wordBody, if_neg hend, if_pos rfl]
    simp only [groupBody_crlf, hgroup, drop_group hgroup, ih, hword]
  | case6 c rest hend hopen word hword ih =>
    rw [crlf_cons (ne_newline_of_word hend), wordBody, if_neg hend, if_neg hopen]
    simp only [ih, hword]
  | case7 c rest hend hopen n hword ih =>
    rw [crlf_cons (ne_newline_of_word hend), wordBody, if_neg hend, if_neg hopen]
    simp only [ih, hword]

theorem quotedBody_crlf {quote : CodeUnit} (hquote : quote.isQuote = true) {t : Text} (ht : Unix t) :
    quotedBody quote (crlf t) = quotedBody quote t := by
  have hnewline : ∀ u : Text, quotedBody quote (('\r' : CodeUnit) :: '\n' :: u) = none := by
    intro u
    have hreturn : CodeUnit.ofChar '\r' ≠ quote := by
      rintro rfl
      exact absurd hquote (by decide)
    have hend : quotedBody quote (('\n' : CodeUnit) :: u) = none := by
      rw [quotedBody.eq_def]
      rfl
    rw [quotedBody.eq_def]
    simp only [if_neg hreturn, hend]
    rfl
  fun_induction quotedBody quote t with
  | case1 => rfl
  | case2 rest => exact hnewline _
  | case3 rest hn =>
    rw [crlf_cons hn, quotedBody.eq_def]
    simp only [if_neg hn, if_true]
  | case4 hn hq =>
    rw [crlf_cons hn, quotedBody.eq_def]
    simp only [if_neg hn, if_neg hq, if_true, crlf_nil]
  | case5 d rest hn hq ih =>
    rw [crlf_cons hn, crlf_cons ht.hidden_ne, quotedBody.eq_def]
    simp only [if_neg hn, if_neg hq, if_true, ih ht.tail.tail]
  | case6 c rest hn hq hs ih =>
    rw [crlf_cons hn, quotedBody.eq_def]
    simp only [if_neg hn, if_neg hq, if_neg hs, ih ht.tail]

theorem drop_quoted {quote : CodeUnit} (hquote : quote ≠ '\n') {t text : Text} {n : Nat} (ht : Unix t)
    (h : quotedBody quote t = some (text, n)) : (crlf t).drop n = crlf (t.drop n) := by
  obtain ⟨w, u, hw, rfl, rfl⟩ := quotedRun_of_quotedBody h
  apply drop_crlf_of_free
  have hfree := hw.newline_not_mem ht.append_left
  rw [List.take_length_add_append]
  simp [hfree, Ne.symm hquote]

theorem drop_word {c : CodeUnit} {t word : Text} (h : wordBody (c :: t) = .ok word) :
    (crlf t).drop (word.length - 1) = crlf (t.drop (word.length - 1)) := by
  obtain ⟨hrun, u, hword⟩ := wordRun_of_wordBody h
  apply drop_crlf_of_free
  intro hmem
  refine hrun.newline_not_mem ?_
  cases word with
  | nil => simp at hmem
  | cons d word =>
    rw [List.cons_append, List.cons.injEq] at hword
    obtain ⟨rfl, rfl⟩ := hword
    rw [List.length_cons, Nat.add_sub_cancel, List.take_left] at hmem
    exact List.mem_cons_of_mem _ hmem

def Lexeme.blur : Lexeme → Lexeme
  | openGroup first _ => openGroup first 0
  | l => l

def Placed.blur (l : Placed) : Placed := ⟨0, l.lexeme.blur⟩

theorem ne_newline {c : CodeUnit} (h : ¬c.isLayout = true) : c ≠ '\n' := by
  rintro rfl
  exact h (by decide)

theorem lexemes_crlf {t : Text} (ht : Unix t) (offset offset' : Nat) :
    (lexemes offset' (crlf t)).map Placed.blur = (lexemes offset t).map Placed.blur := by
  fun_induction lexemes offset t generalizing offset' with
  | case1 => rw [crlf_nil, lexemes.eq_def]
  | case2 offset c rest hlayout ih =>
    by_cases hc : c = '\n'
    · subst hc
      rw [crlf_newline, lexemes.eq_def]
      simp only [show CodeUnit.isLayout (CodeUnit.ofChar '\r') = true from rfl, if_true]
      rw [lexemes.eq_def]
      exact ih ht.tail _
    · rw [crlf_cons hc, lexemes.eq_def]
      simp only [hlayout, if_true]
      exact ih ht.tail _
  | case3 offset c rest hlayout mark hmark ih =>
    rw [crlf_cons (ne_newline hlayout), lexemes.eq_def]
    simp only [if_neg hlayout, hmark, List.map_cons, ih ht.tail]
    rfl
  | case4 offset c rest hlayout hmark hquote hbody =>
    rw [crlf_cons (ne_newline hlayout), lexemes.eq_def]
    simp only [hlayout, hmark, hquote, quotedBody_crlf hquote ht.tail, hbody, if_true]
    rfl
  | case5 offset c rest hlayout hmark hquote text n hbody ih =>
    rw [crlf_cons (ne_newline hlayout), lexemes.eq_def]
    simp only [if_neg hlayout, hmark, hquote, quotedBody_crlf hquote ht.tail, hbody, if_true,
      List.map_cons, drop_quoted (ne_newline hlayout) ht.tail hbody, ih (ht.tail.drop _)]
    rfl
  | case6 offset c rest hlayout hmark hquote n hword =>
    rw [crlf_cons (ne_newline hlayout), lexemes.eq_def]
    simp only [hlayout, hmark, hquote, ← crlf_cons (ne_newline hlayout), wordBody_crlf, hword]
    rfl
  | case7 offset c rest hlayout hmark hquote word hword ih =>
    rw [crlf_cons (ne_newline hlayout), lexemes.eq_def]
    simp only [if_neg hlayout, hmark, if_neg hquote, ← crlf_cons (ne_newline hlayout), wordBody_crlf, hword,
      List.map_cons, drop_word hword, ih (ht.tail.drop _)]
    rfl

def Frame.blur : Frame → Frame
  | object _ entries key => object 0 entries key
  | array _ items => array 0 items

def Expecting.blur : Expecting → Expecting
  | value => value
  | item _ items comma => item 0 items (comma.map fun _ => 0)
  | key _ entries comma => key 0 entries (comma.map fun _ => 0)
  | colon _ entries k => colon 0 entries k
  | separator v => separator v

def State.blur (s : State) : State := ⟨s.stack.map Frame.blur, s.expecting.blur⟩

def Note.blur (n : Note) : Note := ⟨n.kind, 0⟩

def Fault.blur (f : Fault) : Fault := ⟨f.cause, 0⟩

def Parsed.blur (p : Parsed) : Parsed := ⟨p.value, p.notes.map Note.blur⟩

/-- What comes of a payload, without offsets. -/
def blurParse (r : Except Fault Parsed) : Except Fault Parsed := (r.mapError Fault.blur).map Parsed.blur

theorem Placed.blur_eq : Placed.blur = Placed.relocate fun _ => 0 := by
  funext l
  obtain ⟨offset, lexeme⟩ := l
  cases lexeme <;> rfl

theorem Frame.blur_eq : Frame.blur = Frame.relocate fun _ => 0 := by
  funext frame
  cases frame <;> rfl

theorem State.blur_eq (s : State) : s.blur = s.relocate fun _ => 0 := by
  obtain ⟨stack, expecting⟩ := s
  rw [blur, relocate, Frame.blur_eq]
  cases expecting <;> rfl

/-- Forgetting the offsets is one way to rename them. -/
theorem run_blur (length : Nat) (s : State) (ls : List Placed) :
    run 0 s.blur (ls.map Placed.blur) = blurParse (run length s ls) := by
  rw [s.blur_eq, Placed.blur_eq]
  exact run_relocate (fun _ => 0) length s ls

theorem parse_crlf {t : Text} (ht : Unix t) : blurParse (parse (crlf t)) = blurParse (parse t) := by
  unfold parse
  rw [← run_blur, ← run_blur, lexemes_crlf ht 0 0]

end QueryLint.Payload
