import QueryLint.Analysis
import QueryLint.Proofs.LineEndings.Payloads
import QueryLint.Proofs.RelatedDocuments

/-!
Documents with either kind of line ending.

Without offsets and payload texts the commands of a document are the same with LF and with CR LF, in
the same scopes. No rule looks at offsets or at the text of a payload, but for the message about a
payload that cannot be read, which tells the offset of the fault.
-/

namespace QueryLint
set_option autoImplicit false

open Text

namespace Command

/-- A command without offsets and without the text of its payload. -/
def blur (c : Command) : Command :=
  { c with
    payloadText := c.payloadText.map fun _ => []
    payloadFault := c.payloadFault.map Payload.Fault.blur
    notes := c.notes.map Payload.Note.blur
    start := { c.start with offset := 0 }
    stop := 0 }

theorem readPayload_crlf {k k' : Token} (h : k.Agree k') :
    (readPayload k').map Payload.blurParse = (readPayload k).map Payload.blurParse := by
  obtain ⟨name, start, stop, payload, fault⟩ := k
  obtain ⟨name', start', stop', payload', fault'⟩ := k'
  obtain ⟨-, -, -, hpayload, hunix, hfault⟩ := h
  dsimp only at hpayload hunix hfault
  subst hfault
  cases payload with
  | none =>
    cases payload' with
    | none => rfl
    | some raw' => cases hpayload
  | some raw =>
    cases payload' with
    | none => cases hpayload
    | some raw' =>
      cases fault' with
      | some fault => rfl
      | none =>
        have htext : raw'.text = crlf raw.text := Option.some.inj hpayload
        simp only [readPayload, htext, Option.map_some, Payload.parse_crlf (hunix raw rfl)]

theorem blur_ofToken (dialect : Dialect) (scope : Option Text) (index : Nat) {k k' : Token}
    (h : k.Agree k') :
    (ofToken dialect scope index k').blur = (ofToken dialect scope index k).blur := by
  have hreading := readPayload_crlf h
  have htext : (k'.payload.map (·.text)).map (fun _ => ([] : Text)) =
      (k.payload.map (·.text)).map fun _ => [] := by
    rw [h.payload, Option.map_map, Option.map_map]
    rfl
  unfold ofToken blur
  dsimp only
  rw [h.name, h.fault, h.line, h.column, htext]
  generalize readPayload k = reading at hreading ⊢
  generalize readPayload k' = reading' at hreading ⊢
  cases reading with
  | none =>
    cases reading' with
    | none => rfl
    | some r' => cases hreading
  | some r =>
    cases reading' with
    | none => cases hreading
    | some r' =>
      have hr : Payload.blurParse r' = Payload.blurParse r := Option.some.inj hreading
      cases r with
      | error fault =>
        cases r' with
        | error fault' =>
          have hfault : fault'.blur = fault.blur := Except.error.inj hr
          simp only [Option.map_some, hfault]
        | ok parsed' => cases hr
      | ok parsed =>
        cases r' with
        | error fault' => cases hr
        | ok parsed' =>
          have hparsed : parsed'.blur = parsed.blur := Except.ok.inj hr
          obtain ⟨hvalue, hnotes⟩ := Payload.Parsed.mk.inj hparsed
          simp only [hvalue, hnotes]

@[simp] theorem payload_blur (c : Command) : c.blur.payload = c.payload := rfl

end Command

def Block.blur (b : Block) : Block := { b with commands := b.commands.map Command.blur }

/-- Putting a document together looks neither at offsets nor at payload texts. -/
theorem Command.congruent_blur : Command.Congruent fun c c' => c'.blur = c.blur where
  index h := (congrArg Command.index h :)
  role h := (congrArg Command.role? h :)
  name h := (congrArg Command.name h :)
  line h := (congrArg Command.line h :)
  scope h := (congrArg Command.scope h :)
  declaredName h := (congrArg Command.declaredName? h :)
  payload h := congrArg (fun c => c.payload.isSome) h
  within scope h := congrArg (fun c : Command => { c with scope }) h

theorem Command.blur_ofTokens (dialect : Dialect) (index : Nat) {ks ks' : List Token}
    (h : List.Forall₂ Token.Agree ks ks') :
    List.Forall₂ (fun c c' => c'.blur = c.blur) (ofTokens dialect index ks) (ofTokens dialect index ks') := by
  induction h generalizing index with
  | nil => exact .nil
  | cons hk _ ih => exact .cons (blur_ofToken dialect none index hk) (ih (index + 1))

namespace Document

/-- A document without its text and without the offsets and payload texts of its commands. -/
def blur (d : Document) : Document :=
  { d with
    text := []
    commands := d.commands.map Command.blur
    root := d.root.map Command.blur
    blocks := d.blocks.map Block.blur }

theorem blur_of_related {d d' : Document} (h : d.Related (fun c c' => c'.blur = c.blur) d') :
    d'.blur = d.blur := by
  have hmap : ∀ {cs cs' : List Command}, List.Forall₂ (fun c c' => c'.blur = c.blur) cs cs' →
      cs'.map Command.blur = cs.map Command.blur := fun hcs => map_eq_of_forall₂ hcs id
  have hblocks : d'.blocks.map Block.blur = d.blocks.map Block.blur :=
    map_eq_of_forall₂ h.blocks fun {b b'} hb => by
      simp only [Block.blur, hb.name, hb.openerIndex, hb.closerIndex, hmap hb.commands]
  simp only [blur, h.dialect, h.issues, hmap h.commands, hmap h.root, hblocks]

theorem blur_parse_crlf (dialect : Dialect) {text : Text} (h : Unix text) :
    (parse dialect (crlf text)).blur = (parse dialect text).blur := by
  obtain ⟨htokens, hstrays⟩ := Tokens.agree_crlf dialect.isKeyword h
  exact blur_of_related
    (parse_related Command.congruent_blur dialect (Command.blur_ofTokens dialect 0 htokens) hstrays)

end Document

/-- The commands have the same place and payload, and the same kinds of faults. -/
structure Command.Alike (c c' : Command) : Prop where
  index : c.index = c'.index
  name : c.name = c'.name
  payload : c.payload = c'.payload
  line : c.line = c'.line
  column : c.start.column = c'.start.column
  scope : c.scope = c'.scope
  payloadFault : c.payloadFault.isSome = c'.payloadFault.isSome
  delimiterFault : c.delimiterFault.isSome = c'.delimiterFault.isSome

structure Block.Alike (b b' : Block) : Prop where
  name : b.name = b'.name
  commands : List.Forall₂ Command.Alike b.commands b'.commands
  openerIndex : b.openerIndex = b'.openerIndex
  closerIndex : b.closerIndex = b'.closerIndex

structure Document.Alike (d d' : Document) : Prop where
  commands : List.Forall₂ Command.Alike d.commands d'.commands
  root : List.Forall₂ Command.Alike d.root d'.root
  blocks : List.Forall₂ Block.Alike d.blocks d'.blocks
  subqueries : List.Forall₂ (fun pair pair' => pair.1 = pair'.1 ∧ pair.2.Alike pair'.2)
    d.subqueries d'.subqueries

theorem forall₂_of_map_eq {α β : Type} {f : α → β} {R : α → α → Prop}
    (hR : ∀ a b, f a = f b → R a b) {as bs : List α} (h : as.map f = bs.map f) :
    List.Forall₂ R as bs := by
  rw [← List.forall₂_eq_eq_eq, List.forall₂_map_left_iff, List.forall₂_map_right_iff] at h
  exact h.imp hR

theorem Command.alike_of_blur (c c' : Command) (h : c.blur = c'.blur) : c.Alike c' := by
  obtain ⟨hindex, hname, -, -, hpayload, -, hfault, hdelimiter, -, hstart, -, hscope⟩ :=
    Command.mk.inj h
  obtain ⟨-, hline, hcolumn⟩ := Position.mk.inj hstart
  have hpresent := congrArg Option.isSome hfault
  rw [Option.isSome_map, Option.isSome_map] at hpresent
  exact ⟨hindex, hname, hpayload, hline, hcolumn, hscope, hpresent, congrArg Option.isSome hdelimiter⟩

theorem Block.alike_of_blur (b b' : Block) (h : b.blur = b'.blur) : b.Alike b' := by
  obtain ⟨hname, hcommands, hopener, hcloser⟩ := Block.mk.inj h
  exact ⟨hname, forall₂_of_map_eq Command.alike_of_blur hcommands, hopener, hcloser⟩

namespace Document

theorem subqueries_blur (d : Document) :
    d.blur.subqueries = d.subqueries.map fun pair => (pair.1, pair.2.blur) := by
  have hnamed : (d.blocks.map Block.blur).filter (fun b => !b.name.isEmpty) =
      (d.blocks.filter fun b => !b.name.isEmpty).map Block.blur := by
    rw [List.filter_map]
    rfl
  unfold subqueries
  rw [← Record.ofPairs_map, List.map_map]
  simp only [blur, hnamed, List.map_map]
  rfl

theorem alike_of_blur {d d' : Document} (h : d.blur = d'.blur) : d.Alike d' where
  commands := forall₂_of_map_eq Command.alike_of_blur (congrArg Document.commands h)
  root := forall₂_of_map_eq Command.alike_of_blur (congrArg Document.root h)
  blocks := forall₂_of_map_eq Block.alike_of_blur (congrArg Document.blocks h)
  subqueries := by
    have hsubqueries := congrArg Document.subqueries h
    rw [subqueries_blur, subqueries_blur] at hsubqueries
    refine forall₂_of_map_eq (fun pair pair' hpair => ?_) hsubqueries
    obtain ⟨hname, hblock⟩ := Prod.mk.inj hpair
    exact ⟨hname, Block.alike_of_blur _ _ hblock⟩

end Document
end QueryLint
