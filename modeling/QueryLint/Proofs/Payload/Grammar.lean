import QueryLint.Payload.Reader

/-!
The grammar of payloads.

    value  = object | array | quoted | word
    object = "{" [ entry { "," entry } [ "," ] ] "}"
    entry  = key ":" value
    key    = quoted | word
    array  = "[" [ value { "," value } [ "," ] ] "]"

A derivation is a tree of this grammar. It writes a list of lexemes, and a text spells lexemes with
layout between them at choice. Nothing here refers to how a payload is cut or read.
-/

namespace QueryLint
set_option autoImplicit false

def Quote.unit : Quote → CodeUnit
  | single => '\''
  | double => '"'

def Key.lexeme (k : Key) : Payload.Lexeme :=
  match k.style with
  | .bare => .word k.text
  | .quoted quote => .quoted quote k.text

namespace Payload

/-- The units that end a word, layout apart, and the one that opens a group. -/
def wordStops : Text := ",:\x7b\x7d[]'\"("

def IsWordUnit (c : CodeUnit) : Prop := c.isLayout = false ∧ c ∉ wordStops

inductive Balanced : Text → Prop where
  | nil : Balanced []
  | unit {c : CodeUnit} {t : Text} : c ≠ '\n' → c ≠ '(' → c ≠ ')' → Balanced t → Balanced (c :: t)
  | group {s t : Text} : Balanced s → Balanced t → Balanced ('(' :: (s ++ (')' : CodeUnit) :: t))

inductive WordRun : Text → Prop where
  | nil : WordRun []
  | unit {c : CodeUnit} {t : Text} : IsWordUnit c → WordRun t → WordRun (c :: t)
  | group {s t : Text} : Balanced s → WordRun t → WordRun ('(' :: (s ++ (')' : CodeUnit) :: t))

def IsWord (t : Text) : Prop := t ≠ [] ∧ WordRun t

/-- `QuotedRun quote written text`: between two quotes, `written` stands for `text`. -/
inductive QuotedRun (quote : CodeUnit) : Text → Text → Prop where
  | nil : QuotedRun quote [] []
  | plain {c : CodeUnit} {w t : Text} : c ≠ '\n' → c ≠ '\\' → c ≠ quote →
      QuotedRun quote w t → QuotedRun quote (c :: w) (c :: t)
  | lineFeed {w t : Text} : QuotedRun quote w t → QuotedRun quote ('\\' :: 'n' :: w) ('\n' :: t)
  | carriageReturn {w t : Text} : QuotedRun quote w t →
      QuotedRun quote ('\\' :: 'r' :: w) ('\r' :: t)
  | tab {w t : Text} : QuotedRun quote w t → QuotedRun quote ('\\' :: 't' :: w) ('\t' :: t)
  | other {c : CodeUnit} {w t : Text} : c ≠ 'n' → c ≠ 'r' → c ≠ 't' →
      QuotedRun quote w t → QuotedRun quote ('\\' :: c :: w) (c :: t)

/-- `Spells l t`: the text `t` is one lexeme. -/
inductive Lexeme.Spells : Lexeme → Text → Prop where
  | mark (m : Mark) : Spells (.mark m) [m.unit]
  | quoted {quote : Quote} {w t : Text} : QuotedRun quote.unit w t →
      Spells (.quoted quote t) (quote.unit :: (w ++ [quote.unit]))
  | word {t : Text} : IsWord t → Spells (.word t) t

def IsLayout (t : Text) : Prop := ∀ c ∈ t, CodeUnit.isLayout c = true

/-- `Spelling ls t`: the text `t` is the lexemes `ls` with layout around them. -/
inductive Spelling : List Lexeme → Text → Prop where
  | nil {gap : Text} : IsLayout gap → Spelling [] gap
  | cons {l : Lexeme} {ls : List Lexeme} {gap w t : Text} : IsLayout gap → l.Spells w →
      Spelling ls t → Spelling (l :: ls) (gap ++ (w ++ t))

inductive WordValue : Text → Value → Prop where
  | yes : WordValue "true" (.boolean true)
  | no : WordValue "false" (.boolean false)
  | null : WordValue "null" .null
  | number {w : Text} {n : Number} : Number.ofLiteral? w = some n → WordValue w (.number n w)
  | bare {w : Text} : w ≠ "true" → w ≠ "false" → w ≠ "null" → Number.ofLiteral? w = none →
      WordValue w (.bare w)

/-- A tree of the grammar; `trailing` tells of a comma before the closing bracket. -/
inductive Derivation where
  | object (entries : List (Key × Derivation)) (trailing : Bool)
  | array (items : List Derivation) (trailing : Bool)
  | quoted (quote : Quote) (text : Text)
  | word (text : Text) (meaning : Value)

/-- What follows the first part in a container: `{ "," part } [ "," ] close`. -/
def continued (close : Mark) (trailing : Bool) : List (List Lexeme) → List Lexeme
  | [] => if trailing then [.mark .comma, .mark close] else [.mark close]
  | part :: parts => .mark .comma :: (part ++ continued close trailing parts)

/-- What follows the opening bracket: `[ part { "," part } [ "," ] ] close`. -/
def enclosed (close : Mark) (trailing : Bool) : List (List Lexeme) → List Lexeme
  | [] => [.mark close]
  | part :: parts => part ++ continued close trailing parts

namespace Derivation

mutual

def tokens : Derivation → List Lexeme
  | object entries trailing =>
    .mark .openBrace :: enclosed .closeBrace trailing (entriesTokens entries)
  | array items trailing => .mark .openSquare :: enclosed .closeSquare trailing (itemsTokens items)
  | quoted quote text => [.quoted quote text]
  | word text _ => [.word text]

def itemsTokens : List Derivation → List (List Lexeme)
  | [] => []
  | d :: ds => tokens d :: itemsTokens ds

def entriesTokens : List (Key × Derivation) → List (List Lexeme)
  | [] => []
  | (key, d) :: entries => (key.lexeme :: .mark .colon :: tokens d) :: entriesTokens entries

end

mutual

def value : Derivation → Value
  | object entries _ => .object (entriesValue entries)
  | array items _ => .array (itemsValue items)
  | quoted quote text => .string text quote
  | word _ meaning => meaning

def itemsValue : List Derivation → List Value
  | [] => []
  | d :: ds => value d :: itemsValue ds

def entriesValue : List (Key × Derivation) → List (Key × Value)
  | [] => []
  | (key, d) :: entries => (key, value d) :: entriesValue entries

end

/-- Keys are distinct in every object, a container without parts has no comma, and words mean what
they stand for. -/
inductive WellFormed : Derivation → Prop where
  | object {entries : List (Key × Derivation)} {trailing : Bool} :
      (∀ entry ∈ entries, WellFormed entry.2) → (entries.map (·.1.text)).Nodup →
      (trailing = true → entries ≠ []) → WellFormed (object entries trailing)
  | array {items : List Derivation} {trailing : Bool} :
      (∀ item ∈ items, WellFormed item) → (trailing = true → items ≠ []) →
      WellFormed (array items trailing)
  | quoted (quote : Quote) (text : Text) : WellFormed (quoted quote text)
  | word {text : Text} {meaning : Value} : WordValue text meaning → WellFormed (word text meaning)

/-- `Derives d t`: the text `t` is derived by `d`, layout around the lexemes apart. -/
def Derives (d : Derivation) (t : Text) : Prop := d.WellFormed ∧ Spelling d.tokens t

theorem itemsTokens_eq (items : List Derivation) : itemsTokens items = items.map tokens := by
  induction items with
  | nil => rfl
  | cons d ds ih => simp [itemsTokens, ih]

theorem entriesTokens_eq (entries : List (Key × Derivation)) :
    entriesTokens entries =
      entries.map fun entry => entry.1.lexeme :: .mark .colon :: entry.2.tokens := by
  induction entries with
  | nil => rfl
  | cons entry entries ih => cases entry; simp [entriesTokens, ih]

theorem itemsValue_eq (items : List Derivation) : itemsValue items = items.map value := by
  induction items with
  | nil => rfl
  | cons d ds ih => simp [itemsValue, ih]

theorem entriesValue_eq (entries : List (Key × Derivation)) :
    entriesValue entries = entries.map fun entry => (entry.1, entry.2.value) := by
  induction entries with
  | nil => rfl
  | cons entry entries ih => cases entry; simp [entriesValue, ih]

end Derivation
end Payload
end QueryLint
