import QueryLint.Text

/-!
The order in which names are listed for people: the root order of Unicode for the Latin, Greek and
Cyrillic alphabets.

Texts are compared by their letters, then by the accents on them, and last by case. A letter with an
accent is the letter with the accent behind it, however it is written. White space, punctuation and
symbols come before digits, and digits before letters. Characters outside of the tables come behind all
others in the order of their code points.
-/

namespace QueryLint.Text
set_option autoImplicit false

namespace Collation

/-- White space, punctuation and symbols from first to last. -/
def symbols : Text :=
  "\t\n\x0b\x0c\r\u0085\u2028\u2029 _-–—,;:!¡?¿.…·'‹›\"«»()[]\x7b\x7d§¶@*/\\&#%‰†‡•`´^¯¨¸°©®+±÷×<=>¬|¦~⁄¤¢$£¥€"

def digits : Text := "0123456789"

def smallLetters : Text :=
  "abcdefghiıjklmnŋopqĸrstŧuvwxyzþʼαβγδεζηθικλμνξοπρστυφχψωабвгђдеєжзѕиійјклљмнњопрстћуфхцчџшщъыьѣэюя"

def capitals : Text :=
  "ABCDEFGHIıJKLMNŊOPQĸRSTŦUVWXYZÞʼΑΒΓΔΕΖΗΘΙΚΛΜΝΞΟΠΡΣΤΥΦΧΨΩАБВГЂДЕЄЖЗЅИІЙЈКЛЉМНЊОПРСТЋУФХЦЧЏШЩЪЫЬѢЭЮЯ"

def accents : Text :=
  "\u0332\u0313\u0314\u0301\u0300\u0306\u0302\u030c\u030a\u0342\u0308\u030b" ++
    "\u0303\u0307\u0338\u0327\u0328\u0304\u0335\u0305\u0309\u030f\u0311\u031b"

def accented : List (Char × Text × Text) := [
  ('\u0301', "ÁÉÍÓÚÝáéíóúýĆćĹĺŃńŔŕŚśŹźΆΈΉΊΌΎΏάέήίόύώЃЌѓќ", "AEIOUYaeiouyCcLlNnRrSsZzΑΕΗΙΟΥΩαεηιουωГКгк"),
  ('\u0300', "ÀÈÌÒÙàèìòùЀЍѐѝ", "AEIOUaeiouЕИеи"),
  ('\u0306', "ĂăĔĕĞğĬĭŎŏŬŭЎў", "AaEeGgIiOoUuУу"),
  ('\u0302', "ÂÊÎÔÛâêîôûĈĉĜĝĤĥĴĵŜŝŴŵŶŷ", "AEIOUaeiouCcGgHhJjSsWwYy"),
  ('\u030c', "ČčĎďĚěĽľŇňŘřŠšŤťŽž", "CcDdEeLlNnRrSsTtZz"),
  ('\u030a', "ÅåŮů", "AaUu"),
  ('\u0308', "ÄËÏÖÜäëïöüÿŸΪΫϊϋЁЇёї", "AEIOUaeiouyYΙΥιυЕІеі"),
  ('\u030b', "ŐőŰű", "OoUu"),
  ('\u0303', "ÃÑÕãñõĨĩŨũ", "ANOanoIiUu"),
  ('\u0307', "ĊċĖėĠġİŻż", "CcEeGgIZz"),
  ('\u0338', "Øø", "Oo"),
  ('\u0327', "ÇçĢģĶķĻļŅņŖŗŞşŢţ", "CcGgKkLlNnRrSsTt"),
  ('\u0328', "ĄąĘęĮįŲų", "AaEeIiUu"),
  ('\u0304', "ĀāĒēĪīŌōŪū", "AaEeIiOoUu"),
  ('\u0335', "ĐđĦħŁł", "DdHhLl")]

/-- Letters that are other letters joined or bent; they come behind all accents. -/
def joined : List (Char × Text) := [
  ('æ', "ae"), ('Æ', "AE"), ('œ', "oe"), ('Œ', "OE"), ('ß', "ss"), ('ſ', "s"), ('ð', "d"), ('Ð', "D"),
  ('ŀ', "l"), ('Ŀ', "L")]

/-- Other shapes of characters; they come behind those in case. -/
def shapes : List (Char × Text) := [
  ('\u00a0', " "), ('‘', "'"), ('’', "'"), ('“', "\""), ('”', "\""), ('ª', "a"), ('º', "o"), ('¹', "1"),
  ('²', "2"), ('³', "3"), ('½', "1⁄2"), ('¼', "1⁄4"), ('¾', "3⁄4"), ('ĳ', "ij"), ('Ĳ', "IJ"), ('ŉ', "ʼn"),
  ('µ', "μ"), ('ς', "σ")]

/-- What a character counts for; the letter of an accent is zero. -/
structure Weight where
  letter : Nat
  accent : Nat
  case : Nat

def isIgnored (n : Nat) : Bool :=
  n < 9 || (0x0E ≤ n && n < 0x20) || (0x7F ≤ n && n < 0x85) || (0x86 ≤ n && n < 0xA0) || n = 0xAD

def rowWeight? (u : CodeUnit) : Option Weight :=
  ((symbols ++ digits ++ smallLetters).idxOf? u).map (⟨· + 1, 1, 1⟩) <|>
    (capitals.idxOf? u).map (⟨(symbols ++ digits).length + · + 1, 1, 2⟩) <|>
    (accents.idxOf? u).map (⟨0, · + 2, 1⟩)

def rowWeights (t : Text) : List Weight := t.filterMap rowWeight?

def parts? (u : CodeUnit) : Option Text :=
  accented.findSome? fun (accent, letters, bases) =>
    (letters.idxOf? u).bind fun i => bases[i]?.map fun base => [base, accent]

def plain? (table : List (Char × Text)) (u : CodeUnit) : Option Text :=
  (table.find? fun entry => CodeUnit.ofChar entry.1 = u).map (·.2)

/-- The joint of joined letters comes behind the first of them, as an accent. -/
def joinedWeights : List Weight → List Weight
  | [] => []
  | w :: ws => w :: ⟨0, accents.length + 2, 1⟩ :: ws

def shapedWeights (ws : List Weight) : List Weight := ws.map fun w => { w with case := w.case + 2 }

def unitWeights? (u : CodeUnit) : Option (List Weight) :=
  (rowWeight? u).map ([·]) <|> (parts? u).map rowWeights <|>
    (plain? joined u).map (joinedWeights ∘ rowWeights) <|> (plain? shapes u).map (shapedWeights ∘ rowWeights)

def weights (t : Text) : List Weight :=
  (scalars t).flatMap fun n =>
    if isIgnored n then []
    else (if n < 0x10000 then unitWeights? n.toUInt16 else none).getD [⟨0x1000 + n, 1, 1⟩]

def key (respect : Weight → Nat) (t : Text) : List Nat := ((weights t).map respect).filter (· ≠ 0)

def compare : Text → Text → Ordering :=
  compareLex (compareOn (key Weight.letter)) (compareLex (compareOn (key Weight.accent)) (compareOn (key Weight.case)))

instance : Std.TransCmp compare := by
  unfold compare
  infer_instance

end Collation
end QueryLint.Text
