import QueryLint.Sample

/-!
Fixtures: a query with a block of sample rows put in, so that it can run without its data source.

The block goes before the line of the first source at the top level, and a reference to it behind
the line of the first loader that follows the source, or else behind the source itself. Without a
source both go to the front. All other text stays as it is.
-/

namespace QueryLint
set_option autoImplicit false

structure Fixture where
  samples : Samples
  blockName : Text
  text : Text
  document : Document

namespace Fixture

def defaultBlockName : Text := "test_data"

/-- How the block is to be named and described, and how many rows it has. -/
structure Request where
  rows : Option Number := none
  blockName : Option Text := none
  description : Option Text := none

def numbered (name : Text) (n : Nat) : Text := name ++ "_" ++ Text.ofNat n

/-- The preferred name if it is free, else with the least number from two on that makes it so. Among
one more candidate than there are names taken, one is free. -/
def freeName (taken : List Text) (preferred : Text) : Text :=
  if !taken.contains preferred then preferred
  else
    let free := (List.range (taken.length + 1)).find? fun i => !taken.contains (numbered preferred (i + 2))
    numbered preferred (free.getD taken.length + 2)

def lineStart (text : Text) (offset : Nat) : Nat :=
  offset - ((text.take offset).reverse.takeWhile fun (c : CodeUnit) => c ≠ '\n').length

def lineEnd (text : Text) (offset : Nat) : Nat := offset + (Text.firstLine (text.drop offset)).length

/-- The first source of the top level and the command that the reference goes behind. -/
def anchors : List Command → Option (Command × Command)
  | [] => none
  | c :: cs =>
    if c.hasRole .source then some (c, (cs.find? (·.hasRole .loader)).getD c) else anchors cs

def blockLines (dialect : Dialect) (name : Text) (description : Option Text) (rows : List SampleRow) :
    List Text :=
  (match description with
    | none => []
    | some [] => []
    | some text => ["# Test: " ++ text]) ++
    [dialect.openBlock name] ++ rows.map (fun row => dialect.row row.payload) ++ [dialect.closeBlock]

def splice (text : Text) (root : List Command) (lines : List Text) (reference : Text) : Text :=
  let block := Text.join "\n" lines ++ "\n"
  match anchors root with
  | none => block ++ reference ++ "\n" ++ text
  | some (source, anchor) =>
    let blockAt := lineStart text source.start.offset
    let referenceAt := lineEnd text anchor.stop
    text.take blockAt ++ block ++ (text.take referenceAt).drop blockAt ++ "\n" ++ reference ++
      text.drop referenceAt

def build (d : Document) (request : Request) : Fixture :=
  let samples := Samples.ofDocument d request.rows
  let blockName := freeName (d.blocks.map (·.name)) (request.blockName.getD defaultBlockName)
  let lines := blockLines d.dialect blockName request.description samples.rows
  let text := splice d.text d.root lines (d.dialect.reference blockName)
  ⟨samples, blockName, text, Document.parse d.dialect text⟩

def toJson (f : Fixture) : Json :=
  .object [
    ("blockName", .text f.blockName),
    ("fields", .array ((FieldRow.ofFields f.samples.fields f.samples.types).map FieldRow.toJson)),
    ("rows", .array (f.samples.rows.map fun row =>
      .object (row.map fun (key, value) => (key, value.toJson)))),
    ("text", .text f.text)]

end Fixture
end QueryLint
