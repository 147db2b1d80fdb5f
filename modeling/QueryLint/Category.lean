import QueryLint.Path
import QueryLint.Schema
import QueryLint.Text.Case

/-!
Categories: the kinds of records that queries select from, as their metadata describes them.

A metadata file describes one category in one language, given by the end of the file's name. The
members that a category does not name are kept, and written behind the others.
-/

namespace QueryLint
set_option autoImplicit false

open Schema

structure Attribute where
  name : Text
  unit : Text
  type : Text
  description : Text
  extras : Record Json

structure Category where
  name : Text
  title : Text
  interval : Scalar
  keys : List Text
  platforms : List Text
  tags : List Attribute
  fields : List Attribute
  extras : Record Json

namespace Attribute

def ofMembers (nameKey : Text) (path : List Text) (members : Record Json) : Checked Attribute :=
  let described (key : Text) : Checked Text := member path members key (withDefault [] text)
  (fun name unit type description =>
      ⟨name, unit, type, description, Schema.extras [nameKey, "unit", "type", "description"] members⟩)
    <$> member path members nameKey nonEmptyText
    <*> described "unit"
    <*> described "type"
    <*> described "description"

def toJson (nameKey : Text) (a : Attribute) : Json :=
  let described : Record Json :=
    [(nameKey, .text a.name), ("unit", .text a.unit), ("type", .text a.type),
      ("description", .text a.description)]
  .object (Record.arranged (described ++ a.extras))

end Attribute

namespace Category

def tagNameKey : Text := "tagName"

def fieldNameKey : Text := "fieldName"

def memberNames : List Text :=
  ["categoryName", "title", "interval", "pk", "platforms", "tags", "fields"]

def ofMembers (path : List Text) (members : Record Json) : Checked Category :=
  let part {α : Type} (key : Text) (check : Check α) : Checked α := member path members key check
  let attributes (nameKey : Text) : Check (List Attribute) :=
    withDefault [] (list (object (Attribute.ofMembers nameKey)))
  (fun name title interval keys platforms tags fields =>
      ⟨name, title, interval, keys, platforms, tags, fields, Schema.extras memberNames members⟩)
    <$> part "categoryName" nonEmptyText
    <*> part "title" (withDefault [] text)
    <*> part "interval" (withDefault (.text []) scalar)
    <*> part "pk" (withDefault [] (list text))
    <*> part "platforms" (withDefault [] (list text))
    <*> part "tags" (attributes tagNameKey)
    <*> part "fields" (attributes fieldNameKey)

def ofJson (j : Json) : Checked Category := object ofMembers [] (some j)

def toJson (c : Category) : Json :=
  let described : Record Json :=
    [("categoryName", .text c.name), ("title", .text c.title), ("interval", c.interval.toJson),
      ("pk", .texts c.keys), ("platforms", .texts c.platforms),
      ("tags", .array (c.tags.map (Attribute.toJson tagNameKey))),
      ("fields", .array (c.fields.map (Attribute.toJson fieldNameKey)))]
  .object (Record.arranged (described ++ c.extras))

def attributes (c : Category) : List Attribute := c.tags ++ c.fields

def defaultLanguage : Text := "en"

def namedLanguages : List Text := ["ko", "ja"]

def fileEnding : Text := ".meta"

def languageOf (file : Text) : Text :=
  let stem := Path.stem file fileEnding
  (namedLanguages.find? fun language => Text.endsWith stem ("_" ++ language)).getD defaultLanguage

/-- The product that a category belongs to: its name up to the first underscore. -/
def productOf (name : Text) : Text := Text.lower ((Text.splitOn '_' name).headD [])

/-- The words of a text: the longest runs of letters, digits and underscores. -/
def words (t : Text) : List Text :=
  (Text.splitOn ' ' (t.map fun c => if c.isWordUnit then c else ' ')).filter fun word => !word.isEmpty

/-- What a category is found by: the parts of its name, the words of its title and its platforms, all
in lower case and each once. -/
def keywords (c : Category) : List Text :=
  ((Text.splitOn '_' (Text.lower c.name)).filter (fun part => !part.isEmpty) ++
    words (Text.lower c.title) ++ c.platforms.map Text.lower).eraseDups

end Category
end QueryLint
