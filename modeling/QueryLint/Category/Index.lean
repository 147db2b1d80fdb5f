import QueryLint.Category

/-!
The index of a set of metadata files: the categories with their files, the categories of each
product, and the categories that each keyword leads to.
-/

namespace QueryLint
set_option autoImplicit false

open Schema

/-- What the index knows of a category; `languages` names its file in each language. -/
structure IndexEntry where
  title : Text
  interval : Scalar
  keys : List Text
  platforms : List Text
  languages : Record Text
  tags : List Text
  fields : List Text
deriving DecidableEq

structure CategoryIndex where
  categories : Record IndexEntry
  products : Record (List Text)
  keywords : Record (List Text)
deriving DecidableEq

namespace IndexEntry

def ofCategory (c : Category) : IndexEntry := ⟨c.title, c.interval, c.keys, c.platforms, [], [], []⟩

/-- Adds a file. The file in the default language tells the title and the attributes. -/
def addFile (file : Text) (c : Category) (e : IndexEntry) : IndexEntry :=
  let language := Category.languageOf file
  let e := { e with languages := Record.set language file e.languages }
  if language = Category.defaultLanguage then
    { e with title := c.title, tags := c.tags.map (·.name), fields := c.fields.map (·.name) }
  else e

/-- The file of a category in a language, else in the default language, else in any. -/
def file? (e : IndexEntry) (language : Text) : Option Text :=
  (Record.get? e.languages language).or
    ((Record.get? e.languages Category.defaultLanguage).or (Record.values e.languages).head?)

def ofMembers (path : List Text) (members : Record Json) : Checked IndexEntry :=
  let part {α : Type} (key : Text) (check : Check α) : Checked α := member path members key check
  IndexEntry.mk
    <$> part "title" text
    <*> part "interval" scalar
    <*> part "pk" (list text)
    <*> part "platforms" (list text)
    <*> part "languages" (recordOf text)
    <*> part "tags" (list text)
    <*> part "fields" (list text)

def toJson (e : IndexEntry) : Json :=
  .object [("title", .text e.title), ("interval", e.interval.toJson), ("pk", .texts e.keys),
    ("platforms", .texts e.platforms),
    ("languages", .object (e.languages.map fun (language, file) => (language, .text file))),
    ("tags", .texts e.tags), ("fields", .texts e.fields)]

end IndexEntry

namespace CategoryIndex

def empty : CategoryIndex := ⟨[], [], []⟩

def addName (key name : Text) (lists : Record (List Text)) : Record (List Text) :=
  let names := (Record.get? lists key).getD []
  Record.assign key (if names.contains name then names else names ++ [name]) lists

def addCategory (index : CategoryIndex) (file : Text) (c : Category) : CategoryIndex where
  categories :=
    let entry := (Record.get? index.categories c.name).getD (.ofCategory c)
    Record.assign c.name (entry.addFile file c) index.categories
  products := addName (Category.productOf c.name) c.name index.products
  keywords := c.keywords.foldl (fun lists keyword => addName keyword c.name lists) index.keywords

def ofCategories (files : Record Category) : CategoryIndex :=
  let index := files.foldl (fun index file => index.addCategory file.1 file.2) empty
  ⟨Record.arranged index.categories, Record.arranged index.products, Record.arranged index.keywords⟩

def ofMembers (path : List Text) (members : Record Json) : Checked CategoryIndex :=
  CategoryIndex.mk
    <$> member path members "categories" (recordOf (object IndexEntry.ofMembers))
    <*> member path members "products" (recordOf (list text))
    <*> member path members "keywords" (recordOf (list text))

def ofJson (j : Json) : Checked CategoryIndex := object ofMembers [] (some j)

def toJson (index : CategoryIndex) : Json :=
  let lists (r : Record (List Text)) : Json := .object (r.map fun (key, names) => (key, .texts names))
  .object [("categories", .object (index.categories.map fun (name, entry) => (name, entry.toJson))),
    ("products", lists index.products), ("keywords", lists index.keywords)]

def ofProduct (index : CategoryIndex) (product : Text) : List Text :=
  (Record.get? index.products (Text.lower product)).getD []

def productNames (index : CategoryIndex) : List Text := (Record.keys index.products).mergeSort Text.le

end CategoryIndex
end QueryLint
