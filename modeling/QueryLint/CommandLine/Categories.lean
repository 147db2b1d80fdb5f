import QueryLint.CommandLine.Query

/-!
The commands on categories: finding them, showing what is known of them, and writing their index.
-/

namespace QueryLint.CommandLine
set_option autoImplicit false

def asLines (ts : List Text) : Text := ts.flatMap fun t => t ++ "\n"

namespace Context

def limit (c : Context) : Action Number := do
  match c.arguments.get? .limit with
  | none => return CategoryIndex.defaultLimit
  | some value =>
    let limit := Number.ofText value
    if limit.isInteger && Number.le 1 limit then return limit
    else Action.misused (.badLimit value)

def required (value : Option Text) (usage : Text) : Action Text :=
  match value with
  | none => Action.misused (.missingArgument usage)
  | some [] => Action.misused (.missingArgument usage)
  | some t => return t

def searchText (c : Context) (query : Text) (results : List SearchResult) : Text :=
  if results.isEmpty then "No categories match '" ++ query ++ "'.\n"
  else
    let width := (results.map fun r => r.name.length).foldl max 0
    asLines (results.map fun r =>
      Text.padEnd width r.name ++ "  " ++ r.title ++ "  " ++
        c.palette.paint [.gray] ("(" ++ Text.ofNat r.relevance ++ ")"))

def searchCommand (c : Context) (words : List Text) : Program Exit := do
  let query ← required (some (Text.trim (Text.join " " words))) "search <text> [--limit N]"
  let catalog ← c.openCatalog false
  let limit ← c.limit
  let results := catalog.index.search c.libraries.compareNames query limit
  c.emit (.array (results.map SearchResult.toJson)) (c.searchText query results)
  return .success

def productCommand (c : Context) (name : Option Text) : Program Exit := do
  let product ← required name "product <name>"
  let catalog ← c.openCatalog false
  let names := catalog.index.ofProduct product
  let text : Text :=
    if names.isEmpty then "No categories for product '" ++ product ++ "'.\n" else asLines names
  c.emit (.texts names) text
  return .success

def productsCommand (c : Context) : Program Exit := do
  let catalog ← c.openCatalog false
  let names := catalog.index.productNames
  c.emit (.texts names) (asLines names)
  return .success

def attributeLine (a : Attribute) : Text :=
  let kind := if a.unit.isEmpty then a.type else a.type ++ ", " ++ a.unit
  let description : Text := if a.description.isEmpty then [] else " " ++ a.description
  "  " ++ a.name ++ " (" ++ kind ++ ")" ++ description

def attributeLines (title : Text) (attributes : List Attribute) : List Text :=
  if attributes.isEmpty then [] else title :: attributes.map attributeLine

def categoryText (c : Context) (category : Category) : Text :=
  asLines (
    [c.palette.paint [.bold] category.name ++ ": " ++ category.title] ++
    (if category.interval = .text [] then [] else ["interval: " ++ category.interval.toText]) ++
    (if category.platforms.isEmpty then [] else ["platforms: " ++ Text.join ", " category.platforms]) ++
    attributeLines "tags:" category.tags ++ attributeLines "fields:" category.fields)

def lookUp (catalog : Catalog) (name language : Text) : Action (Option Category) := do
  let (found, _) ← Action.ofExcept (catalog.info (← Action.disk) name language)
  return found

def infoCommand (c : Context) (name : Option Text) : Program Exit := do
  let name ← required name "info <category> [--lang CODE]"
  let catalog ← c.openCatalog false
  let found ← lookUp catalog name ((c.arguments.get? .language).getD Category.defaultLanguage)
  match found with
  | none =>
    Program.complain ("Unknown category '" ++ name ++ "'\n")
    return .findings
  | some category =>
    c.emit category.toJson (c.categoryText category)
    return .success

def writeIndex (catalog : Catalog) : Action Text := do
  let (path, disk) ← Action.ofExcept (catalog.writeIndex (← Action.disk))
  Action.setDisk disk
  return path

def reindexCommand (c : Context) : Program Exit := do
  let catalog ← c.openCatalog true
  let path ← writeIndex catalog
  let count := catalog.index.categories.length
  c.emit (.object [("path", .text path), ("categories", .ofNat count)])
    ("Wrote " ++ path ++ " (" ++ Text.ofNat count ++ " categories)\n")
  return .success

def category (c : Context) : Program Exit :=
  match c.arguments.operands with
  | [] => Program.misused .noCategoryCommand
  | command :: rest =>
    if command = "search" then c.searchCommand rest
    else if command = "product" then c.productCommand rest.head?
    else if command = "products" then c.productsCommand
    else if command = "info" then c.infoCommand rest.head?
    else if command = "reindex" then c.reindexCommand
    else Program.misused (.unknownCategoryCommand command)

end Context
end QueryLint.CommandLine
