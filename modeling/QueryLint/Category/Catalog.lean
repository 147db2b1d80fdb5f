import QueryLint.Category.Search
import QueryLint.Failure
import QueryLint.Json.Reader
import QueryLint.Rules.Fields

/-!
Catalogs: a directory of metadata files with its index.

The index is read from its file when there is one, otherwise made from the metadata files. Files that
are no metadata are left out of the index, and the log says so. A catalog remembers the categories
that it has read.
-/

namespace QueryLint
set_option autoImplicit false

structure Catalog where
  directory : Text
  index : CategoryIndex
  known : Record Category

namespace Catalog

def indexFile : Text := "category-index.json"

def indexPath (directory : Text) : Text := Path.join directory indexFile

def readAs {α : Type} (disk : Disk) (path : Text) (check : Json → Schema.Checked α) :
    Except MetadataProblem α :=
  match disk.read path with
  | .error fault => .error (.unreadable fault)
  | .ok text =>
    match Json.read text with
    | none => .error .malformed
    | some j =>
      match check j with
      | .valid a => .ok a
      | .invalid complaints => .error (.invalid complaints)

def readFile (disk : Disk) (directory file : Text) : Except Failure Category :=
  let path := Path.join directory file
  (readAs disk path Category.ofJson).mapError (Failure.metadata path)

/-- The metadata files among the names in a directory, in order of their units. -/
def metadataFiles (names : List Text) : List Text :=
  (names.filter fun name => Text.endsWith name Category.fileEnding).mergeSort Text.le

def readable (files : List (Text × Except Failure Category)) : Record Category :=
  files.filterMap fun (file, result) => match result with
    | .ok c => some (file, c)
    | .error _ => none

def skipped (directory : Text) (file : Text × Except Failure Category) : Option Log.Entry :=
  match file.2 with
  | .ok _ => none
  | .error failure =>
    some ⟨.warn, "skipping category metadata " ++ file.1,
      some [("path", .text (Path.join directory file.1)), ("reason", .text failure.message)]⟩

def build (disk : Disk) (directory : Text) : Except Failure (Catalog × List Log.Entry) :=
  if !disk.exists? directory then .ok (⟨directory, .empty, []⟩, [])
  else match disk.list directory with
    | .error fault => .error (.disk fault)
    | .ok names =>
      let files := (metadataFiles names).map fun file => (file, readFile disk directory file)
      let known := readable files
      let index := CategoryIndex.ofCategories known
      let built : Log.Entry := ⟨.debug, "category index built",
        some [("dir", .text directory), ("categories", .ofNat index.categories.length)]⟩
      .ok (⟨directory, index, known⟩, files.filterMap (skipped directory) ++ [built])

def ofIndexFile (disk : Disk) (directory : Text) : Except Failure Catalog :=
  let path := indexPath directory
  match readAs disk path CategoryIndex.ofJson with
  | .error problem => .error (.metadata path problem)
  | .ok index => .ok ⟨directory, index, []⟩

/-- Opens a directory; `rebuild` makes the index anew even if there is a file of it. -/
def ofDirectory (disk : Disk) (directory : Text) (rebuild : Bool) :
    Except Failure (Catalog × List Log.Entry) :=
  if rebuild || !disk.exists? (indexPath directory) then build disk directory
  else (ofIndexFile disk directory).map fun catalog => (catalog, [])

def category (c : Catalog) (disk : Disk) (file : Text) : Except Failure (Category × Catalog) :=
  match Record.get? c.known file with
  | some found => .ok (found, c)
  | none =>
    (readFile disk c.directory file).map fun found =>
      (found, { c with known := Record.set file found c.known })

def info (c : Catalog) (disk : Disk) (name language : Text) :
    Except Failure (Option Category × Catalog) :=
  match (Record.get? c.index.categories name).bind (·.file? language) with
  | none => .ok (none, c)
  | some file => (c.category disk file).map fun (found, c) => (some found, c)

def attributes (c : Catalog) (disk : Disk) (name : Text) :
    Except Failure (Option (List Attribute) × Catalog) :=
  (c.info disk name Category.defaultLanguage).map fun (found, c) => (found.map (·.attributes), c)

def lookup (disk : Disk) : Lookup Catalog := fun name c =>
  match c.attributes disk name with
  | .ok (some attributes, c) => (.found (attributes.map (·.name)), c)
  | .ok (none, c) => (.missing, c)
  | .error failure => (.failed failure.message, c)

/-- Writes the index into the directory and gives the path of its file. -/
def writeIndex (c : Catalog) (disk : Disk) : Except Failure (Text × Disk) :=
  let path := indexPath c.directory
  match disk.write path c.index.toJson.document with
  | .error fault => .error (.disk fault)
  | .ok disk => .ok (path, disk)

end Catalog
end QueryLint
