import QueryLint.Text

/-!
Paths: names separated by slashes. Resolving a path makes it absolute and drops what is redundant.
-/

namespace QueryLint.Path
set_option autoImplicit false

def separator : CodeUnit := '/'

def follow (directory : List Text) (names : List Text) : List Text :=
  names.foldl (fun (here : List Text) (name : Text) =>
    if name.isEmpty || name = "." then here
    else if name = ".." then here.dropLast
    else here ++ [name]) directory

def names (path : Text) : List Text := follow [] (Text.splitOn separator path)

def ofNames (names : List Text) : Text :=
  if names.isEmpty then "/" else names.flatMap fun name => separator :: name

def resolve (directory path : Text) : Text :=
  if Text.startsWith path "/" then ofNames (names path)
  else ofNames (follow (names directory) (Text.splitOn separator path))

/-- A path inside a directory. A slash at its end is kept. -/
def join (directory path : Text) : Text :=
  let joined := ofNames (follow (names directory) (Text.splitOn separator path))
  if Text.endsWith path "/" && joined ≠ "/" then joined ++ "/" else joined

def parent (path : Text) : Text := ofNames (names path).dropLast

def lastName (path : Text) : Text :=
  ((Text.splitOn separator path).filter fun name => !name.isEmpty).getLastD []

/-- The last name without an ending, unless that is all of it. -/
def stem (path ending : Text) : Text :=
  let name := lastName path
  if name ≠ ending && Text.endsWith name ending then name.take (name.length - ending.length) else name

end QueryLint.Path
