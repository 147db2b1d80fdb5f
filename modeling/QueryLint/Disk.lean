import QueryLint.Path
import QueryLint.Record

/-!
The files that a run can see, as a value: reading asks it, and writing gives a new one. Paths are
absolute. A directory is there when it was made or when something lies in it.
-/

namespace QueryLint
set_option autoImplicit false

/-- Files with their contents, and directories that were made. -/
structure Disk where
  files : Record Text
  directories : List Text

namespace Disk

inductive Fault where
  | missing (path : Text)
  | readsDirectory
  | opensDirectory (path : Text)
  | opensThroughFile (path : Text)
  | listsFile (path : Text)
deriving DecidableEq, Repr

def Fault.message : Fault → Text
  | missing path => "ENOENT: no such file or directory, open '" ++ path ++ "'"
  | readsDirectory => "EISDIR: illegal operation on a directory, read"
  | opensDirectory path => "EISDIR: illegal operation on a directory, open '" ++ path ++ "'"
  | opensThroughFile path => "ENOTDIR: not a directory, open '" ++ path ++ "'"
  | listsFile path => "ENOTDIR: not a directory, scandir '" ++ path ++ "'"

def isFile (d : Disk) (path : Text) : Bool := Record.has d.files path

/-- Whether the first path lies somewhere inside the second. -/
def isInside (inner outer : Text) : Bool :=
  Text.startsWith inner (if outer = "/" then outer else outer ++ "/") && inner ≠ outer

def isDirectory (d : Disk) (path : Text) : Bool :=
  path = "/" || d.directories.contains path || d.directories.any (isInside · path) ||
    (Record.keys d.files).any (isInside · path)

def exists? (d : Disk) (path : Text) : Bool := d.isFile path || d.isDirectory path

def passesFile (d : Disk) (path : Text) : Bool := (Record.keys d.files).any (isInside path)

/-- The contents of a file. A path with a slash at its end names no file. -/
def read (d : Disk) (path : Text) : Except Fault Text :=
  let target := Path.ofNames (Path.names path)
  match Record.get? d.files target with
  | some text => if path = target then .ok text else .error (.opensThroughFile path)
  | none =>
    if d.isDirectory target then .error .readsDirectory
    else if d.passesFile target then .error (.opensThroughFile path)
    else .error (.missing path)

def write (d : Disk) (path text : Text) : Except Fault Disk :=
  if d.isDirectory path then .error (.opensDirectory path)
  else if d.passesFile path then .error (.opensThroughFile path)
  else if !d.isDirectory (Path.parent path) then .error (.missing path)
  else .ok { d with files := Record.set path (Text.wellFormed text) d.files }

def put (d : Disk) (path text : Text) : Disk :=
  { d with files := Record.set path (Text.wellFormed text) d.files }

def makeDirectory (d : Disk) (path : Text) : Disk := { d with directories := d.directories ++ [path] }

/-- Removes a file or a directory with all that lies in it. The directory it lay in stays. -/
def remove (d : Disk) (path : Text) : Disk where
  files := d.files.filter fun file => !(file.1 = path || isInside file.1 path)
  directories :=
    (d.directories.filter fun directory => !(directory = path || isInside directory path)) ++
      [Path.parent path]

def nameIn? (directory path : Text) : Option Text :=
  if isInside path directory then (Path.names path)[(Path.names directory).length]? else none

/-- The names in a directory, each once and in order of their units. -/
def list (d : Disk) (directory : Text) : Except Fault (List Text) :=
  if d.isFile directory then .error (.listsFile directory)
  else if !d.isDirectory directory then .error (.missing directory)
  else .ok ((((Record.keys d.files ++ d.directories).filterMap (nameIn? directory)).eraseDups).mergeSort
    Text.le)

end Disk
end QueryLint
