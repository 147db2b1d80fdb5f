import QueryLint.CommandLine.Files
import QueryLint.CommandLine.Libraries

/-!
The executable: it gathers what a run needs, runs it, and prints and writes what came of it.
-/

namespace QueryLint.CommandLine
set_option autoImplicit false

def copyPath (disk : Disk) (path : Text) : IO Disk := do
  let place := (← IO.currentDir) / path.toString
  if ← place.isDir then return disk.makeDirectory path
  else if ← place.pathExists then return disk.put path (Text.ofString (← IO.FS.readFile place))
  else return disk

def copyPaths (disk : Disk) (paths : List Text) : IO Disk := paths.foldlM copyPath disk

def copyDirectory (disk : Disk) (path : Text) : IO Disk := do
  let place := (← IO.currentDir) / path.toString
  if ← place.isDir then
    let names := (← place.readDir).toList.map fun entry => Text.ofString entry.fileName
    copyPaths (disk.makeDirectory path) (names.map (Path.join path))
  else copyPath disk path

def gatherFiles (directory : Text) (arguments : Arguments) : IO Disk := do
  let disk ← copyPaths ⟨[], [directory]⟩ (namedPaths directory arguments)
  match categoryDirectory? Libraries.builtin.readYaml directory arguments disk with
  | none => return disk
  | some categories =>
    let disk ← copyDirectory disk categories
    copyPaths disk (indexedPaths categories disk)

def gatherEnvironment : IO (Record Text) := do
  let found ← ["NO_COLOR", "FORCE_COLOR", "MXQLINT_DEBUG"].mapM fun name => do
    return (← IO.getEnv name).map fun value => (Text.ofString name, Text.ofString value)
  return found.filterMap id

/-- Runs the program on this machine and gives its exit code. No time is measured. -/
def runHere (arguments : List Text) : IO UInt32 := do
  let directory := Text.ofString (← IO.currentDir).toString
  let parsed := match Arguments.parse arguments with
    | .ok parsed => parsed
    | .error _ => ⟨none, [], [], []⟩
  let disk ← gatherFiles directory parsed
  let environment ← gatherEnvironment
  let input ← if readsInput parsed then (← IO.getStdin).readToEnd else pure ""
  let surroundings : Surroundings :=
    ⟨directory, environment, ← (← IO.getStdout).isTty, Text.ofString input, ⟨0, 0, 0⟩⟩
  let (result, session) := run .builtin arguments surroundings disk
  let level := Log.Level.ofSetting (Record.get? environment "MXQLINT_DEBUG")
  for entry in session.log.filter (·.shownAt level) do
    IO.eprint entry.line.toString
  for (path, text) in changedFiles disk session.disk do
    IO.FS.writeFile path.toString text.toString
  match result with
  | .ok reply =>
    IO.print (Text.toString reply.output.flatten)
    IO.eprint (Text.toString reply.complaint.flatten)
    return reply.exit.code.toUInt32
  | .error failure =>
    IO.eprint ("Error: " ++ failure.message.toString ++ "\n")
    return Exit.misuse.code.toUInt32

end QueryLint.CommandLine

def main (arguments : List String) : IO UInt32 :=
  QueryLint.CommandLine.runHere (arguments.map QueryLint.Text.ofString)
