import QueryLint.Dialect.Builtin
import QueryLint.Disk
import QueryLint.OutputFormat
import QueryLint.Schema

/-!
What can stop the program: a request that makes no sense, settings or metadata that are not what
they should be, and faults of the disk.
-/

namespace QueryLint
set_option autoImplicit false

inductive Misuse where
  | missingValue (option : Text)
  | unknownOption (option : Text)
  | unknownDialect (name : Text)
  | badTimeRange (value : Text)
  | unknownFormat (name : Text)
  | unreadableInput (file : Text) (fault : Disk.Fault)
  | tooManyFiles (command : Text)
  | noCategories
  | badLimit (value : Text)
  | missingArgument (usage : Text)
  | noCategoryCommand
  | unknownCategoryCommand (name : Text)
  | unknownCommand (name : Text)
deriving DecidableEq, Repr

namespace Misuse

def message : Misuse → Text
  | missingValue option => "Option --" ++ option ++ " needs a value"
  | unknownOption option => "Unknown option --" ++ option
  | unknownDialect name =>
    "Unknown dialect '" ++ name ++ "' (expected " ++
      Text.join " or " (Dialect.Builtin.all.map Dialect.Builtin.name) ++ ")"
  | badTimeRange value =>
    "Invalid --time-range '" ++ value ++ "' (expected a duration such as 30m, 6h or 1d)"
  | unknownFormat name =>
    "Unknown format '" ++ name ++ "' (expected " ++ Text.join ", " (OutputFormat.all.map OutputFormat.name) ++ ")"
  | unreadableInput file fault => "Cannot read " ++ file ++ ": " ++ fault.message
  | tooManyFiles command => command ++ " takes at most one file"
  | noCategories =>
    "No category directory: pass --categories <dir> or set categoriesDir in the configuration"
  | badLimit value => "Invalid --limit '" ++ value ++ "' (expected a positive integer)"
  | missingArgument usage => "Usage: mxqlint category " ++ usage
  | noCategoryCommand => "Usage: mxqlint category search|product|info|products|reindex"
  | unknownCategoryCommand name => "Unknown category command '" ++ name ++ "'"
  | unknownCommand name => "Unknown command '" ++ name ++ "' (run mxqlint --help)"

end Misuse

inductive SettingsProblem where
  | unknownDialect (name : Text)
  | invalid (complaints : List Schema.Complaint)
  | unreadable (fault : Disk.Fault)
  | malformed
deriving DecidableEq, Repr

namespace SettingsProblem

/-- What is wrong; the details of malformed YAML are not told. -/
def message : SettingsProblem → Text
  | unknownDialect name =>
    "Unknown dialect \"" ++ name ++ "\". Available: " ++
      Text.join ", " (Dialect.Builtin.all.map Dialect.Builtin.name)
  | invalid complaints => "Invalid configuration: " ++ Schema.Complaint.messages complaints
  | unreadable fault => "Cannot read configuration: " ++ fault.message
  | malformed => "Cannot parse configuration: <yaml error>"

def paths : SettingsProblem → List Text
  | unknownDialect _ => ["dialect"]
  | invalid complaints => complaints.map Schema.Complaint.pathText
  | unreadable _ => []
  | malformed => []

end SettingsProblem

inductive MetadataProblem where
  | unreadable (fault : Disk.Fault)
  | malformed
  | invalid (complaints : List Schema.Complaint)
deriving DecidableEq, Repr

def MetadataProblem.message : MetadataProblem → Text
  | unreadable fault => fault.message
  | malformed => "<json error>"
  | invalid complaints => Schema.Complaint.messages complaints

inductive Failure where
  | notText (kind : Text)
  | settings (problem : SettingsProblem) (source : Option Text)
  | metadata (path : Text) (problem : MetadataProblem)
  | misuse (cause : Misuse)
  | disk (fault : Disk.Fault)
  | unsupportedFormat (name : Text)
deriving DecidableEq, Repr

namespace Failure

def message : Failure → Text
  | notText kind => "Query text must be a string, received " ++ kind ++ "."
  | settings problem source =>
    match source with
    | none => problem.message
    | some [] => problem.message
    | some file => problem.message ++ " (" ++ file ++ ")"
  | metadata path problem => "Category metadata error in " ++ path ++ ": " ++ problem.message
  | misuse cause => cause.message
  | disk fault => fault.message
  | unsupportedFormat name => "Unsupported format: " ++ name

/-- Whether the program foresees the failure and reports it as an error of its own. -/
def isForeseen : Failure → Bool
  | disk _ => false
  | unsupportedFormat _ => false
  | _ => true

end Failure
end QueryLint
