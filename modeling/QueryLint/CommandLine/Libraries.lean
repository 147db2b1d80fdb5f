import QueryLint.CommandLine.Session
import QueryLint.Text.Collation
import QueryLint.Yaml.Document
import QueryLint.Yaml.Writer

/-!
The libraries that the executable comes with.
-/

namespace QueryLint.CommandLine
set_option autoImplicit false

def Libraries.builtin : Libraries where
  readYaml := Yaml.read
  writeYaml := Yaml.document
  compareNames := Text.Collation.compare

end QueryLint.CommandLine
