import QueryLint.Document

/-!
Style rules: one remark for the bare keys of a command, and one for each comma before a closing
bracket.
-/

namespace QueryLint
set_option autoImplicit false

namespace Rules.Style

def unquotedKeys (notes : List Payload.Note) : List Text :=
  notes.filterMap fun note => match note.kind with
    | .unquotedKey key => some key
    | .trailingSeparator _ => none

def separatorIssue? (c : Command) (note : Payload.Note) : Option Issue :=
  match note.kind with
  | .unquotedKey _ => none
  | .trailingSeparator bracket =>
    some (.ofCommand c .trailingSeparator
      ("Trailing ',' before '" ++ [bracket.closing] ++ "' in " ++ c.name ++ " payload")
      (some "Remove the trailing separator"))

def commandIssues (c : Command) : List Issue :=
  let keys := unquotedKeys c.notes
  let unquoted := if keys.isEmpty then []
    else [Issue.ofCommand c .unquotedKey
      "Field names without quotes (valid but not recommended for readability)"
      (some ("Consider using quotes: " ++ Text.join ", " keys))]
  unquoted ++ c.notes.filterMap (separatorIssue? c)

def issues (d : Document) : List Issue := d.commands.flatMap commandIssues

end Rules.Style
end QueryLint
