import QueryLint.Issue

/-!
Documents: the commands of a query text, sorted into scopes.

The top level is one scope; every block, from its opener to its closer, is another. Blocks do not
nest: an opener inside an open block ends that block first, and a block that is still open at the
end of the text ends there. An opener belongs to the top level, a closer to the block it closes.
-/

namespace QueryLint
set_option autoImplicit false

/-- A block that has ended; `closerIndex` is none when no closer ended it. -/
structure Block where
  name : Text
  commands : List Command
  openerIndex : Nat
  closerIndex : Option Nat

/-- A list of commands that rules look at on its own; the top level has no name. -/
structure Scope where
  name : Option Text
  commands : List Command

def Block.scope (b : Block) : Scope := ⟨some b.name, b.commands⟩

/-- A query text, read. `commands` lists the commands of all scopes in the order of the text,
`root` those of the top level, and `blocks` the blocks in the order of their openers. -/
structure Document where
  text : Text
  dialect : Dialect
  commands : List Command
  root : List Command
  blocks : List Block
  issues : List Issue

namespace Document

structure OpenBlock where
  name : Text
  opener : Command
  commands : List Command

/-- The document as far as it has been put together. -/
structure Assembly where
  commands : List Command
  root : List Command
  blocks : List Block
  current : Option OpenBlock
  issues : List Issue

namespace Assembly

def start : Assembly := ⟨[], [], [], none, []⟩

def report (a : Assembly) (issue : Issue) : Assembly := { a with issues := a.issues ++ [issue] }

/-- Ends a block. A name that an earlier block has is worth a warning; unnamed blocks have none. -/
def endBlock (a : Assembly) (block : OpenBlock) (closerIndex : Option Nat) : Assembly :=
  let repeated := !block.name.isEmpty && a.blocks.any fun b => b.name = block.name
  let ended : Block := ⟨block.name, block.commands, block.opener.index, closerIndex⟩
  let a := { a with blocks := a.blocks ++ [ended], current := none }
  if repeated then
    a.report (.ofCommand block.opener .duplicateSubquery
      ("Subquery '" ++ block.name ++ "' is defined more than once; the later definition wins")
      (some "Give each SUB block a distinct id"))
  else a

/-- Takes a block opener: it ends an open block and starts its own. -/
def addOpener (a : Assembly) (opener : Command) : Assembly :=
  let a := match a.current with
    | none => a
    | some block =>
      (a.report (.ofCommand opener .nestedBlock
        (opener.name ++ " opened inside block '" ++ block.name ++ "' before its closing command")
        (some "Close the previous block before opening another one"))).endBlock block none
  let name := opener.declaredName?
  let a := if name.isNone && opener.payload.isSome then
      a.report (.ofCommand opener .missingBlockName (opener.name ++ " does not name its subquery")
        (some "Name the block, e.g. SUB \x7bid: my_data\x7d"))
    else a
  { a with
    commands := a.commands ++ [opener]
    root := a.root ++ [opener]
    current := some ⟨name.getD [], opener, []⟩ }

/-- Takes a block closer; without an open block it is reported and left at the top level. -/
def addCloser (a : Assembly) (closer : Command) : Assembly :=
  let a := { a with commands := a.commands ++ [closer] }
  match a.current with
  | none =>
    { a.report (.ofCommand closer .unmatchedBlockClose
        (closer.name ++ " without a matching block opener")
        (some "Remove the extra closing command or add the missing opener")) with
      root := a.root ++ [closer] }
  | some block => a.endBlock { block with commands := block.commands ++ [closer] } (some closer.index)

/-- Takes a command that is neither opener nor closer. -/
def addPlain (a : Assembly) (c : Command) : Assembly :=
  match a.current with
  | none => { a with commands := a.commands ++ [c], root := a.root ++ [c] }
  | some block =>
    { a with
      commands := a.commands ++ [c]
      current := some { block with commands := block.commands ++ [c] } }

def add (dialect : Dialect) (a : Assembly) (token : Token) : Assembly :=
  let command := Command.ofToken dialect (a.current.map (·.name)) a.commands.length token
  match command.role? with
  | some .blockOpen => a.addOpener { command with scope := none }
  | some .blockClose => a.addCloser command
  | _ => a.addPlain command

def finish (a : Assembly) : Assembly :=
  match a.current with
  | none => a
  | some block =>
    (a.report (.ofCommand block.opener .unclosedBlock
      ("Block '" ++ block.name ++ "' is never closed")
      (some "Add a closing command (END) after the block"))).endBlock block none

def ofTokens (dialect : Dialect) (tokens : List Token) : Assembly :=
  (tokens.foldl (add dialect) start).finish

end Assembly

/-- The issue of a stray line. It lies in the scope of the command before it. -/
def strayIssue (commands : List Command) (stray : Stray) : Issue where
  severity := Rule.severity .strayText
  concern := Rule.concern .strayText
  code := Rule.code .strayText
  message := "Unexpected text '" ++ stray.text ++ "' does not start a command"
  commandIndex := match stray.after with
    | none => -1
    | some index => index
  line := stray.start.line
  scope := (stray.after.bind fun index => commands[index]?).bind (·.scope)
  suggestion := some "Start each command with its keyword, or comment the line out with #"

def parse (dialect : Dialect) (text : Text) : Document :=
  let tokens := Tokens.ofText dialect.isKeyword text
  let assembly := Assembly.ofTokens dialect tokens.tokens
  { text, dialect
    commands := assembly.commands
    root := assembly.root
    blocks := assembly.blocks
    issues := assembly.issues ++ tokens.strays.map (strayIssue assembly.commands) }

/-- The blocks that can be referred to. Of blocks with one name the last counts, at the place of
the first. -/
def subqueries (d : Document) : Record Block :=
  Record.ofPairs ((d.blocks.filter fun b => !b.name.isEmpty).map fun b => (b.name, b))

def rootScope (d : Document) : Scope := ⟨none, d.root⟩

def scopes (d : Document) : List Scope := d.rootScope :: d.blocks.map Block.scope

end Document
end QueryLint
