import QueryLint.Record
import QueryLint.Yaml.Cursor
import QueryLint.Yaml.Tag

/-!
The properties that a node may have: a tag and an anchor, by which an alias refers to the node.

A tag is a handle and a name. The handle stands for a name space, which a document may declare; the
tags of the common name space are the ones with a meaning.
-/

namespace QueryLint.Yaml
set_option autoImplicit false

/-- What a tag asks for: a known tag, the tag that a plain scalar would have, no tag at all, or one that
nothing is known about. -/
inductive TagMark where
  | known (tag : Tag)
  | implicit
  | none
  | unknown
deriving DecidableEq, Repr

structure Properties where
  tag : Option TagMark := .none
  anchor : Option Text := .none

def Properties.any (p : Properties) : Bool := p.tag.isSome || p.anchor.isSome

abbrev Handles := Record Text

/-- The handles of tags: one or two exclamation marks, or letters and hyphens between two. -/
def isHandle (t : Text) : Bool :=
  t = "!" || t = "!!" ||
    (2 < t.length && t.head? = some '!' && t.getLast? = some '!' &&
      ((t.drop 1).dropLast).all fun (c : CodeUnit) => c.isLetter || c = '-')

def isTagUnit (c : CodeUnit) : Bool :=
  c.isLetter || c.isDigit || List.elem c ("-#;/?:@&=+$,_.!~*'()[]" : Text)

def isTagTail : Text → Bool
  | [] => true
  | c :: rest =>
    if c = '%' then
      match rest with
      | a :: b :: rest => a.hexDigit?.isSome && b.hexDigit?.isSome && isTagTail rest
      | _ => false
    else isTagUnit c && isTagTail rest

def isTagText : Text → Bool
  | [] => false
  | c :: rest => !isFlowMark c && isTagTail rest

def unescapedTag : Text → Text
  | mark :: a :: b :: rest =>
    match Text.toNatBase? 16 [a, b] with
    | some n =>
      if mark = '%' && n < 128 then n.toUInt16 :: unescapedTag rest
      else mark :: unescapedTag (a :: b :: rest)
    | none => mark :: unescapedTag (a :: b :: rest)
  | t => t

def TagMark.ofText (t : Text) : TagMark :=
  if t = "!" then .none
  else if t = "?" then .implicit
  else match Tag.all.find? fun tag => (Tag.space ++ tag.name : String) = t with
    | some tag => .known tag
    | .none => .unknown

/-- The whole tag of a handle and a name. Handles of letters have to be declared. -/
def Handles.resolve? (handles : Handles) (handle name : Text) : Option Text :=
  match Record.get? handles handle with
  | some space => some (space ++ name)
  | none =>
    if handle = "!" then some (handle ++ name)
    else if handle = "!!" then some (Tag.space ++ name)
    else none

/-- Splits what stands behind the first exclamation mark of a tag into its handle and its name. -/
def splitHandle (word : Text) : Text × Text :=
  let front := word.takeWhile fun (c : CodeUnit) => c ≠ '!'
  match word.drop front.length with
  | [] => ("!", word)
  | _ :: name => ("!" ++ front ++ "!", name)

def shortTag? (handles : Handles) (c : Cursor) : Option (TagMark × Cursor) :=
  let word := (c.rest.drop 1).takeWhile fun u => !isSpaceOrBreak u
  let (handle, name) := splitHandle word
  if !isHandle handle || List.elem ('!' : CodeUnit) name || name.any isFlowMark then none
  else if !name.isEmpty && !isTagText name then none
  else (handles.resolve? handle (unescapedTag name)).map fun tag =>
    (TagMark.ofText tag, c.advanceBy (word.length + 1))

def verbatimTag? (c : Cursor) : Option (TagMark × Cursor) :=
  let inside := c.rest.drop 2
  let name := inside.take 1 ++ (inside.drop 1).takeWhile fun (u : CodeUnit) => u ≠ '>'
  if (inside.drop name.length).isEmpty || !isTagText name then none
  else some (TagMark.ofText (unescapedTag name), c.advanceBy (name.length + 3))

def tag? (handles : Handles) (c : Cursor) : Option (TagMark × Cursor) :=
  if Text.startsWith c.rest "!<" then verbatimTag? c else shortTag? handles c

def anchorName? (c : Cursor) : Option (Text × Cursor) :=
  let name := (c.rest.drop 1).takeWhile fun u => !isSpaceOrBreak u && !isFlowMark u
  if name.isEmpty then none else some (name, c.advanceBy (name.length + 1))

end QueryLint.Yaml
