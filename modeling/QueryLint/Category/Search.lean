import QueryLint.Category.Index

/-!
Finding categories by a word.

A keyword counts for the categories it leads to when it contains the word or the word contains it: two
points when they are equal, one otherwise. A category whose name contains the word gets three points
when they are equal, two otherwise. Categories are ranked by points, then by name, in whatever order names are compared.
-/

namespace QueryLint
set_option autoImplicit false

structure SearchResult where
  name : Text
  title : Text
  platforms : List Text
  relevance : Nat
  languages : List Text
deriving DecidableEq, Repr

namespace CategoryIndex

def keywordPoints (index : CategoryIndex) (word : Text) : List (Text × Nat) :=
  index.keywords.flatMap fun (keyword, names) =>
    if Text.contains keyword word || Text.contains word keyword then
      names.map fun name => (name, if keyword = word then 2 else 1)
    else []

def namePoints (index : CategoryIndex) (word : Text) : List (Text × Nat) :=
  (Record.keys index.categories).filterMap fun name =>
    let lower := Text.lower name
    if Text.contains lower word then some (name, if lower = word then 3 else 2) else none

/-- The sum of the points for each name, in order of first mention. -/
def total (points : List (Text × Nat)) : Record Nat :=
  points.foldl (fun sums p => Record.set p.1 ((Record.get? sums p.1).getD 0 + p.2) sums) []

def ranksBefore (compare : Text → Text → Ordering) (a b : Text × Nat) : Bool :=
  b.2 < a.2 || (a.2 = b.2 && compare a.1 b.1 != .gt)

def searchWord (query : Text) : Text := Text.trim (Text.lower query)

/-- All categories that a query finds, with their points, best first. An empty query finds none. -/
def ranking (index : CategoryIndex) (compare : Text → Text → Ordering) (query : Text) : List (Text × Nat) :=
  let word := searchWord query
  if word.isEmpty then []
  else (total (index.keywordPoints word ++ index.namePoints word)).mergeSort (ranksBefore compare)

def result (index : CategoryIndex) (hit : Text × Nat) : SearchResult :=
  match Record.get? index.categories hit.1 with
  | none => ⟨hit.1, [], [], hit.2, []⟩
  | some entry => ⟨hit.1, entry.title, entry.platforms, hit.2, Record.keys entry.languages⟩

/-- How many results are shown when nothing else is asked for. -/
def defaultLimit : Number := 10

/-- How many of `count` items a limit leaves: its whole part; where that is negative, all but so many of
the last ones. -/
def kept (limit : Number) (count : Nat) : Nat :=
  match limit with
  | .nan => 0
  | .infinite negative => if negative then 0 else count
  | .finite negative m =>
    let whole := m.floor.toNat
    if negative && whole ≠ 0 then count - whole else min whole count

def search (index : CategoryIndex) (compare : Text → Text → Ordering) (query : Text) (limit : Number) :
    List SearchResult :=
  let hits := index.ranking compare query
  (hits.take (kept limit hits.length)).map index.result

end CategoryIndex

namespace SearchResult

def toJson (r : SearchResult) : Json :=
  .object [("categoryName", .text r.name), ("title", .text r.title), ("platforms", .texts r.platforms),
    ("relevance", .ofNat r.relevance), ("languages", .texts r.languages)]

end SearchResult
end QueryLint
