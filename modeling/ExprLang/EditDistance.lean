/-!
# Edit distance

The Levenshtein distance between two texts, computed row by row over prefixes of the second
one. Only the last finished row is kept.
-/
namespace ExprLang.EditDistance

/-- The rest of a row for the character `c`: each cell takes the cheapest of an insertion, a
deletion and a substitution, the last one free where the characters agree. -/
def extendRow (c : Char) : Nat → List Char → List Nat → List Nat
  | left, p :: ps, diagonal :: above :: rest =>
      let cell := min (min (above + 1) (left + 1)) (diagonal + if c = p then 0 else 1)
      cell :: extendRow c cell ps (above :: rest)
  | _, _, _ => []

def nextRow (t : List Char) (row : List Nat) (c : Char) : List Nat :=
  match row with
  | [] => []
  | corner :: _ => (corner + 1) :: extendRow c (corner + 1) t row

/-- The last row of the table, one cell for each prefix of `t`. -/
def lastRow (s t : List Char) : List Nat :=
  s.foldl (nextRow t) (List.range (t.length + 1))

/-- The rows run along the shorter text. -/
def distance (s t : List Char) : Nat :=
  if s.length < t.length then (lastRow t s).getLastD 0 else (lastRow s t).getLastD 0

end ExprLang.EditDistance
