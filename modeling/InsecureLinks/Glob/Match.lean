import InsecureLinks.Glob.Pattern

/-!
# Matching

Whether the tokens of a pattern take a whole path.  The tokens are applied from the last to the
first, each turning a row of answers into another: the answer at a place of the path says whether
the tokens so far take everything from there on.  That is one pass over the path for each token,
however the pattern is made.
-/

namespace InsecureLinks.Glob

/-- The answers of a row are for the path and for each of its tails, the last for the empty one. -/
abbrev Row := List Bool

/-- The answer for the path itself. -/
def Row.first (row : Row) : Bool := row.headD false

/-- The row of no tokens: they take only the empty text. -/
def endRow : Text → Row
  | [] => [true]
  | _ :: t => false :: endRow t

/-- The row once one character of `s` stands before. -/
def oneRow (s : CharSet) : Text → Row → Row
  | c :: t, _ :: row => (s.contains c && Row.first row) :: oneRow s t row
  | _, _ => [false]

/-- The row once any number of characters of `s` stand before. -/
def manyRow (s : CharSet) : Text → Row → Row
  | c :: t, b :: row =>
    let rest := manyRow s t row
    (b || (s.contains c && Row.first rest)) :: rest
  | _, row => row

/-- The row once a text without newlines that ends in a slash stands before. -/
def folderRow : Text → Row → Row
  | c :: t, _ :: row =>
    let rest := folderRow t row
    ((c = '/' && Row.first row) || (c ≠ '\n' && Row.first rest)) :: rest
  | _, _ => [false]

/-- The row once a token stands before. -/
def Token.row (path : Text) : Token → Row → Row
  | .one s, row => oneRow s path row
  | .many s, row => manyRow s path row
  | .folders, row => List.zipWith (· || ·) row (folderRow path row)

/-- Whether the tokens take the whole path. -/
def accepts (ts : List Token) (path : Text) : Bool :=
  Row.first (ts.foldr (Token.row path) (endRow path))

/-! ## Lists of patterns -/

/-- Whether some pattern takes the path.  The patterns are read in order, and one that comes after
a match is not read at all. -/
def matchesAny : List Text → Text → Except Error Bool
  | [], _ => .ok false
  | p :: ps, path => do
    let ts ← parse p
    if accepts ts path then return true else matchesAny ps path

/-- The pattern of the folders whose whole content `pattern` excludes, if it is of that kind: it
ends in `/**` and has something before. -/
def subtreePattern? (pattern : Text) : Option Text :=
  let p := Text.replaceChar '\\' '/' pattern.strip
  if Text.endsWith "/**".toList p ∧ 3 < p.length then some (p.take (p.length - 3)) else none

/-- The tokens of the folders whose whole content some pattern excludes. -/
def subtrees (patterns : List Text) : Except Error (List (List Token)) :=
  (patterns.filterMap subtreePattern?).mapM parse

end InsecureLinks.Glob
