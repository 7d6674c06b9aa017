import InsecureLinks.Text.Basic

/-!
# Occurrences

Where a needle stands in a line, reading from the left and going on after the end of each
occurrence found.
-/

namespace InsecureLinks.Text

/-- The occurrences of `needle` in the rest of a line that begins at column `column`, once
`skip` characters are passed over. -/
def occurrencesFrom (needle : Text) : (column skip : Nat) → Text → List Nat
  | _, _, [] => []
  | column, skip + 1, _ :: t => occurrencesFrom needle (column + 1) skip t
  | column, 0, c :: t =>
    if needle.isPrefixOf (c :: t) then
      column :: occurrencesFrom needle (column + 1) (needle.length - 1) t
    else occurrencesFrom needle (column + 1) 0 t

/-- The columns, counted from 0, at which the non-empty `needle` occurs in `line`, leftmost
first, each at or after the end of the one before. -/
def occurrences (needle line : Text) : List Nat := occurrencesFrom needle 0 0 line

end InsecureLinks.Text
