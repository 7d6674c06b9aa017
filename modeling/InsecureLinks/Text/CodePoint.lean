import InsecureLinks.Text.Blank

/-!
# Code points

A text from outside need not consist of characters: a name that is no UTF-8 is read with a
surrogate for each byte that does not fit.  A raw text is a list of code points, whether they are
characters or surrogates.
-/

namespace InsecureLinks

/-- A code point: the code of a character, or a surrogate. -/
abbrev CodePoint := Fin 0x110000

namespace CodePoint

theorem toNat_lt (c : Char) : c.toNat < 0x110000 := by
  rcases c.valid with h | ⟨-, h⟩
  · exact Nat.lt_trans h (by decide)
  · exact h

/-- The code of a character. -/
def ofChar (c : Char) : CodePoint := ⟨c.toNat, toNat_lt c⟩

/-- Whether a code point is white space. -/
def isBlank (c : CodePoint) : Bool :=
  Text.blankRanges.any fun (lo, hi) => lo ≤ c.val && c.val ≤ hi

end CodePoint

/-- A sequence of code points. -/
abbrev RawText := List CodePoint

namespace RawText

/-- The codes of the characters of a text. -/
def ofText (t : Text) : RawText := t.map CodePoint.ofChar

/-- `t` without the blank code points at either end. -/
def strip (t : RawText) : RawText :=
  ((t.dropWhile CodePoint.isBlank).reverse.dropWhile CodePoint.isBlank).reverse

end RawText

end InsecureLinks
