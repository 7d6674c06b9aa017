import InsecureLinks.Text.Basic

/-!
# Blank characters

The characters that count as white space at the ends of a line, a pattern or a path: the ASCII
controls from tab to carriage return, the four information separators, the space, and the
spaces and separators beyond ASCII.
-/

namespace InsecureLinks.Text

/-- The blank characters, as ranges of codes. -/
def blankRanges : List (Nat × Nat) :=
  [(0x09, 0x0D), (0x1C, 0x20), (0x85, 0x85), (0xA0, 0xA0), (0x1680, 0x1680), (0x2000, 0x200A),
   (0x2028, 0x2029), (0x202F, 0x202F), (0x205F, 0x205F), (0x3000, 0x3000)]

/-- Whether `c` is white space. -/
def isBlank (c : Char) : Bool :=
  blankRanges.any fun (lo, hi) => lo ≤ c.toNat && c.toNat ≤ hi

/-- `t` without the blank characters at its start. -/
def stripLeft (t : Text) : Text := t.dropWhile isBlank

/-- `t` without the blank characters at its end. -/
def stripRight (t : Text) : Text := (t.reverse.dropWhile isBlank).reverse

/-- `t` without the blank characters at either end. -/
def strip (t : Text) : Text := stripRight (stripLeft t)

end InsecureLinks.Text
