import InsecureLinks.Text.Basic

/-!
# Spots

The characters of a YAML stream with their lines and columns.  Indentation decides what belongs
together, so a reader goes through spots and not through plain characters.  A last spot with the
character zero stands for the end of the stream, which holds no such character itself.
-/

namespace InsecureLinks.Yaml

/-- A character with its line and column and its number in the stream, all counted from 0. -/
structure Spot where
  char : Char
  line : Nat
  column : Nat
  index : Nat
deriving DecidableEq, Repr

/-- What is left of a stream. -/
abbrev Spots := List Spot

/-- The character of the last spot. -/
def endChar : Char := Char.ofNat 0

/-! ## Kinds of characters -/

/-- Whether `c` breaks a line. -/
def isBreak (c : Char) : Bool :=
  c = '\n' || c.toNat = 0x85 || c.toNat = 0x2028 || c.toNat = 0x2029

/-- What a line break contributes to a scalar: a line feed, unless it is one of the two separators
beyond Latin. -/
def breakText (c : Char) : Text := if c = '\n' || c.toNat = 0x85 then ['\n'] else [c]

/-- Whether a line is over at `c`. -/
def endsLine (c : Char) : Bool := c = endChar || isBreak c

/-- Whether `c` is a space or a tab. -/
def isSpaceOrTab (c : Char) : Bool := c = ' ' || c = '\t'

/-- Whether an indicator before `c` stands alone. -/
def separates (c : Char) : Bool := isSpaceOrTab c || endsLine c

/-- Whether `c` can be in the name of an anchor, a directive or a handle. -/
def isNameChar (c : Char) : Bool :=
  (48 ≤ c.toNat && c.toNat ≤ 57) || (65 ≤ c.toNat && c.toNat ≤ 90) ||
    (97 ≤ c.toNat && c.toNat ≤ 122) || c = '-' || c = '_'

/-- Whether a stream can hold `c`. -/
def isAllowed (c : Char) : Bool :=
  let n := c.toNat
  n = 0x09 || n = 0x0A || n = 0x0D || (0x20 ≤ n && n ≤ 0x7E) || n = 0x85 ||
    (0xA0 ≤ n && n ≤ 0xD7FF) || (0xE000 ≤ n && n ≤ 0xFFFD) || 0x10000 ≤ n

/-- The byte order mark, which takes no column. -/
def markChar : Char := Char.ofNat 0xFEFF

/-! ## Spots of a text -/

/-- The spots of a text that begins at a place. -/
def spotsFrom (line column index : Nat) : Text → Spots
  | [] => [⟨endChar, line, column, index⟩]
  | c :: t =>
    ⟨c, line, column, index⟩ ::
      (if isBreak c then spotsFrom (line + 1) 0 (index + 1) t
       else spotsFrom line (if c = markChar then column else column + 1) (index + 1) t)

/-- The spots of a text. -/
def spots (t : Text) : Spots := spotsFrom 0 0 0 t

namespace Spots

/-- The next spot. -/
def next (s : Spots) : Spot := s.headD ⟨endChar, 0, 0, 0⟩

/-- The spots after the first `k`. -/
def drop (s : Spots) (k : Nat) : Spots := List.drop k s

/-- The character `k` spots ahead. -/
def peek (s : Spots) (k : Nat) : Char := (s.drop k).next.char

/-- The next character. -/
def char (s : Spots) : Char := s.next.char

/-- The column of the next character. -/
def column (s : Spots) : Nat := s.next.column

/-- The characters up to the first without a property, and the spots from there on. -/
def cut (p : Char → Bool) (s : Spots) : Text × Spots :=
  ((s.takeWhile fun x => p x.char).map Spot.char, s.dropWhile fun x => p x.char)

/-- The spots from the first without a property on. -/
def skip (p : Char → Bool) (s : Spots) : Spots := s.dropWhile fun x => p x.char

/-- The spots after the spaces and the comment that may come next on the line. -/
def skipComment (s : Spots) : Spots :=
  let s := s.skip (· = ' ')
  if s.char = '#' then s.skip fun c => !endsLine c else s

/-- The text of the line break that may come next, and the spots after it. -/
def cutBreak : Spots → Text × Spots
  | [] => ([], [])
  | x :: s => if isBreak x.char then (breakText x.char, s) else ([], x :: s)

/-- Whether three equal marks `c` come next and stand alone. -/
def isMarkers (c : Char) (s : Spots) : Bool :=
  s.peek 0 = c && s.peek 1 = c && s.peek 2 = c && separates (s.peek 3)

/-- Whether something that separates documents comes next. -/
def isDocumentMarker (s : Spots) : Bool := s.isMarkers '-' || s.isMarkers '.'

end Spots

end InsecureLinks.Yaml
