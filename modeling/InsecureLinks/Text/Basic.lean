/-!
# Text

A text is the list of its characters.  Positions, columns and lengths therefore count
characters, and the order of texts is the order of their character codes.

A text holds no surrogates, so names and arguments are taken to be UTF-8.  What is written for
names that are not is said of `RawText`, whose code points may be surrogates.
-/

namespace InsecureLinks

/-- A sequence of characters. -/
abbrev Text := List Char

namespace Text

/-- The lists of `ts` in order, with `sep` between neighbours. -/
def join {α : Type} (sep : List α) : List (List α) → List α
  | [] => []
  | [t] => t
  | t :: u :: ts => t ++ sep ++ join sep (u :: ts)

/-- The fields of a list between occurrences of `sep`; there is always one. -/
def fields {α : Type} [DecidableEq α] (sep : α) : List α → List (List α)
  | [] => [[]]
  | c :: t =>
    if c = sep then [] :: fields sep t
    else match fields sep t with
      | [] => [[c]]
      | f :: fs => (c :: f) :: fs

/-- `t` with every `old` replaced by `new`. -/
def replaceChar (old new : Char) (t : Text) : Text :=
  t.map fun c => if c = old then new else c

/-- What remains of `t` after `start`, if `t` begins with it. -/
def dropPrefix? (start : Text) (t : Text) : Option Text :=
  if start.isPrefixOf t then some (t.drop start.length) else none

/-- Whether `t` ends in `tail`. -/
def endsWith (tail t : Text) : Bool := tail.isSuffixOf t

/-- The text before the last `sep` and the text after it, if there is a `sep`. -/
def cutLast? (sep : Char) : Text → Option (Text × Text)
  | [] => none
  | c :: t =>
    match cutLast? sep t with
    | some (a, b) => some (c :: a, b)
    | none => if c = sep then some ([], t) else none

/-- The text before the first `sep` and the text after it, if there is a `sep`. -/
def cutFirst? (sep : Char) : Text → Option (Text × Text)
  | [] => none
  | c :: t =>
    if c = sep then some ([], t)
    else (cutFirst? sep t).map fun (a, b) => (c :: a, b)

/-- Earlier in the order of character codes. -/
def before (s t : Text) : Bool :=
  match s, t with
  | _, [] => false
  | [], _ :: _ => true
  | a :: s, b :: t => if a.toNat = b.toNat then before s t else decide (a.toNat < b.toNat)

/-- An ASCII upper case letter made lower case; any other character as it is. -/
def lowerAscii (t : Text) : Text := t.map Char.toLower

/-! ## Numerals -/

/-- The digit `d`, which is below sixteen, in lower case. -/
def digit (d : Nat) : Char :=
  if d < 10 then Char.ofNat (48 + d) else Char.ofNat (87 + d)

/-- The decimal numeral of `n`, without leading zeros. -/
def natural (n : Nat) : Text :=
  if n < 10 then [digit n] else natural (n / 10) ++ [digit (n % 10)]

/-- The decimal numeral of `i`, with a minus sign where it is negative.  It is there for every
number; a program that writes one is held to a limit (`Numeral.write`). -/
def integer (i : Int) : Text :=
  if i < 0 then '-' :: natural i.natAbs else natural i.natAbs

/-- The last `width` digits of `n` in base sixteen. -/
def hexadecimal : (width n : Nat) → Text
  | 0, _ => []
  | width + 1, n => hexadecimal width (n / 16) ++ [digit (n % 16)]

/-- `t` with `pad` put before it until it is `width` characters long. -/
def padLeft (pad : Char) (width : Nat) (t : Text) : Text :=
  List.replicate (width - t.length) pad ++ t

end Text

end InsecureLinks
