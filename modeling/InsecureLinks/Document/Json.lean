import InsecureLinks.Document.Value

/-!
# JSON

A document is written on one line in ASCII characters, everything else in a text being escaped.
Reading takes every JSON text, with blanks wherever they may stand, and three words for the real
numbers that are not finite.  Of entries with one key the last counts.

Values of kinds that JSON does not have are written as `null`.  Half a surrogate pair is no
character, so a text with one is not read.
-/

namespace InsecureLinks.Json

open Literal (cutSign digitBelow? maxDigits nearest)
open Text (isAsciiDigit)

/-! ## Writing -/

/-- Characters, and the letters that stand for them after a backslash. -/
def letters : List (Char × Char) :=
  [('"', '"'), ('\\', '\\'), (Char.ofNat 8, 'b'), (Char.ofNat 9, 't'), (Char.ofNat 10, 'n'),
    (Char.ofNat 12, 'f'), (Char.ofNat 13, 'r')]

/-- An escaped code unit. -/
def unitText (n : Nat) : Text := '\\' :: 'u' :: Text.hexadecimal 4 n

/-- The first code units of pairs, and the second ones. -/
def firstHigh : Nat := 0xD800
def firstLow : Nat := 0xDC00

/-- How many code units of either kind there are. -/
def halfCount : Nat := 0x400

/-- The first character that takes a pair of code units. -/
def firstPaired : Nat := 0x10000

/-- A character in quotes. -/
def quotedChar (c : Char) : Text :=
  match letters.find? fun (d, _) => d = c with
  | some (_, letter) => ['\\', letter]
  | none =>
    if 0x20 ≤ c.toNat ∧ c.toNat < 0x7F then [c]
    else if c.toNat < firstPaired then unitText c.toNat
    else
      let n := c.toNat - firstPaired
      unitText (firstHigh + n / halfCount) ++ unitText (firstLow + n % halfCount)

/-- A text in quotes. -/
def quoted (t : Text) : Text := '"' :: t.flatMap quotedChar ++ ['"']

/-- A real number as text. -/
def realText : Binary64 → Text
  | .undefined => "NaN".toList
  | .infinite n => Decimal.signText n ++ "Infinity".toList
  | x => Decimal.shortest x

mutual

/-- A document as text. -/
def text : Value → Text
  | .null => "null".toList
  | .bool true => "true".toList
  | .bool false => "false".toList
  | .int i => Text.integer i
  | .real x => realText x
  | .text t => quoted t
  | .list xs => '[' :: Text.join ", ".toList (texts xs) ++ [']']
  | .tuple xs => '[' :: Text.join ", ".toList (texts xs) ++ [']']
  | .map entries => '\x7b' :: Text.join ", ".toList (entryTexts entries) ++ ['\x7d']
  | _ => "null".toList

/-- Documents as texts. -/
def texts : List Value → List Text
  | [] => []
  | x :: xs => text x :: texts xs

/-- Keys and values as texts.  A key that is no text is put in quotes. -/
def entryTexts : List (Value × Value) → List Text
  | [] => []
  | (.text t, x) :: rest => (quoted t ++ ": ".toList ++ text x) :: entryTexts rest
  | (k, x) :: rest => (quoted (text k) ++ ": ".toList ++ text x) :: entryTexts rest

end

/-! ## Reading texts -/

/-- Whether a character is a blank between parts. -/
def isSpace (c : Char) : Bool := c = ' ' || c = '\t' || c = '\n' || c = '\r'

/-- The text from its first character that is no blank. -/
def skip (t : Text) : Text := t.dropWhile isSpace

/-- The code unit that four digits of base sixteen denote, and what follows. -/
def unit? : Text → Option (Nat × Text)
  | a :: b :: c :: d :: t => do
    let n ← [a, b, c, d].foldlM (fun n c => do return n * 16 + (← digitBelow? 16 c)) 0
    return (n, t)
  | _ => none

/-- The character that a first code unit begins, and what follows. -/
def fromUnit? (n : Nat) (t : Text) : Option (Char × Text) :=
  if n < firstHigh ∨ firstLow + halfCount ≤ n then some (Char.ofNat n, t)
  else if firstLow ≤ n then none
  else
    match t with
    | '\\' :: 'u' :: t => do
      let (k, t) ← unit? t
      if k < firstLow ∨ firstLow + halfCount ≤ k then none
      else
        some (Char.ofNat (firstPaired + (n - firstHigh) * halfCount + (k - firstLow)), t)
    | _ => none

/-- The character that is written after a backslash, and what follows. -/
def escaped? : Text → Option (Char × Text)
  | [] => none
  | 'u' :: t => do
    let (n, t) ← unit? t
    fromUnit? n t
  | '/' :: t => some ('/', t)
  | c :: t => (letters.find? fun (_, letter) => letter = c).map fun (d, _) => (d, t)

/-- The first character of a text in quotes, and what follows. -/
def char? : Text → Option (Char × Text)
  | [] => none
  | '\\' :: t => escaped? t
  | c :: t => if c.toNat < 0x20 then none else some (c, t)

/-- The text up to the quote that ends it, and what follows.  Every character takes some place, so
`fuel` is enough if it is more than there are characters. -/
def untilQuote? : (fuel : Nat) → Text → Option (Text × Text)
  | 0, _ => none
  | _ + 1, '"' :: t => some ([], t)
  | fuel + 1, t => do
    let (c, t) ← char? t
    let (u, t) ← untilQuote? fuel t
    return (c :: u, t)

/-! ## Reading numbers -/

/-- The digits that come next, and what follows them. -/
def cutDigits (t : Text) : Text × Text :=
  let digits := t.takeWhile isAsciiDigit
  (digits, t.drop digits.length)

/-- The digits of a whole number that come next: a zero stands alone. -/
def cutWhole (t : Text) : Text × Text :=
  match t with
  | '0' :: t => (['0'], t)
  | t => cutDigits t

/-- The digits after a point that comes next. -/
def cutPart (t : Text) : Text × Text :=
  match t with
  | '.' :: u => if (cutDigits u).1.isEmpty then ([], t) else cutDigits u
  | _ => ([], t)

/-- The exponent that comes next, if there is one. -/
def cutExponent (t : Text) : Option Int × Text :=
  match t with
  | [] => (none, t)
  | c :: u =>
    let (negative, v) := cutSign u
    let (digits, rest) := cutDigits v
    if (c = 'e' ∨ c = 'E') ∧ !digits.isEmpty then
      let n : Int := (Text.value digits : Nat)
      (some (if negative then -n else n), rest)
    else (none, t)

/-- The number without a sign that comes next, negated if `negative`, and what follows: a whole
number if it has neither a point nor an exponent. -/
def unsigned? (negative : Bool) (t : Text) : Option (Value × Text) :=
  let (whole, t) := cutWhole t
  let (part, t) := cutPart t
  let (exponent, t) := cutExponent t
  if whole.isEmpty then none
  else if part.isEmpty && exponent.isNone then
    if maxDigits < whole.length then none
    else
      let n : Int := (Text.value whole : Nat)
      some (.int (if negative then -n else n), t)
  else some (.real (nearest negative (whole ++ part) (exponent.getD 0 - (part.length : Int))), t)

/-- The number that comes next, and what follows. -/
def number? : Text → Option (Value × Text)
  | '-' :: t => unsigned? true t
  | t => unsigned? false t

/-! ## Reading documents -/

/-- The words that are documents. -/
def words : List (Text × Value) :=
  [("null".toList, .null), ("true".toList, .bool true), ("false".toList, .bool false),
    ("NaN".toList, .real .undefined), ("Infinity".toList, .real (.infinite false)),
    ("-Infinity".toList, .real (.infinite true))]

/-- The word or number that comes next, and what follows. -/
def plain? (t : Text) : Option (Value × Text) :=
  match words.find? fun (word, _) => word.isPrefixOf t with
  | some (word, x) => some (x, t.drop word.length)
  | none => number? t

/-- The entries as a map has them. -/
def mapOf (entries : List (Text × Value)) : Value :=
  .map (entries.foldl (fun es (k, x) => Value.setEntry (.text k) x es) [])

mutual

/-- The document that comes next, and what follows.  `fuel` is enough if it is the length of the
text. -/
def value? : (fuel : Nat) → Text → Option (Value × Text)
  | 0, _ => none
  | _ + 1, '"' :: t => do
    let (u, t) ← untilQuote? (t.length + 1) t
    return (.text u, t)
  | fuel + 1, '[' :: t =>
    match skip t with
    | ']' :: t => some (.list [], t)
    | t => do
      let (xs, t) ← elements? fuel t
      return (.list xs, t)
  | fuel + 1, '\x7b' :: t =>
    match skip t with
    | '\x7d' :: t => some (.map [], t)
    | t => do
      let (entries, t) ← entries? fuel t
      return (mapOf entries, t)
  | _ + 1, t => plain? t

/-- The documents up to the bracket that ends a list, and what follows. -/
def elements? : (fuel : Nat) → Text → Option (List Value × Text)
  | 0, _ => none
  | fuel + 1, t => do
    let (x, t) ← value? fuel t
    match skip t with
    | ']' :: t => return ([x], t)
    | ',' :: t =>
      let (xs, t) ← elements? fuel (skip t)
      return (x :: xs, t)
    | _ => none

/-- The keys and documents up to the brace that ends a map, and what follows. -/
def entries? : (fuel : Nat) → Text → Option (List (Text × Value) × Text)
  | 0, _ => none
  | fuel + 1, '"' :: t => do
    let (k, t) ← untilQuote? (t.length + 1) t
    match skip t with
    | ':' :: t =>
      let (x, t) ← value? fuel (skip t)
      match skip t with
      | '\x7d' :: t => return ([(k, x)], t)
      | ',' :: t =>
        let (entries, t) ← entries? fuel (skip t)
        return ((k, x) :: entries, t)
      | _ => none
    | _ => none
  | _ + 1, _ => none

end

/-- The document that a text is. -/
def read (t : Text) : Option Value :=
  match value? (t.length + 1) (skip t) with
  | some (x, rest) => if (skip rest).isEmpty then some x else none
  | none => none

end InsecureLinks.Json
