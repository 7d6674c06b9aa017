import InsecureLinks.Document.Calendar
import InsecureLinks.Text.DecimalDigit

/-!
# Tags

The kind of a node.  A plain scalar without a tag gets its kind from how it is written: `yes` is a
truth value, `0x1F` an integer, `1.5` a real number, `2001-12-14` a day, and so on; anything else is
a text.
-/

namespace InsecureLinks.Yaml

open Text (isAsciiDigit)

/-- The kind of a node. -/
inductive Tag
  | null
  | bool
  | int
  | real
  | binary
  | moment
  | text
  | list
  | map
  | set
  /-- A list of pairs, with or without an order that matters. -/
  | pairs
  /-- The key `<<`, whose value's entries belong to the map that it is in. -/
  | merge
  /-- The key `=`, whose value stands for the map that it is in. -/
  | default
  | unknown
deriving DecidableEq, Repr

namespace Tag

/-- What all known tags begin with. -/
def common : Text := "tag:yaml.org,2002:".toList

/-- The known tags. -/
def names : List (String × Tag) :=
  [("null", null), ("bool", bool), ("int", int), ("float", real), ("binary", binary),
   ("timestamp", moment), ("str", text), ("seq", list), ("map", map), ("set", set),
   ("omap", pairs), ("pairs", pairs), ("merge", merge), ("value", default)]

/-- The kind that a tag names. -/
def ofName (t : Text) : Tag :=
  match names.find? fun (name, _) => common ++ name.toList = t with
  | some (_, tag) => tag
  | none => unknown

end Tag

/-! ## How numbers are written -/

/-- Whether `c` is a digit or an underscore. -/
def isDigitOrGap (c : Char) : Bool := isAsciiDigit c || c = '_'

/-- A text without the sign that may open it. -/
def dropSign : Text → Text
  | [] => []
  | c :: t => if c = '-' ∨ c = '+' then t else c :: t

/-- Whether `t` is a digit that is followed by digits and underscores. -/
def isDigits : Text → Bool
  | [] => false
  | c :: t => isAsciiDigit c && t.all isDigitOrGap

/-- Whether `t` is a digit but zero that is followed by digits and underscores. -/
def isDigitsWithoutZero (t : Text) : Bool := isDigits t && t.head? ≠ some '0'

/-- Whether `t` can stand after a colon: a number below sixty. -/
def isSixtieth : Text → Bool
  | [c] => isAsciiDigit c
  | [c, d] => '0' ≤ c && c ≤ '5' && isAsciiDigit d
  | _ => false

/-- Whether `t` is a first number and others after colons. -/
def isSexagesimal (isFirst : Text → Bool) (t : Text) : Bool :=
  match Text.fields ':' t with
  | first :: part :: parts => isFirst first && (part :: parts).all isSixtieth
  | _ => false

/-- Whether `t` is written as an integer. -/
def isInteger (t : Text) : Bool :=
  match dropSign t with
  | [] => false
  | '0' :: 'b' :: c :: u => (c :: u).all fun c => c = '0' || c = '1' || c = '_'
  | '0' :: 'x' :: c :: u =>
    (c :: u).all fun c =>
      isDigitOrGap c || ('a' ≤ c && c ≤ 'f') || ('A' ≤ c && c ≤ 'F')
  | '0' :: u => u.all fun c => ('0' ≤ c && c ≤ '7') || c = '_'
  | u => isDigitsWithoutZero u || isSexagesimal isDigitsWithoutZero u

/-- Whether `t` is empty or an exponent with a sign. -/
def isExponent : Text → Bool
  | [] => true
  | e :: s :: c :: t =>
    (e = 'e' || e = 'E') && (s = '-' || s = '+') && (c :: t).all isAsciiDigit
  | _ => false

/-- Whether `t` is written as a real number: with a point, or as one of the special ones. -/
def isReal (t : Text) : Bool :=
  let u := dropSign t
  match Text.cutFirst? '.' u with
  | none => false
  | some ([], part) =>
    ["inf", "Inf", "INF"].any (fun w => part = w.toList) ||
      (u = t && (["nan", "NaN", "NAN"].any (fun w => part = w.toList) ||
        (part.head?.any isAsciiDigit && isExponent (part.dropWhile isDigitOrGap))))
  | some (whole, part) =>
    (isDigits whole && isExponent (part.dropWhile isDigitOrGap)) ||
      (isSexagesimal isDigits whole && part.all isDigitOrGap)

/-! ## How moments are written -/

/-- The number of `least` to `most` digits that come first, and the rest. -/
def cutNumber? (least most : Nat) (t : Text) : Option (Nat × Text) :=
  let digits := (t.take most).takeWhile isAsciiDigit
  if digits.length < least then none else some (Text.value digits, t.drop digits.length)

/-- What remains after the character `c`. -/
def cutChar? (c : Char) : Text → Option Text
  | [] => none
  | d :: t => if d = c then some t else none

/-- Whether `c` is a space or a tab. -/
def isInlineBlank (c : Char) : Bool := c = ' ' || c = '\t'

/-- The number of microseconds that the digits of a fraction denote. -/
def microseconds (digits : Text) : Nat :=
  let shown := digits.take 6
  Text.value (shown ++ List.replicate (6 - shown.length) '0')

/-- The offset that ends a moment: nothing, `Z`, or hours and perhaps minutes. -/
def readOffset? (t : Text) : Option (Option Int) :=
  match t.dropWhile isInlineBlank with
  | [] => if t.isEmpty then some none else none
  | ['Z'] => some (some 0)
  | s :: u =>
    if s ≠ '-' ∧ s ≠ '+' then none
    else do
      let (hours, u) ← cutNumber? 1 2 u
      let minutes ←
        match u with
        | [] => some 0
        | _ => do
          let (n, u) ← cutNumber? 2 2 (← cutChar? ':' u)
          if u.isEmpty then some n else none
      let seconds : Int := ((hours * 60 + minutes) * 60 : Nat)
      return some (if s = '-' then -seconds else seconds)

/-- The time of day that ends a moment. -/
def readClock? (d : Date) (t : Text) : Option Moment := do
  let (hour, t) ← cutNumber? 1 2 t
  let (minute, t) ← cutNumber? 2 2 (← cutChar? ':' t)
  let (second, t) ← cutNumber? 2 2 (← cutChar? ':' t)
  let (fraction, t) :=
    match t with
    | '.' :: u => (u.takeWhile isAsciiDigit, u.dropWhile isAsciiDigit)
    | _ => ([], t)
  return ⟨d, hour, minute, second, microseconds fraction, ← readOffset? t⟩

/-- A day or a moment as it is written, with numbers that need not make one. -/
inductive Written
  | date (d : Date)
  | moment (m : Moment)
deriving DecidableEq, Repr

/-- What separates day and time of day: `T` or blanks. -/
def cutDaySeparator? (t : Text) : Option Text :=
  match t with
  | [] => none
  | c :: u =>
    if c = 'T' ∨ c = 't' then some u
    else if isInlineBlank c then some (u.dropWhile isInlineBlank)
    else none

/-- Reads a day or a moment.  A day alone has two digits for month and day if `isStrict`. -/
def readWritten? (isStrict : Bool) (t : Text) : Option Written := do
  let (year, u) ← cutNumber? 4 4 t
  let (month, u) ← cutNumber? 1 2 (← cutChar? '-' u)
  let (day, u) ← cutNumber? 1 2 (← cutChar? '-' u)
  let d : Date := ⟨year, month, day⟩
  match u with
  | [] => if isStrict ∧ t.length ≠ 10 then none else some (.date d)
  | _ => return .moment (← readClock? d (← cutDaySeparator? u))

/-! ## Plain scalars -/

/-- The plain scalars that mean nothing. -/
def nullWords : List String := ["", "~", "null", "Null", "NULL"]

/-- The truth values in lower case. -/
def truthWords : List (String × Bool) :=
  [("yes", true), ("no", false), ("true", true), ("false", false), ("on", true), ("off", false)]

/-- The truth value that a text denotes, in lower case, upper case, or with a capital. -/
def truthValue? (t : Text) : Option Bool :=
  (truthWords.find? fun (w, _) =>
    t = w.toList ∨ t = w.toList.map Char.toUpper ∨
      t = (w.toList.take 1).map Char.toUpper ++ w.toList.drop 1).map Prod.snd

/-- The kind of a plain scalar. -/
def Tag.ofPlain (t : Text) : Tag :=
  if nullWords.any fun w => t = w.toList then .null
  else if (truthValue? t).isSome then .bool
  else if isReal t then .real
  else if isInteger t then .int
  else if (readWritten? true t).isSome then .moment
  else if t = "<<".toList then .merge
  else if t = "=".toList then .default
  else .text

end InsecureLinks.Yaml
