import InsecureLinks.Text.Blank
import InsecureLinks.Text.DecimalDigit
import InsecureLinks.Text.Quoted
import InsecureLinks.Number.Decimal

/-!
# Number literals

Reading a number that a person wrote in a setting or an option.  Blanks around the literal are
ignored, the digits may be those of any script, and single underscores may stand between digits.
-/

namespace InsecureLinks.Literal

open Text (isAsciiDigit)

/-- The most digits that a literal in base ten may have. -/
def maxDigits : Nat := 4300

/-- Why a literal is no number.  A literal is given as it is quoted. -/
inductive Fault
  | notInteger (base : Nat) (quoted : Text)
  | notReal (quoted : Text)
  | tooManyDigits (count : Nat)
deriving DecidableEq, Repr

/-- The wording of a fault.  A literal that is no integer is shown up to two hundred
characters. -/
def Fault.message : Fault → Text
  | .notInteger base quoted =>
    "invalid literal for int() with base ".toList ++ Text.natural base ++ ": ".toList ++
      quoted.take 200
  | .notReal quoted => "could not convert string to float: ".toList ++ quoted
  | .tooManyDigits count =>
    "Exceeds the limit (".toList ++ Text.natural maxDigits ++
      " digits) for integer string conversion: value has ".toList ++ Text.natural count ++
      " digits; use sys.set_int_max_str_digits() to increase the limit".toList

/-- A character of a literal in its ASCII form: a digit of any script as the ASCII digit, a blank
beyond ASCII as a space. -/
def plainChar (c : Char) : Char :=
  if c.toNat < 0x80 then c
  else if Text.isBlank c then ' '
  else match Text.digitValue? c with
    | some d => Text.digit d
    | none => c

/-- The blanks that may surround a literal. -/
def isMargin (c : Char) : Bool := c = ' ' || (9 ≤ c.toNat && c.toNat ≤ 13)

/-- A text without the blanks around it. -/
def withoutMargins (t : Text) : Text :=
  (t.dropWhile isMargin |>.reverse.dropWhile isMargin).reverse

/-- A literal in ASCII form without the blanks around it. -/
def plain (t : Text) : Text := withoutMargins (t.map plainChar)

/-- The sign that may open a literal, and the rest. -/
def cutSign : Text → Bool × Text
  | '-' :: t => (true, t)
  | '+' :: t => (false, t)
  | t => (false, t)

/-- Whether every underscore in `t` stands between two digits, `previous` being what precedes
`t`. -/
def underscoresBetweenDigits (previous : Char) : Text → Bool
  | [] => previous ≠ '_'
  | c :: t =>
    (if c = '_' then isAsciiDigit previous else previous ≠ '_' || isAsciiDigit c) &&
      underscoresBetweenDigits c t

/-! ## Integers -/

/-- Reads an integer in base ten that is in ASCII form. -/
def plainInteger (quoted t : Text) : Except Fault Int :=
  let (negative, t) := cutSign t
  let run := t.takeWhile fun c => isAsciiDigit c || c = '_'
  let digits := run.filter isAsciiDigit
  if run.isEmpty || !underscoresBetweenDigits ' ' run then .error (.notInteger 10 quoted)
  else if maxDigits < digits.length then .error (.tooManyDigits digits.length)
  else if run.length < t.length then .error (.notInteger 10 quoted)
  else
    let n : Int := (Text.value digits : Nat)
    .ok (if negative then -n else n)

/-- Reads an integer in base ten. -/
def readInteger (literal : Text) : Except Fault Int := plainInteger literal.quoted (plain literal)

/-- The value of a digit that is below `base`. -/
def digitBelow? (base : Nat) (c : Char) : Option Nat :=
  let n := c.toNat
  let value? :=
    if 48 ≤ n ∧ n ≤ 57 then some (n - 48)
    else if 97 ≤ n ∧ n ≤ 102 then some (n - 87)
    else if 65 ≤ n ∧ n ≤ 70 then some (n - 55)
    else none
  value?.filter (· < base)

/-- A base that is a power of two. -/
inductive Base
  | two
  | eight
  | sixteen
deriving DecidableEq, Repr

/-- The base as a number. -/
def Base.number : Base → Nat
  | two => 2
  | eight => 8
  | sixteen => 16

/-- The letter that follows a zero where the base is marked. -/
def Base.letter : Base → Char
  | two => 'b'
  | eight => 'o'
  | sixteen => 'x'

/-- Digits without the mark of their base, if it is there. -/
def Base.cutMark (base : Base) : Text → Text
  | '0' :: c :: t => if c.toLower = base.letter then t else '0' :: c :: t
  | t => t

/-- Reads an integer without underscores in a base that is a power of two.  The base may be marked,
and there is no limit on the digits. -/
def readIntegerIn (base : Base) (literal : Text) : Except Fault Int :=
  let (negative, t) := cutSign (plain literal)
  let digits := base.cutMark t
  let value? :=
    digits.foldl (fun n c => do return (← n) * base.number + (← digitBelow? base.number c)) (some 0)
  match value? with
  | some n =>
    if digits.isEmpty then .error (.notInteger base.number literal.quoted)
    else .ok (if negative then -(n : Int) else n)
  | none => .error (.notInteger base.number literal.quoted)

/-! ## Reals -/

/-- The number nearest to `digits * 10 ^ place`.  Far outside the range of double precision
numbers the power is not computed. -/
def nearest (negative : Bool) (digits : Text) (place : Int) : Binary64 :=
  let n := Text.value digits
  if n = 0 then .finite negative 0 Binary64.leastExponent
  else
    let top := place + (Decimal.digitCount n : Int)
    if 400 < top then .infinite negative
    else if top < -400 then .finite negative 0 Binary64.leastExponent
    else Decimal.toBinary negative n place

/-- The exponent of ten that ends a literal; none if what is left is no exponent. -/
def readExponent? : Text → Option Int
  | [] => some 0
  | c :: t =>
    if c = 'e' ∨ c = 'E' then
      let (negative, digits) := cutSign t
      if digits.isEmpty || !digits.all isAsciiDigit then none
      else
        let n : Int := (Text.value (digits.dropWhile (· = '0')) : Nat)
        some (if negative then -n else n)
    else none

/-- Reads digits with an optional point and an optional exponent. -/
def readDecimal? (negative : Bool) (t : Text) : Option Binary64 :=
  let whole := t.takeWhile isAsciiDigit
  let rest := t.drop whole.length
  let (part, rest) :=
    match rest with
    | '.' :: u => let part := u.takeWhile isAsciiDigit; (part, u.drop part.length)
    | _ => ([], rest)
  if whole.isEmpty && part.isEmpty then none
  else (readExponent? rest).map fun e => nearest negative (whole ++ part) (e - (part.length : Int))

/-- Reads a real number that is in ASCII form: a decimal fraction with an optional exponent, an
infinity, or the undefined number. -/
def plainReal (quoted t : Text) : Except Fault Binary64 :=
  if !underscoresBetweenDigits ' ' t then .error (.notReal quoted)
  else
    let (negative, t) := cutSign (t.filter (· ≠ '_'))
    let word := Text.lowerAscii t
    if word = "inf".toList ∨ word = "infinity".toList then .ok (.infinite negative)
    else if word = "nan".toList then .ok .undefined
    else match readDecimal? negative t with
      | some x => .ok x
      | none => .error (.notReal quoted)

/-- Reads a real number. -/
def readReal (literal : Text) : Except Fault Binary64 := plainReal literal.quoted (plain literal)

end InsecureLinks.Literal
