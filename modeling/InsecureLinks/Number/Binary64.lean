/-!
# Double precision numbers

A double precision number as a sign, a significand and a power of two, with the infinities and
the undefined number apart.  Every operation is computed exactly on natural numbers and rounded
once, to the nearest number and from halfway to the even significand, so nothing here depends on
the machine's own arithmetic.
-/

namespace InsecureLinks

/-- A double precision number.  `finite n m e` is `m * 2 ^ e`, negated if `n`. -/
inductive Binary64
  | finite (negative : Bool) (significand : Nat) (exponent : Int)
  | infinite (negative : Bool)
  | undefined
deriving DecidableEq, Repr, Inhabited

namespace Binary64

/-- The exponent of the smallest numbers. -/
def leastExponent : Int := -1074

/-- The exponent of the largest numbers. -/
def greatestExponent : Int := 971

/-- One more than the number of bits after the first of a full significand. -/
def significandBits : Nat := 53

/-- The quotient of `num` and `den`, rounded to the nearest natural number and from halfway to
the even one. -/
def roundQuotient (num den : Nat) : Nat :=
  let q := num / den
  let r := num % den
  if 2 * r < den then q
  else if den < 2 * r then q + 1
  else if q % 2 = 0 then q else q + 1

/-- `num / (den * 2 ^ e)` as a quotient of natural numbers. -/
def scaled (num den : Nat) (e : Int) : Nat × Nat :=
  if 0 ≤ e then (num, den <<< e.toNat) else (num <<< (-e).toNat, den)

/-- The exponent at which `num / den` has a significand of full length, or the least one. -/
def exponentOf (num den : Nat) : Int :=
  let guess : Int := (num.log2 : Int) - (den.log2 : Int) - 52
  let (n, d) := scaled num den guess
  max leastExponent (if n < d <<< 52 then guess - 1 else guess)

/-- The number nearest to `num / den`, negated if `negative`. -/
def ofQuotient (negative : Bool) (num den : Nat) : Binary64 :=
  if num = 0 then finite negative 0 leastExponent
  else
    let e := exponentOf num den
    let (n, d) := scaled num den e
    let m := roundQuotient n d
    let (m, e) := if m = 1 <<< significandBits then (m / 2, e + 1) else (m, e)
    if greatestExponent < e then infinite negative else finite negative m e

/-- The number nearest to an integer. -/
def ofInt (i : Int) : Binary64 := ofQuotient (i < 0) i.natAbs 1

/-- The number zero. -/
def zero : Binary64 := finite false 0 leastExponent

/-- The size of `m * 2 ^ e` as a quotient of natural numbers. -/
def quotient (m : Nat) (e : Int) : Nat × Nat :=
  if 0 ≤ e then (m <<< e.toNat, 1) else (m, 1 <<< (-e).toNat)

/-- The number with its sign turned round. -/
def neg : Binary64 → Binary64
  | finite n m e => finite (!n) m e
  | infinite n => infinite (!n)
  | undefined => undefined

/-- `m * 2 ^ e`, negated if `n`, in units of the least exponent. -/
def units (n : Bool) (m : Nat) (e : Int) : Int :=
  let size : Int := ((m <<< (e - leastExponent).toNat : Nat) : Int)
  if n then -size else size

/-- Whether `x` is less than `y`. -/
def lt : Binary64 → Binary64 → Bool
  | undefined, _ => false
  | _, undefined => false
  | infinite a, infinite b => a && !b
  | infinite a, finite .. => a
  | finite .., infinite b => !b
  | finite a m e, finite b k f => units a m e < units b k f

/-- Whether `x` and `y` are equal as numbers; the two zeros are, the undefined number is not equal
to itself. -/
def same : Binary64 → Binary64 → Bool
  | undefined, _ => false
  | _, undefined => false
  | infinite a, infinite b => a == b
  | infinite _, finite .. => false
  | finite .., infinite _ => false
  | finite a m e, finite b k f => units a m e = units b k f

/-- The difference, rounded. -/
def sub : Binary64 → Binary64 → Binary64
  | undefined, _ => undefined
  | _, undefined => undefined
  | infinite a, infinite b => if a = b then undefined else infinite a
  | infinite a, finite .. => infinite a
  | finite .., infinite b => infinite (!b)
  | finite a m e, finite b k f =>
    let d := units a m e - units b k f
    if d = 0 then finite (a && !b) 0 leastExponent
    else ofQuotient (d < 0) d.natAbs (1 <<< (-leastExponent).toNat)

/-- The sum, rounded. -/
def add (x y : Binary64) : Binary64 := sub x (neg y)

/-- The product with a natural number, rounded. -/
def timesNat (k : Nat) : Binary64 → Binary64
  | undefined => undefined
  | infinite a => if k = 0 then undefined else infinite a
  | finite a m e => let (n, d) := quotient m e; ofQuotient a (k * n) d

/-- The product, rounded. -/
def mul : Binary64 → Binary64 → Binary64
  | undefined, _ => undefined
  | _, undefined => undefined
  | infinite a, infinite b => infinite (a != b)
  | infinite a, finite b k _ => if k = 0 then undefined else infinite (a != b)
  | finite a m _, infinite b => if m = 0 then undefined else infinite (a != b)
  | finite a m e, finite b k f =>
    let (n, d) := quotient m e
    let (n', d') := quotient k f
    ofQuotient (a != b) (n * n') (d * d')

/-- Whether the number is neither zero nor undefined nor negative. -/
def isPositive (x : Binary64) : Bool := lt zero x

/-- Whether the number is one of the two zeros. -/
def isZero : Binary64 → Bool
  | finite _ m _ => m = 0
  | _ => false

/-- The integer part of the number, dropping what follows the point; none for an infinity or the
undefined number. -/
def truncate? : Binary64 → Option Int
  | finite a m e =>
    let (n, d) := quotient m e
    some (if a then -((n / d : Nat) : Int) else ((n / d : Nat) : Int))
  | _ => none

end Binary64

end InsecureLinks
