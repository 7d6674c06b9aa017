import InsecureLinks.Text.Basic
import InsecureLinks.Number.Binary64

/-!
# Decimal texts of numbers

A double precision number is written in one of three ways: with the fewest digits that read back
as the same number (`shortest`), with a fixed number of places (`fixed`), or with a fixed number
of significant digits and no trailing zeros (`general`).  The last two round the exact binary
value, from halfway to the even digit.
-/

namespace InsecureLinks.Decimal

open Binary64 (roundQuotient quotient)

/-! ## The fewest digits that read back -/

/-- Ten to the power `k`. -/
def tenTo (k : Nat) : Nat := Nat.pow 10 k

/-- `num / den` over `10 ^ place` as a quotient of natural numbers. -/
def scaledTen (num den : Nat) (place : Int) : Nat × Nat :=
  if 0 ≤ place then (num, den * tenTo place.toNat) else (num * tenTo (-place).toNat, den)

/-- The number nearest to `digits * 10 ^ place`. -/
def toBinary (negative : Bool) (digits : Nat) (place : Int) : Binary64 :=
  if 0 ≤ place then Binary64.ofQuotient negative (digits * tenTo place.toNat) 1
  else Binary64.ofQuotient negative digits (tenTo (-place).toNat)

/-- How many decimal digits the positive number `n` has. -/
def digitCount (n : Nat) : Nat := (Text.natural n).length

/-- The power of ten of the first digit of `num / den`: the greatest `p` with
`10 ^ p ≤ num / den`. -/
def magnitude (num den : Nat) : Int :=
  let guess : Int := (digitCount num : Int) - (digitCount den : Int)
  let (n, d) := scaledTen num den guess
  if n < d then guess - 1 else guess

/-- Of the multiples of `10 ^ place` next to `num / den`, the one that reads back as `x`, the
nearer one if both do, and from halfway the even one. -/
def candidate? (x : Binary64) (num den : Nat) (place : Int) : Option Nat :=
  let (n, d) := scaledTen num den place
  let below := n / d
  let above := below + 1
  let reads (k : Nat) : Bool := toBinary false k place == x
  match reads below, reads above with
  | true, true => some (roundQuotient n d)
  | true, false => some below
  | false, true => some above
  | false, false => none

/-- The fewest digits, from `count` on, that read back as `x`, and the place of the last one. -/
def fewestFrom (x : Binary64) (num den : Nat) (top : Int) : (fuel count : Nat) → Nat × Int
  | 0, _ => (0, 0)
  | fuel + 1, count =>
    let place := top - (count : Int) + 1
    match candidate? x num den place with
    | some k => (k, place)
    | none => fewestFrom x num den top fuel (count + 1)

/-- The fewest digits that read back as the positive number `m * 2 ^ e`, and the place of the
last one.  Seventeen always do. -/
def fewestDigits (m : Nat) (e : Int) : Nat × Int :=
  let (num, den) := quotient m e
  fewestFrom (.finite false m e) num den (magnitude num den) 17 1

/-- `digits` without its trailing zeros. -/
def dropZeros (digits : Text) : Text := (digits.reverse.dropWhile (· = '0')).reverse

/-- An exponent of at least two digits with its sign. -/
def exponentText (p : Int) : Text :=
  'e' :: (if p < 0 then '-' else '+') :: Text.padLeft '0' 2 (Text.natural p.natAbs)

/-- `0.d₁d₂…` times `10 ^ point`, written with a point among or around the digits. -/
def positional (digits : Text) (point : Int) : Text :=
  if point ≤ 0 then "0.".toList ++ List.replicate (-point).toNat '0' ++ digits
  else
    let k := point.toNat
    if digits.length ≤ k then
      digits ++ List.replicate (k - digits.length) '0' ++ ".0".toList
    else digits.take k ++ '.' :: digits.drop k

/-- `d₁.d₂…` times `10 ^ p`, without a point if there is one digit. -/
def scientific (digits : Text) (p : Int) : Text :=
  match digits with
  | [] => []
  | [d] => d :: exponentText p
  | d :: ds => d :: '.' :: ds ++ exponentText p

/-- The sign of a negative number. -/
def signText (negative : Bool) : Text := if negative then ['-'] else []

/-- The shortest text that reads back as `x`: positional from `1e-4` on and below `1e16`, else
with an exponent. -/
def shortest : Binary64 → Text
  | .undefined => "nan".toList
  | .infinite n => signText n ++ "inf".toList
  | .finite n m e =>
    if m = 0 then signText n ++ "0.0".toList
    else
      let (k, place) := fewestDigits m e
      let digits := dropZeros (Text.natural k)
      let point := place + (digitCount k : Int)
      signText n ++
        (if -4 < point ∧ point ≤ 16 then positional digits point
         else scientific digits (point - 1))

/-! ## A fixed number of places -/

/-- `x` with `places` digits after the point. -/
def fixed (places : Nat) : Binary64 → Text
  | .undefined => "nan".toList
  | .infinite n => signText n ++ "inf".toList
  | .finite n m e =>
    let (num, den) := quotient m e
    let k := roundQuotient (num * tenTo places) den
    let whole := Text.natural (k / tenTo places)
    let part := Text.padLeft '0' places (Text.natural (k % tenTo places))
    signText n ++ whole ++ (if places = 0 then [] else '.' :: part)

/-! ## A fixed number of significant digits -/

/-- `x` with at most `digits` significant digits and no trailing zeros: positional from `1e-4` on
and below `10 ^ digits`, else with an exponent. -/
def general (digits : Nat) : Binary64 → Text
  | .undefined => "nan".toList
  | .infinite n => signText n ++ "inf".toList
  | .finite n m e =>
    if m = 0 then signText n ++ ['0']
    else
      let (num, den) := quotient m e
      let top := magnitude num den
      let rounded := fun (top : Int) =>
        let (a, b) := scaledTen num den (top - (digits : Int) + 1)
        roundQuotient a b
      let k := rounded top
      let (k, top) := if k = tenTo digits then (k / 10, top + 1) else (k, top)
      let shown := dropZeros (Text.natural k)
      signText n ++
        (if -4 ≤ top ∧ top < (digits : Int) then
          if top < 0 then "0.".toList ++ List.replicate (-top - 1).toNat '0' ++ shown
          else
            let whole := top.toNat + 1
            if shown.length ≤ whole then shown ++ List.replicate (whole - shown.length) '0'
            else shown.take whole ++ '.' :: shown.drop whole
         else scientific shown top)

end InsecureLinks.Decimal
