import InsecureLinks.Number.Literal
import InsecureLinks.Store.Connection

/-!
# Columns

A column is for whole numbers, for real ones, or for texts.  What is put into it becomes of that
kind if nothing is lost by that, and else stays as it is: in a column for whole numbers, the text
`12` becomes 12, and so does 12.0, but 1.5 and the text `x` stay.
-/

namespace InsecureLinks.Store.Cell

/-- The least and the greatest whole number of a cell. -/
def leastInteger : Int := -0x8000000000000000
def greatestInteger : Int := 0x7fffffffffffffff

/-- Whether a cell can hold a whole number. -/
def holdsInteger (i : Int) : Bool := leastInteger ≤ i && i ≤ greatestInteger

/-- A value as a cell, `position` being its place among the values that are put in. -/
def ofValue (position : Nat) : Value → Except StoreFault Cell
  | .null => .ok .null
  | .bool b => .ok (.integer (if b then 1 else 0))
  | .int i => if holdsInteger i then .ok (.integer i) else .error .tooLarge
  | .real .undefined => .ok .null
  | .real x => .ok (.real x)
  | .text t => .ok (.text t)
  | x => .error (.unsupported position x.kindName)

/-! ## Numbers -/

/-- A real number as a whole one, if it is one that lies between the least and the greatest. -/
def ofReal (x : Binary64) : Cell :=
  match x.truncate? with
  | none => real x
  | some i =>
    if Value.sameNumber i x ∧ leastInteger < i ∧ i < greatestInteger then integer i else real x

/-- The whole number that some digits denote, if a cell can hold it. -/
def ofDigits? (negative : Bool) (digits : Text) : Option Cell :=
  let n : Int := (Text.value digits : Nat)
  let i := if negative then -n else n
  if !digits.isEmpty && digits.all Text.isAsciiDigit && holdsInteger i then some (integer i)
  else none

/-- The number that a text is written as, if it is one. -/
def ofText? (t : Text) : Option Cell :=
  let (negative, u) := Literal.cutSign (Literal.withoutMargins t)
  match ofDigits? negative u with
  | some c => some c
  | none => (Literal.readDecimal? negative u).map ofReal

/-- A real number as text: fifteen digits at most, and always a point. -/
def realText (x : Binary64) : Text :=
  match x with
  | .infinite negative => Decimal.signText negative ++ "Inf".toList
  | _ =>
    if x.isZero then "0.0".toList
    else
      let t := Decimal.general 15 x
      let digits := t.takeWhile (· ≠ 'e')
      if digits.contains '.' then t else digits ++ ".0".toList ++ t.dropWhile (· ≠ 'e')

/-! ## Kinds of columns -/

/-- A cell in a column for whole numbers. -/
def asInteger : Cell → Cell
  | real x => ofReal x
  | text t => (ofText? t).getD (text t)
  | c => c

/-- A cell in a column for real numbers, where zero has no sign. -/
def asReal (c : Cell) : Cell :=
  match c.asInteger with
  | integer i => real (Binary64.ofInt i)
  | c => c

/-- A cell in a column for texts. -/
def asText : Cell → Cell
  | integer i => text (Text.integer i)
  | real x => text (realText x)
  | c => c

/-! ## Order -/

/-- Whether the cell is empty. -/
def isNull (c : Cell) : Bool := c = null

/-- Whether a cell comes before another: empty ones first, then numbers, then texts. -/
def lt : Cell → Cell → Bool
  | real x, real y => x.lt y
  | null, c => !c.isNull
  | real _, text _ => true
  | text s, text t => Text.before s t
  | _, _ => false

end InsecureLinks.Store.Cell
