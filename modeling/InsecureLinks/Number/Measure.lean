import InsecureLinks.Number.Decimal

/-!
# Measures

A quantity of time as a report holds it: a whole number or a double precision one.  The two are
kept apart because a report gives back what it was given.
-/

namespace InsecureLinks

/-- A whole or a double precision number. -/
inductive Measure
  | whole (i : Int)
  | real (x : Binary64)
deriving DecidableEq, Repr, Inhabited

namespace Measure

/-- The measure as a double precision number; none if it is too large for one. -/
def toBinary? : Measure → Option Binary64
  | whole i =>
    match Binary64.ofInt i with
    | .infinite _ => none
    | x => some x
  | real x => some x

/-- The message that a whole number is too large for a double precision one. -/
def tooLargeMessage : Text := "int too large to convert to float".toList

/-- The measure with two digits after the point; none if it is too large. -/
def fixedTwo? (m : Measure) : Option Text := m.toBinary?.map (Decimal.fixed 2)

end Measure

end InsecureLinks
