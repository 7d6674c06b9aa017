import InsecureLinks.Number.Literal

/-!
# Numerals

Writing a whole number.  A numeral has at most as many digits as a literal may have, the sign
apart; a number that needs more is not written.
-/

namespace InsecureLinks.Numeral

/-- Why a whole number is not written. -/
inductive Fault
  | tooManyDigits
deriving DecidableEq, Repr

/-- The wording of a fault. -/
def Fault.message : Fault → Text
  | .tooManyDigits =>
    "Exceeds the limit (".toList ++ Text.natural Literal.maxDigits ++
      " digits) for integer string conversion; ".toList ++
      "use sys.set_int_max_str_digits() to increase the limit".toList

/-- Whether a whole number has no more digits than a numeral may have. -/
def isWritable (i : Int) : Bool := i.natAbs < Decimal.tenTo Literal.maxDigits

/-- The numeral of a whole number, if it can be written. -/
def write (i : Int) : Except Fault Text :=
  if isWritable i then .ok (Text.integer i) else .error .tooManyDigits

end InsecureLinks.Numeral
