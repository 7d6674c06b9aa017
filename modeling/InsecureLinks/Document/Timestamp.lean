import InsecureLinks.Document.Calendar
import InsecureLinks.Number.Binary64

/-!
# Timestamps

A moment as the number of seconds since the beginning of 1970, in universal time.  Seconds are
counted in 64 bits and years in 32; of these the calendar here has the years from 1 to 9999, without
the first day.
-/

namespace InsecureLinks

/-- Why a number of seconds is no moment. -/
inductive TimestampFault
  | undefined
  /-- There are too many seconds to be counted. -/
  | uncounted
  /-- There are too many years to be counted. -/
  | uncountedYear
  | year (n : Int)
deriving DecidableEq, Repr

/-- The wording of a fault. -/
def TimestampFault.message : TimestampFault → Text
  | .undefined => "Invalid value NaN (not a number)".toList
  | .uncounted => "timestamp out of range for platform time_t".toList
  | .uncountedYear => "[Errno 75] Value too large for defined data type".toList
  | .year n => "year ".toList ++ Text.integer n ++ " is out of range".toList

namespace Timestamp

/-- The number of days from the beginning of the year 1 to that of 1970. -/
def daysBefore1970 : Int := 719162

/-- The number of days in 400 years. -/
def daysOfCycle : Int := 146097

/-- The number of days from the beginning of the year 1. -/
def dayNumber (seconds : Int) : Int := seconds.fdiv 86400 + daysBefore1970

/-- The year, where the one before 1 is 0. -/
def yearOf (seconds : Int) : Int :=
  let days := dayNumber seconds
  days.fdiv daysOfCycle * 400 + (Date.ofOrdinal ((days.fmod daysOfCycle).toNat + 1)).year

/-- A fraction of a second in whole microseconds. -/
def microseconds (num den : Nat) : Nat :=
  match Binary64.ofQuotient false (num * 1000000) den with
  | .finite _ m e => let (n, d) := Binary64.quotient m e; Binary64.roundQuotient n d
  | _ => 0

/-- The whole seconds of a timestamp, which is first rounded to the microsecond. -/
def wholeSeconds (t : Binary64) : Except TimestampFault Int :=
  match t with
  | .undefined => .error .undefined
  | .infinite _ => .error .uncounted
  | .finite negative m e =>
    let (num, den) := Binary64.quotient m e
    let whole : Int := (num / den : Nat)
    let rest := microseconds (num % den) den
    if negative then .ok (if rest = 0 then -whole else -whole - 1)
    else .ok (if rest < 1000000 then whole else whole + 1)

/-- The moment that is a number of whole seconds since the beginning of 1970. -/
def momentAt (seconds : Int) : Except TimestampFault Moment :=
  let year := yearOf seconds
  if seconds < -0x8000000000000000 ∨ 0x8000000000000000 ≤ seconds then .error .uncounted
  else if year - 1900 < -0x80000000 ∨ 0x80000000 ≤ year - 1900 then .error .uncountedYear
  else if year < 1 ∨ 9999 < year then .error (.year (Int.bmod year 0x100000000))
  else if dayNumber seconds = 0 then .error (.year 0)
  else
    let rest := (seconds.fmod 86400).toNat
    .ok ⟨Date.ofOrdinal ((dayNumber seconds).toNat + 1), rest / 3600, rest / 60 % 60, rest % 60, 0,
      none⟩

/-- The moment of a timestamp. -/
def toMoment (t : Binary64) : Except TimestampFault Moment := wholeSeconds t >>= momentAt

end Timestamp

end InsecureLinks
