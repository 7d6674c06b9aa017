import InsecureLinks.Text.Basic

/-!
# Calendar

Days of the Gregorian calendar and moments within them, as they occur in documents and in the
history of scans.
-/

namespace InsecureLinks

/-- A day. -/
structure Date where
  year : Nat
  month : Nat
  day : Nat
deriving DecidableEq, Repr

/-- A moment of a day, to the microsecond, with the seconds by which its clock is ahead of
universal time if that is known. -/
structure Moment where
  date : Date
  hour : Nat
  minute : Nat
  second : Nat
  microsecond : Nat
  offset : Option Int
deriving DecidableEq, Repr

namespace Date

/-- Whether a year has a 29 February. -/
def isLeap (year : Nat) : Bool := year % 4 = 0 && (year % 100 ≠ 0 || year % 400 = 0)

/-- The number of days of a month. -/
def daysIn (year month : Nat) : Nat :=
  if month = 2 then (if isLeap year then 29 else 28)
  else if month = 4 ∨ month = 6 ∨ month = 9 ∨ month = 11 then 30
  else 31

/-- The month and day that come `rest` days into a year, looking from month `month` on. -/
def monthAndDay (year : Nat) : (fuel month rest : Nat) → Nat × Nat
  | 0, month, rest => (month, rest + 1)
  | fuel + 1, month, rest =>
    if rest < daysIn year month then (month, rest + 1)
    else monthAndDay year fuel (month + 1) (rest - daysIn year month)

/-- The day with a number, 1 January of the year 1 having the number 1. -/
def ofOrdinal (n : Nat) : Date :=
  let n := n - 1
  let cycles := n / 146097
  let n := n % 146097
  let centuries := min (n / 36524) 3
  let n := n - centuries * 36524
  let fours := n / 1461
  let n := n % 1461
  let years := min (n / 365) 3
  let n := n - years * 365
  let year := cycles * 400 + centuries * 100 + fours * 4 + years + 1
  let (month, day) := monthAndDay year 11 1 n
  ⟨year, month, day⟩

/-- The day as year, month and day with hyphens. -/
def text (d : Date) : Text :=
  Text.padLeft '0' 4 (Text.natural d.year) ++ '-' :: Text.padLeft '0' 2 (Text.natural d.month) ++
    '-' :: Text.padLeft '0' 2 (Text.natural d.day)

end Date

namespace Moment

/-- Two digits. -/
def twoDigits (n : Nat) : Text := Text.padLeft '0' 2 (Text.natural n)

/-- Hours, minutes and seconds with colons. -/
def clockText (m : Moment) : Text :=
  twoDigits m.hour ++ ':' :: twoDigits m.minute ++ ':' :: twoDigits m.second

/-- An offset as hours and minutes, and seconds if there are some. -/
def offsetText (offset : Int) : Text :=
  let n := offset.natAbs
  (if offset < 0 then '-' else '+') :: twoDigits (n / 3600) ++ ':' :: twoDigits (n / 60 % 60) ++
    (if n % 60 = 0 then [] else ':' :: twoDigits (n % 60))

/-- The moment as day and time of day, with the fraction of a second and the offset where there
are such. -/
def text (m : Moment) : Text :=
  m.date.text ++ ' ' :: m.clockText ++
    (if m.microsecond = 0 then []
     else '.' :: Text.padLeft '0' 6 (Text.natural m.microsecond)) ++
    (match m.offset with
     | none => []
     | some o => offsetText o)

end Moment

/-! ## What is no moment -/

/-- A span of whole seconds as messages give it. -/
def spanText (seconds : Int) : Text :=
  let days := seconds.fdiv 86400
  let rest := seconds.fmod 86400
  let parts :=
    (if days = 0 then [] else ["days=".toList ++ Text.integer days]) ++
      (if rest = 0 then [] else ["seconds=".toList ++ Text.integer rest])
  "datetime.timedelta(".toList ++ Text.join ", ".toList parts ++ [')']

/-- Why numbers make no day or moment. -/
inductive CalendarFault
  | year (n : Nat)
  | month
  | day
  | hour
  | minute
  | second
  /-- The clock would be a day or more ahead or behind. -/
  | offset (seconds : Int)
deriving DecidableEq, Repr

/-- The wording of a fault. -/
def CalendarFault.message : CalendarFault → Text
  | .year n => "year ".toList ++ Text.natural n ++ " is out of range".toList
  | .month => "month must be in 1..12".toList
  | .day => "day is out of range for month".toList
  | .hour => "hour must be in 0..23".toList
  | .minute => "minute must be in 0..59".toList
  | .second => "second must be in 0..59".toList
  | .offset seconds =>
    "offset must be a timedelta strictly between -timedelta(hours=24) and ".toList ++
      "timedelta(hours=24), not ".toList ++ spanText seconds ++ ['.']

/-- Checks that numbers of at most four and two digits make a day. -/
def Date.check (d : Date) : Except CalendarFault Date :=
  if d.year = 0 then .error (.year d.year)
  else if d.month = 0 ∨ 12 < d.month then .error .month
  else if d.day = 0 ∨ Date.daysIn d.year d.month < d.day then .error .day
  else .ok d

/-- Checks that the offset of a moment is less than a day. -/
def Moment.checkOffset (m : Moment) : Except CalendarFault Moment :=
  match m.offset with
  | none => .ok m
  | some o => if o.natAbs < 86400 then .ok m else .error (.offset o)

/-- Checks that numbers make a moment: first the offset, then the day, then the time of day. -/
def Moment.check (m : Moment) : Except CalendarFault Moment := do
  let _ ← m.checkOffset
  let _ ← m.date.check
  if 23 < m.hour then throw .hour
  else if 59 < m.minute then throw .minute
  else if 59 < m.second then throw .second
  else return m

end InsecureLinks
