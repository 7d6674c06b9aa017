import InsecureLinks.Document.Value
import InsecureLinks.Number.Measure

/-!
# Reading YAML

Settings are written in YAML, which a library reads.  What it makes of a stream is left open here:
a reader is any function that gives a value or a fault.  A value is a tree, so a list or map that
holds itself, as an alias within what it names would make it, is not among them.

Most faults are that the stream breaks a rule of YAML or holds a value of a kind that is not known;
they need no wording of their own.  The others are scalars that have the form of a value but do not
denote one, and whatever else may keep a reader from its end.
-/

namespace InsecureLinks.Yaml

/-- Why a stream denotes no value. -/
inductive Fault
  | malformed
  | number (f : Literal.Fault)
  | calendar (f : CalendarFault)
  /-- An escape with the number of no character. -/
  | noCharacter (code : Nat)
  /-- A scalar that is marked as a truth value and is none. -/
  | noTruthValue (t : Text)
  /-- A scalar that is marked as a number and has no digits at all. -/
  | noNumber
  /-- A scalar that is marked as a moment and is none. -/
  | noMoment
  /-- A number whose places count more than the largest double precision number. -/
  | tooLarge
  /-- What the library does not foresee, such as a stream that is nested too deeply. -/
  | other (message : Text)
deriving DecidableEq, Repr

/-- The wording of a fault, if it has one. -/
def Fault.message? : Fault → Option Text
  | .malformed => none
  | .number f => some f.message
  | .calendar f => some f.message
  | .noCharacter code =>
    if code < 0x80000000 then some "chr() arg not in range(0x110000)".toList
    else some "Python int too large to convert to C int".toList
  | .noTruthValue t => some t.quoted
  | .noNumber => none
  | .noMoment => none
  | .tooLarge => some Measure.tooLargeMessage
  | .other message => some message

/-- Reads a stream. -/
abbrev Reader := Text → Except Fault Value

end InsecureLinks.Yaml
