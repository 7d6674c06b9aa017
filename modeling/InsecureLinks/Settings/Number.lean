import InsecureLinks.Document.Value
import InsecureLinks.Number.Literal
import InsecureLinks.Number.Measure

/-!
# Numbers in settings

Which values of a settings file are taken as whole numbers and which as real ones: numbers, truth
values, and texts that are written as numbers.  A real number is cut to a whole one.
-/

namespace InsecureLinks

/-- Why a value is not taken as a number. -/
inductive NumberFault
  | literal (f : Literal.Fault)
  | undefined
  | infinite
  /-- A whole number that is too large for a real one. -/
  | tooLarge
  /-- A value of a kind that is never a number. -/
  | notWhole (kind : Text)
  | notReal (kind : Text)
deriving DecidableEq, Repr

namespace NumberFault

/-- The wording of a fault. -/
def message : NumberFault → Text
  | literal f => f.message
  | undefined => "cannot convert float NaN to integer".toList
  | infinite => "cannot convert float infinity to integer".toList
  | tooLarge => Measure.tooLargeMessage
  | notWhole kind =>
    "int() argument must be a string, a bytes-like object or a real number, not ".toList ++
      kind.quoted
  | notReal kind =>
    "float() argument must be a string or a real number, not ".toList ++ kind.quoted

/-- Whether the value is at fault and not its size. -/
def isWrongValue : NumberFault → Bool
  | infinite => false
  | tooLarge => false
  | _ => true

end NumberFault

namespace Value

/-- A number in bytes, which are taken as they are: a byte beyond ASCII is no digit and no blank. -/
def plainBytes (b : Utf8.Bytes) : Text :=
  Literal.withoutMargins (b.map fun x => Char.ofNat x.toNat)

/-- The value as a whole number. -/
def toWhole (x : Value) : Except NumberFault Int :=
  match x with
  | bool b => .ok (if b then 1 else 0)
  | int i => .ok i
  | real .undefined => .error .undefined
  | real r =>
    match r.truncate? with
    | some i => .ok i
    | none => .error .infinite
  | text t => (Literal.readInteger t).mapError .literal
  | bytes b => (Literal.plainInteger (bytesLiteral b) (plainBytes b)).mapError .literal
  | _ => .error (.notWhole x.kindName)

/-- A whole number as a real one. -/
def realOf (i : Int) : Except NumberFault Binary64 :=
  match Binary64.ofInt i with
  | .infinite _ => .error .tooLarge
  | r => .ok r

/-- The value as a real number. -/
def toReal (x : Value) : Except NumberFault Binary64 :=
  match x with
  | bool b => realOf (if b then 1 else 0)
  | int i => realOf i
  | real r => .ok r
  | text t => (Literal.readReal t).mapError .literal
  | bytes b => (Literal.plainReal (bytesLiteral b) (plainBytes b)).mapError .literal
  | _ => .error (.notReal x.kindName)

end Value

end InsecureLinks
