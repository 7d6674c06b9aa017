import InsecureLinks.Yaml.Base64
import InsecureLinks.Yaml.Fault
import InsecureLinks.Yaml.Tag

/-!
# The values of scalars

What a scalar of a known kind denotes.  A plain scalar that got its kind from how it is written
nearly always denotes something, but not always: there is no 30 February.  A scalar whose kind is
declared may be written in any way.
-/

namespace InsecureLinks.Yaml

/-- `t` without underscores. -/
def withoutGaps (t : Text) : Text := t.filter (· ≠ '_')

/-- Whether a minus opens `t`, and `t` without its sign; a fault if `t` is empty. -/
def cutNumberSign (t : Text) : Except Fault (Bool × Text) :=
  match t with
  | [] => .error .noNumber
  | c :: u => .ok (c = '-', if c = '-' ∨ c = '+' then u else t)

/-! ## Integers -/

/-- An integer in a base that is a power of two. -/
def readBase (base : Literal.Base) (t : Text) : Except Fault Int :=
  match Literal.readIntegerIn base t with
  | .ok i => .ok i
  | .error f => .error (.number f)

/-- An integer in base ten. -/
def readTen (t : Text) : Except Fault Int :=
  match Literal.readInteger t with
  | .ok i => .ok i
  | .error f => .error (.number f)

/-- An integer without its sign: in base two after `0b`, sixteen after `0x`, eight after `0`, sixty
if there are colons, else ten. -/
def readMagnitude (t : Text) : Except Fault Int :=
  match t with
  | [] => .error .noNumber
  | ['0'] => .ok 0
  | '0' :: 'b' :: u => readBase .two u
  | '0' :: 'x' :: u => readBase .sixteen u
  | '0' :: _ => readBase .eight t
  | _ =>
    if t.contains ':' then
      (Text.fields ':' t).foldlM (fun n part => do return n * 60 + (← readTen part)) 0
    else readTen t

/-- An integer. -/
def readInteger (t : Text) : Except Fault Int := do
  let (negative, u) ← cutNumberSign (withoutGaps t)
  let n ← readMagnitude u
  return if negative then -n else n

/-! ## Reals -/

/-- A real number in base ten. -/
def readDecimal (t : Text) : Except Fault Binary64 :=
  match Literal.readReal t with
  | .ok x => .ok x
  | .error f => .error (.number f)

/-- The sum of numbers of which each counts sixty times the one after it, added up from the last.
What a number counts is rounded before it is used. -/
def sumOfSixties (parts : List Binary64) : Except Fault Binary64 := do
  let (sum, _) ← parts.reverse.foldlM
    (fun (sum, counts) x =>
      match Binary64.ofInt counts with
      | .infinite _ => throw .tooLarge
      | weight => return (sum.add (x.mul weight), counts * 60))
    (Binary64.zero, (1 : Int))
  return sum

/-- A real number without its sign. -/
def readRealMagnitude (t : Text) : Except Fault Binary64 :=
  if t = ".inf".toList then .ok (.infinite false)
  else if t = ".nan".toList then .ok .undefined
  else if t.contains ':' then
    (Text.fields ':' t).mapM readDecimal >>= sumOfSixties
  else readDecimal t

/-- A real number. -/
def readReal (t : Text) : Except Fault Binary64 := do
  let (negative, u) ← cutNumberSign (Text.lowerAscii (withoutGaps t))
  let x ← readRealMagnitude u
  return if negative then x.neg else x

/-! ## Other kinds -/

/-- A truth value. -/
def readTruth (t : Text) : Except Fault Bool :=
  let word := Text.lowerAscii t
  match truthWords.find? fun (w, _) => word = w.toList with
  | some (_, b) => .ok b
  | none => .error (.noTruthValue word)

/-- A text without the newline that may end it. -/
def withoutNewline (t : Text) : Text := if t.getLast? = some '\n' then t.dropLast else t

/-- A day or a moment, after which one newline may follow. -/
def readMoment (t : Text) : Except Fault Value :=
  match readWritten? false (withoutNewline t) with
  | none => .error .noMoment
  | some (.date d) =>
    match d.check with
    | .ok d => .ok (.date d)
    | .error f => .error (.calendar f)
  | some (.moment m) =>
    match m.check with
    | .ok m => .ok (.moment m)
    | .error f => .error (.calendar f)

/-- Bytes in base 64. -/
def readBinary (t : Text) : Except Fault Value :=
  if t.any fun c => 0x80 ≤ c.toNat then .error .malformed
  else
    match Base64.decode t with
    | some b => .ok (.bytes b)
    | none => .error .malformed

/-- The value of a scalar of a kind that scalars have. -/
def scalarValue (tag : Tag) (t : Text) : Except Fault Value :=
  match tag with
  | .null => .ok .null
  | .bool => .bool <$> readTruth t
  | .int => .int <$> readInteger t
  | .real => .real <$> readReal t
  | .binary => readBinary t
  | .moment => readMoment t
  | .text => .ok (.text t)
  | _ => .error .malformed

end InsecureLinks.Yaml
