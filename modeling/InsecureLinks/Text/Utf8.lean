import InsecureLinks.Text.Basic

/-!
# UTF-8

Writing characters as bytes, and reading bytes as characters.  Reading accepts exactly what
writing produces: no overlong forms, no surrogates, nothing above U+10FFFF.  What it refuses it
refuses with the position, the length and the reason of the first fault, where the length is that
of the longest beginning of a character that stands there.
-/

namespace InsecureLinks.Utf8

/-- A sequence of bytes. -/
abbrev Bytes := List UInt8

/-! ## Writing -/

/-- The bytes of one character. -/
def encodeChar (c : Char) : Bytes :=
  let n := c.toNat
  if n < 0x80 then [UInt8.ofNat n]
  else if n < 0x800 then [UInt8.ofNat (0xC0 + n / 0x40), UInt8.ofNat (0x80 + n % 0x40)]
  else if n < 0x10000 then
    [UInt8.ofNat (0xE0 + n / 0x1000), UInt8.ofNat (0x80 + n / 0x40 % 0x40),
      UInt8.ofNat (0x80 + n % 0x40)]
  else
    [UInt8.ofNat (0xF0 + n / 0x40000), UInt8.ofNat (0x80 + n / 0x1000 % 0x40),
      UInt8.ofNat (0x80 + n / 0x40 % 0x40), UInt8.ofNat (0x80 + n % 0x40)]

/-- The bytes of a text. -/
def encode (t : Text) : Bytes := t.flatMap encodeChar

/-! ## Reading -/

/-- Why bytes are no text. -/
inductive Reason
  | invalidStart
  | invalidContinuation
  | unexpectedEnd
deriving DecidableEq, Repr

/-- The wording of a reason. -/
def Reason.message : Reason → Text
  | .invalidStart => "invalid start byte".toList
  | .invalidContinuation => "invalid continuation byte".toList
  | .unexpectedEnd => "unexpected end of data".toList

/-- The first place at which bytes stop being a text: `length` bytes from `position` on, the
first of which is `byte`. -/
structure Fault where
  position : Nat
  length : Nat
  byte : UInt8
  reason : Reason
deriving DecidableEq, Repr

/-- The wording of a fault. -/
def Fault.message (f : Fault) : Text :=
  let place :=
    if f.length = 1 then
      "byte 0x".toList ++ Text.hexadecimal 2 f.byte.toNat ++ " in position ".toList ++
        Text.natural f.position
    else
      "bytes in position ".toList ++ Text.natural f.position ++ '-' ::
        Text.natural (f.position + f.length - 1)
  "'utf-8' codec can't decode ".toList ++ place ++ ": ".toList ++ f.reason.message

/-- Whether `b` continues a character. -/
def isContinuation (b : UInt8) : Bool := 0x80 ≤ b && b < 0xC0

/-- Whether `b` can be the second byte of the three that begin with `lead`: no overlong form and
no surrogate. -/
def isSecondOfThree (lead b : UInt8) : Bool :=
  isContinuation b && (if b < 0xA0 then lead ≠ 0xE0 else lead ≠ 0xED)

/-- Whether `b` can be the second byte of the four that begin with `lead`: no overlong form and
nothing above U+10FFFF. -/
def isSecondOfFour (lead b : UInt8) : Bool :=
  isContinuation b && (if b < 0x90 then lead ≠ 0xF0 else lead ≠ 0xF4)

/-- The low six bits of a byte that continues a character. -/
def payload (b : UInt8) : Nat := b.toNat % 0x40

/-- The outcome of reading one character: the character and how many bytes it takes, or how many
bytes are at fault and why. -/
inductive Step
  | char (c : Char) (width : Nat)
  | fault (length : Nat) (reason : Reason)
deriving DecidableEq, Repr

/-- Reads the character that begins with `lead` and goes on in `rest`. -/
def step (lead : UInt8) (rest : Bytes) : Step :=
  if lead < 0x80 then .char (Char.ofNat lead.toNat) 1
  else if lead < 0xC2 then .fault 1 .invalidStart
  else if lead < 0xE0 then
    match rest with
    | [] => .fault 1 .unexpectedEnd
    | b :: _ =>
      if isContinuation b then .char (Char.ofNat (lead.toNat % 0x20 * 0x40 + payload b)) 2
      else .fault 1 .invalidContinuation
  else if lead < 0xF0 then
    match rest with
    | [] => .fault 1 .unexpectedEnd
    | [b] => if isSecondOfThree lead b then .fault 2 .unexpectedEnd
        else .fault 1 .invalidContinuation
    | b :: c :: _ =>
      if ¬ isSecondOfThree lead b then .fault 1 .invalidContinuation
      else if ¬ isContinuation c then .fault 2 .invalidContinuation
      else .char (Char.ofNat ((lead.toNat % 0x10 * 0x40 + payload b) * 0x40 + payload c)) 3
  else if lead < 0xF5 then
    match rest with
    | [] => .fault 1 .unexpectedEnd
    | [b] => if isSecondOfFour lead b then .fault 2 .unexpectedEnd
        else .fault 1 .invalidContinuation
    | [b, c] =>
      if ¬ isSecondOfFour lead b then .fault 1 .invalidContinuation
      else if ¬ isContinuation c then .fault 2 .invalidContinuation
      else .fault 3 .unexpectedEnd
    | b :: c :: d :: _ =>
      if ¬ isSecondOfFour lead b then .fault 1 .invalidContinuation
      else if ¬ isContinuation c then .fault 2 .invalidContinuation
      else if ¬ isContinuation d then .fault 3 .invalidContinuation
      else .char (Char.ofNat
        (((lead.toNat % 0x08 * 0x40 + payload b) * 0x40 + payload c) * 0x40 + payload d)) 4
  else .fault 1 .invalidStart

/-- Reads `bytes`, the first of which is at `position`. -/
def decodeFrom (position : Nat) (bytes : Bytes) : Except Fault Text :=
  match bytes with
  | [] => .ok []
  | lead :: rest =>
    match step lead rest with
    | .fault length reason => .error ⟨position, length, lead, reason⟩
    | .char c width =>
      match decodeFrom (position + width) (rest.drop (width - 1)) with
      | .ok t => .ok (c :: t)
      | .error f => .error f
termination_by bytes.length
decreasing_by simp only [List.length_drop, List.length_cons]; omega

/-- Reads bytes as a text. -/
def decode (bytes : Bytes) : Except Fault Text := decodeFrom 0 bytes

/-! ## The byte order mark -/

/-- The bytes that may open a text to say that it is UTF-8. -/
def byteOrderMark : Bytes := [0xEF, 0xBB, 0xBF]

/-- The character that those bytes stand for. -/
def byteOrderMarkChar : Char := Char.ofNat 0xFEFF

/-- `bytes` without the byte order mark that may open them. -/
def dropByteOrderMark (bytes : Bytes) : Bytes :=
  if byteOrderMark.isPrefixOf bytes then bytes.drop byteOrderMark.length else bytes

end InsecureLinks.Utf8
