import InsecureLinks.Text.Utf8

/-!
# Base 64

Reading bytes that are written with sixty-four characters, four characters for three bytes.
Characters that are none of these are passed over.  The last group is filled up with `=`, and what
follows is passed over as well.
-/

namespace InsecureLinks.Base64

/-- The six bits that a character stands for. -/
def bits? (c : Char) : Option Nat :=
  let n := c.toNat
  if 65 ≤ n ∧ n ≤ 90 then some (n - 65)
  else if 97 ≤ n ∧ n ≤ 122 then some (n - 71)
  else if 48 ≤ n ∧ n ≤ 57 then some (n + 4)
  else if c = '+' then some 62
  else if c = '/' then some 63
  else none

/-- The bytes that the rest of a text stands for: `filled` characters of a group have been read,
`left` holds the bits of them that belong to no byte yet, and `pads` fillers have come since.  None
if the last group is not full. -/
def decodeFrom (filled left pads : Nat) : Text → Option Utf8.Bytes
  | [] => if filled = 0 then some [] else none
  | c :: t =>
    if c = '=' then
      if 2 ≤ filled then
        if 4 ≤ filled + pads + 1 then some [] else decodeFrom filled left (pads + 1) t
      else decodeFrom filled left pads t
    else
      match bits? c with
      | none => decodeFrom filled left pads t
      | some n =>
        match filled with
        | 0 => decodeFrom 1 n 0 t
        | 1 => (decodeFrom 2 (n % 16) 0 t).map (UInt8.ofNat (left * 4 + n / 16) :: ·)
        | 2 => (decodeFrom 3 (n % 4) 0 t).map (UInt8.ofNat (left * 16 + n / 4) :: ·)
        | _ => (decodeFrom 0 0 0 t).map (UInt8.ofNat (left * 64 + n) :: ·)

/-- The bytes that a text stands for. -/
def decode (t : Text) : Option Utf8.Bytes := decodeFrom 0 0 0 t

end InsecureLinks.Base64
