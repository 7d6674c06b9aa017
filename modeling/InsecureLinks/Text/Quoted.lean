import InsecureLinks.Text.Printable

/-!
# Quoted texts

A text as it is shown inside a message: between quotation marks, with whatever has no visible
form written as an escape.  The marks are single unless the text holds a single mark and no
double one.
-/

namespace InsecureLinks.Text

/-- The mark that encloses `t` when it is quoted. -/
def quoteMark (t : Text) : Char :=
  if t.contains '\'' && !t.contains '"' then '"' else '\''

/-- One character between marks `mark`. -/
def quotedChar (mark c : Char) : Text :=
  if c = '\\' then "\\\\".toList
  else if c = mark then ['\\', c]
  else if c = '\n' then "\\n".toList
  else if c = '\r' then "\\r".toList
  else if c = '\t' then "\\t".toList
  else if isPrintable c then [c]
  else
    let n := c.toNat
    if n < 0x100 then "\\x".toList ++ hexadecimal 2 n
    else if n < 0x10000 then "\\u".toList ++ hexadecimal 4 n
    else "\\U".toList ++ hexadecimal 8 n

/-- `t` between quotation marks. -/
def quoted (t : Text) : Text :=
  let mark := quoteMark t
  mark :: t.flatMap (quotedChar mark) ++ [mark]

end InsecureLinks.Text
