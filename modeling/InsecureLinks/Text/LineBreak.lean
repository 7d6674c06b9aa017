import InsecureLinks.Text.Basic

/-!
# Line breaks

Two notions of a line.  The lines of a scanned file end at `CR LF`, `CR` or `LF` and nowhere
else, so that line numbers agree with what an editor shows; `lines` gives them without and
`pieces` with their terminators.  The lines of a whitelist also end at the vertical tab, the form
feed, the information separators and the line and paragraph separators beyond ASCII; `wideLines`
gives those.
-/

namespace InsecureLinks.Text

/-! ## Lines of a file -/

/-- The texts between terminators.  There is always one; the last is empty when the text ends in
a terminator. -/
def betweenBreaks : Text → List Text
  | [] => [[]]
  | '\r' :: '\n' :: t => [] :: betweenBreaks t
  | '\r' :: t => [] :: betweenBreaks t
  | '\n' :: t => [] :: betweenBreaks t
  | c :: t =>
    match betweenBreaks t with
    | [] => [[c]]
    | l :: ls => (c :: l) :: ls

/-- `ls` without its last element, should that be empty. -/
def dropEmptyLast : List Text → List Text
  | [] => []
  | [l] => if l.isEmpty then [] else [l]
  | l :: m :: ls => l :: dropEmptyLast (m :: ls)

/-- The lines of a file, without their terminators.  A final terminator opens no further line. -/
def lines (t : Text) : List Text := dropEmptyLast (betweenBreaks t)

/-- The lines of a file, each with the terminator that ends it. -/
def pieces : Text → List Text
  | [] => []
  | '\r' :: '\n' :: t => ['\r', '\n'] :: pieces t
  | '\r' :: t => ['\r'] :: pieces t
  | '\n' :: t => ['\n'] :: pieces t
  | c :: t =>
    match pieces t with
    | [] => [[c]]
    | p :: ps => if c = '\r' ∨ c = '\n' then [c] :: p :: ps else (c :: p) :: ps

/-! ## Lines of a list of entries -/

/-- The characters that end a line of a whitelist. -/
def isWideBreak (c : Char) : Bool :=
  (0x0A ≤ c.toNat && c.toNat ≤ 0x0D) || (0x1C ≤ c.toNat && c.toNat ≤ 0x1E) || c.toNat = 0x85 ||
    c.toNat = 0x2028 || c.toNat = 0x2029

/-- The texts between wide breaks, `CR LF` counting as one. -/
def betweenWideBreaks : Text → List Text
  | [] => [[]]
  | '\r' :: '\n' :: t => [] :: betweenWideBreaks t
  | c :: t =>
    if isWideBreak c then [] :: betweenWideBreaks t
    else match betweenWideBreaks t with
      | [] => [[c]]
      | l :: ls => (c :: l) :: ls

/-- The lines of a whitelist, without their terminators. -/
def wideLines (t : Text) : List Text := dropEmptyLast (betweenWideBreaks t)

/-! ## One kind of line break -/

/-- `t` with every `CR LF` and every other `CR` turned into `LF`. -/
def unifyBreaks : Text → Text
  | [] => []
  | '\r' :: '\n' :: t => '\n' :: unifyBreaks t
  | '\r' :: t => '\n' :: unifyBreaks t
  | c :: t => c :: unifyBreaks t

end InsecureLinks.Text
