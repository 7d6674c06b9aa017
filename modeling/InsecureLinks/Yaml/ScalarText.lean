import InsecureLinks.Yaml.Fault
import InsecureLinks.Yaml.Spot

/-!
# The text of scalars

A scalar is written plainly, between quotation marks, or as a block of indented lines.  Each form
has its own rule for what a line break inside it means; mostly a single one is a space and further
ones are line feeds.
-/

namespace InsecureLinks.Yaml

/-! ## Between quotation marks -/

/-- The line breaks of the empty lines that come next, with the blanks on them passed over.  What
separates documents may not come at the start of a line. -/
def emptyLines (atStart : Bool) : Spots → Except Fault (Text × Spots)
  | [] => .ok ([], [])
  | x :: s =>
    if atStart && Spots.isDocumentMarker (x :: s) then .error .malformed
    else if isSpaceOrTab x.char then emptyLines false s
    else if isBreak x.char then do
      let (t, rest) ← emptyLines true s
      return (breakText x.char ++ t, rest)
    else .ok ([], x :: s)

/-- What a line break with the empty lines after it means. -/
def folded (lineBreak empty : Text) : Text :=
  if lineBreak ≠ ['\n'] then lineBreak ++ empty
  else if empty.isEmpty then [' ']
  else empty

/-- The blanks that come next, or what the line break after them means. -/
def quotedBlanks (s : Spots) : Except Fault (Text × Spots) :=
  let (blanks, s) := s.cut isSpaceOrTab
  if s.char = endChar then .error .malformed
  else if isBreak s.char then do
    let (lineBreak, s) := s.cutBreak
    let (empty, s) ← emptyLines true s
    return (folded lineBreak empty, s)
  else .ok (blanks, s)

/-- The character that a backslash and another character stand for. -/
def escapes : List (Char × Nat) :=
  [('0', 0), ('a', 7), ('b', 8), ('t', 9), ('\t', 9), ('n', 10), ('v', 11), ('f', 12), ('r', 13),
   ('e', 27), (' ', 32), ('"', 34), ('\\', 92), ('/', 47), ('N', 0x85), ('_', 0xA0),
   ('L', 0x2028), ('P', 0x2029)]

/-- How many digits follow a backslash and another character. -/
def codeWidths : List (Char × Nat) := [('x', 2), ('u', 4), ('U', 8)]

/-- The value of a digit in base sixteen. -/
def hexValue? (c : Char) : Option Nat :=
  let n := c.toNat
  if 48 ≤ n ∧ n ≤ 57 then some (n - 48)
  else if 65 ≤ n ∧ n ≤ 70 then some (n - 55)
  else if 97 ≤ n ∧ n ≤ 102 then some (n - 87)
  else none

/-- The number that some digits in base sixteen denote. -/
def hexNumber? (t : Text) : Option Nat :=
  t.foldl (fun n c => do return (← n) * 16 + (← hexValue? c)) (some 0)

/-- The character with a number. -/
def charOf (code : Nat) : Except Fault Char :=
  if code < 0x110000 then .ok (Char.ofNat code) else .error (.noCharacter code)

/-- The number in an escape, whose width has been read. -/
def escapedCode? (width : Nat) (s : Spots) : Option Nat :=
  hexNumber? ((s.take width).map Spot.char)

/-- Whether a number stands for the first half of a character that takes two. -/
def isFirstHalf (code : Nat) : Bool := 0xD800 ≤ code && code < 0xDC00

/-- Whether a number stands for the second half of a character that takes two. -/
def isSecondHalf (code : Nat) : Bool := 0xDC00 ≤ code && code < 0xE000

/-- The number in the escape of a second half that comes next, and the spots after it. -/
def secondHalf? : Spots → Option (Nat × Spots)
  | x :: y :: s =>
    if x.char = '\\' then do
      let width ← codeWidths.lookup y.char
      let code ← escapedCode? width s
      if isSecondHalf code then return (code, Spots.drop s width) else none
    else none
  | _ => none

/-- The character with a number, or the one whose halves have this number and the one in the escape
that comes next. -/
def escapedChar (code : Nat) (s : Spots) : Except Fault (Text × Spots) :=
  match if isFirstHalf code then secondHalf? s else none with
  | some (second, rest) =>
    .ok ([Char.ofNat (0x10000 + (code - 0xD800) * 0x400 + (second - 0xDC00))], rest)
  | none => do return ([← charOf code], s)

/-- The text of an escape whose backslash has been passed. -/
def escape : Spots → Except Fault (Text × Spots)
  | [] => .error .malformed
  | x :: s =>
    match escapes.lookup x.char, codeWidths.lookup x.char with
    | some n, _ => .ok ([Char.ofNat n], s)
    | none, some width =>
      match escapedCode? width s with
      | some code => escapedChar code (Spots.drop s width)
      | none => .error .malformed
    | none, none =>
      if isBreak x.char then emptyLines true s else .error .malformed

/-- The text between quotation marks `mark`, the first of which has been passed, and the spots
after the last.  A part of it takes at least one spot. -/
def quotedText (mark : Char) : (fuel : Nat) → Spots → Except Fault (Text × Spots)
  | 0, _ => .error .malformed
  | _, [] => .error .malformed
  | fuel + 1, x :: s => do
    let (part, rest) ←
      if x.char = mark then
        if mark = '\'' ∧ Spots.char s = mark then pure ([mark], Spots.drop s 1) else return ([], s)
      else if mark = '"' ∧ x.char = '\\' then escape s
      else if separates x.char then quotedBlanks (x :: s)
      else pure ([x.char], s)
    let (t, rest) ← quotedText mark fuel rest
    return (part ++ t, rest)

/-! ## Plain -/

/-- Whether `c` ends a plain scalar inside brackets. -/
def isFlowMark (c : Char) : Bool := c = ',' || c = '[' || c = ']' || c = '\x7b' || c = '\x7d'

/-- Whether a plain scalar ends before the next character. -/
def endsPlain (inFlow : Bool) (s : Spots) : Bool :=
  separates s.char ||
    (s.char = ':' && (separates (s.peek 1) || (inFlow && isFlowMark (s.peek 1)))) ||
    (inFlow && (isFlowMark s.char || s.char = '?'))

/-- The part of a plain scalar up to the next blank. -/
def plainWord (inFlow : Bool) : Spots → Text × Spots
  | [] => ([], [])
  | x :: s =>
    if endsPlain inFlow (x :: s) then ([], x :: s)
    else let (t, rest) := plainWord inFlow s; (x.char :: t, rest)

/-- The line breaks of the empty lines that come next, with the spaces on them passed over; none
if they lead to what separates documents. -/
def plainEmptyLines : Spots → Option Text × Spots
  | [] => (some [], [])
  | x :: s =>
    if x.char = ' ' then plainEmptyLines s
    else if isBreak x.char then
      if Spots.isDocumentMarker s then (none, s)
      else
        let (t, rest) := plainEmptyLines s
        (t.map (breakText x.char ++ ·), rest)
    else (some [], x :: s)

/-- What the blanks between two words of a plain scalar mean, where nothing means that there is no
further word; and whether a line was broken there. -/
structure PlainGap where
  text : Text
  broken : Bool
  rest : Spots

/-- The gap that comes next. -/
def plainGap (s : Spots) : PlainGap :=
  let (blanks, s) := s.cut (· = ' ')
  if isBreak s.char then
    let (lineBreak, s) := s.cutBreak
    if s.isDocumentMarker then ⟨[], true, s⟩
    else
      match plainEmptyLines s with
      | (none, rest) => ⟨[], true, rest⟩
      | (some empty, rest) => ⟨folded lineBreak empty, true, rest⟩
  else ⟨blanks, false, s⟩

/-- A plain scalar, and whether a line was broken after it. -/
structure PlainText where
  text : Text
  broken : Bool
  rest : Spots

/-- The rest of a plain scalar that is indented by at least `indent` and follows `gap`. -/
def plainText (inFlow : Bool) (indent : Int) (gap : Text) (broken : Bool) :
    (fuel : Nat) → Spots → PlainText
  | 0, s => ⟨[], broken, s⟩
  | fuel + 1, s =>
    let (word, rest) := plainWord inFlow s
    if s.char = '#' ∨ word.isEmpty then ⟨[], broken, s⟩
    else
      let next := plainGap rest
      if next.text.isEmpty ∨ next.rest.char = '#' ∨
          (¬inFlow ∧ (next.rest.column : Int) < indent) then
        ⟨gap ++ word, next.broken, next.rest⟩
      else
        let more := plainText inFlow indent next.text next.broken fuel next.rest
        ⟨gap ++ word ++ more.text, more.broken, more.rest⟩

/-! ## Blocks -/

/-- What becomes of the line breaks at the end of a block. -/
inductive Chomping
  /-- One stays. -/
  | clip
  | keep
  | strip
deriving DecidableEq, Repr

/-- The chomping that a character asks for. -/
def chomping? (c : Char) : Option Chomping :=
  if c = '+' then some .keep else if c = '-' then some .strip else none

/-- The additional indentation that a character asks for. -/
def increment? (c : Char) : Option Nat :=
  if 49 ≤ c.toNat ∧ c.toNat ≤ 57 then some (c.toNat - 48) else none

/-- What is said of a block at its start: chomping and additional indentation, in any order. -/
def blockHeader (s : Spots) : Except Fault (Chomping × Option Nat × Spots) :=
  let (chomping, increment, s) :=
    match chomping? s.char, increment? s.char with
    | some c, _ =>
      match increment? (s.peek 1) with
      | some n => (c, some n, s.drop 2)
      | none => (c, none, s.drop 1)
    | none, some n =>
      match chomping? (s.peek 1) with
      | some c => (c, some n, s.drop 2)
      | none => (.clip, some n, s.drop 1)
    | none, none => (.clip, none, s)
  if s.char = ' ' ∨ endsLine s.char then
    let s := s.skipComment
    if endsLine s.char then .ok (chomping, increment, s.cutBreak.2) else .error .malformed
  else .error .malformed

/-- The line breaks of the empty lines that come next and the greatest indentation on the way to
what follows them. -/
def blockStart : Spots → Text × Nat × Spots
  | [] => ([], 0, [])
  | x :: s =>
    if x.char = ' ' then
      let (t, n, rest) := blockStart s
      (t, max (x.column + 1) n, rest)
    else if isBreak x.char then
      let (t, n, rest) := blockStart s
      (breakText x.char ++ t, n, rest)
    else ([], 0, x :: s)

/-- The line breaks of the empty lines that come next, with at most `indent` spaces on each line
passed over. -/
def blockEmptyLines (indent : Nat) : Spots → Text × Spots
  | [] => ([], [])
  | x :: s =>
    if x.char = ' ' ∧ x.column < indent then blockEmptyLines indent s
    else if isBreak x.char then
      let (t, rest) := blockEmptyLines indent s
      (breakText x.char ++ t, rest)
    else ([], x :: s)

/-- The lines of a block, the last line break, and the line breaks of the empty lines at the end. -/
structure BlockLines where
  text : Text
  lineBreak : Text
  trailing : Text
  rest : Spots

/-- The lines of a block that are indented by `indent`, after the empty lines `before`.  Where lines
are folded, a line break between two lines that begin with no blank is a space. -/
def blockLines (folds : Bool) (indent : Nat) (before : Text) : (fuel : Nat) → Spots → BlockLines
  | 0, s => ⟨[], [], before, s⟩
  | fuel + 1, s =>
    if s.column ≠ indent ∨ s.char = endChar then ⟨[], [], before, s⟩
    else
      let (line, rest) := s.cut fun c => !endsLine c
      let (lineBreak, rest) := rest.cutBreak
      let (empty, rest) := blockEmptyLines indent rest
      if rest.column = indent ∧ rest.char ≠ endChar then
        let isFolded := folds && lineBreak = ['\n'] && !isSpaceOrTab s.char &&
          !isSpaceOrTab rest.char
        let gap := if isFolded then (if empty.isEmpty then [' '] else []) else lineBreak
        let more := blockLines folds indent empty fuel rest
        { more with text := before ++ line ++ gap ++ more.text }
      else ⟨before ++ line, lineBreak, empty, rest⟩

/-- The text of a block whose mark has been passed.  `outer` is the indentation around it. -/
def blockText (folds : Bool) (outer : Int) (s : Spots) : Except Fault (Text × Spots) := do
  let (chomping, increment, s) ← blockHeader s
  let least := (outer + 1).toNat.max 1
  let (before, indent, s) :=
    match increment with
    | some n =>
      let indent := least + n - 1
      let (t, rest) := blockEmptyLines indent s
      (t, indent, rest)
    | none =>
      let (t, n, rest) := blockStart s
      (t, least.max n, rest)
  let lines := blockLines folds indent before s.length s
  let tail :=
    match chomping with
    | .clip => lines.lineBreak
    | .keep => lines.lineBreak ++ lines.trailing
    | .strip => []
  return (lines.text ++ tail, lines.rest)

end InsecureLinks.Yaml
