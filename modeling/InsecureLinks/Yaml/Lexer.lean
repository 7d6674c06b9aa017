import InsecureLinks.Yaml.Token

/-!
# From spots to tokens

A key is written like any other node; only the `:` after it tells.  So the lexer remembers where a
key may have begun, at most one on each level of brackets, and puts the tokens for it in when the
`:` is met.  A key has to be on one line and not too long.

Outside brackets, indentation opens and closes collections.
-/

namespace InsecureLinks.Yaml

/-- Where a key may have begun. -/
structure KeyMark where
  /-- The number of tokens before it. -/
  number : Nat
  /-- Whether nothing else is possible there. -/
  isRequired : Bool
  index : Nat
  line : Nat
  column : Nat
deriving DecidableEq, Repr

/-- How far a stream has been read. -/
structure Lexer where
  rest : Spots
  /-- The last token comes first. -/
  tokens : List Token
  /-- How many brackets are open. -/
  level : Nat
  /-- The indentation of the innermost collection; -1 outside all. -/
  indent : Int
  /-- The indentations around it, the innermost first. -/
  outer : List Int
  /-- Whether a key may begin here. -/
  allowsKey : Bool
  /-- The possible keys by level. -/
  marks : List (Nat × KeyMark)
deriving Repr

namespace Lexer

/-- The most characters of a key and what is before its `:`. -/
def maxKeyLength : Nat := 1024

/-- Before the first spot. -/
def start (s : Spots) : Lexer := ⟨s, [], 0, -1, [], true, []⟩

/-- Whether the lexer is inside brackets. -/
def inFlow (x : Lexer) : Bool := x.level ≠ 0

/-- The next character. -/
def char (x : Lexer) : Char := x.rest.char

/-- The column of the next character. -/
def column (x : Lexer) : Int := x.rest.column

/-- Adds a token. -/
def push (t : Token) (x : Lexer) : Lexer := { x with tokens := t :: x.tokens }

/-- Adds a token that takes `count` spots. -/
def take (t : Token) (count : Nat) (x : Lexer) : Lexer :=
  { x with tokens := t :: x.tokens, rest := x.rest.drop count }

/-- Puts a token in before the token with a number. -/
def insert (number : Nat) (t : Token) (x : Lexer) : Lexer :=
  { x with tokens := x.tokens.insertIdx (x.tokens.length - number) t }

/-- Says whether a key may begin here. -/
def allow (b : Bool) (x : Lexer) : Lexer := { x with allowsKey := b }

/-! ## Blanks -/

/-- Passes over spaces, comments and line breaks.  A key may begin on a new line outside
brackets. -/
def skipBlanks : (fuel : Nat) → Lexer → Lexer
  | 0, x => x
  | fuel + 1, x =>
    let s := x.rest.skipComment
    if isBreak s.char then
      skipBlanks fuel { x with rest := s.cutBreak.2, allowsKey := x.allowsKey || !x.inFlow }
    else { x with rest := s }

/-- Passes over the byte order mark that may open the stream. -/
def skipMark (x : Lexer) : Lexer :=
  if x.rest.next.index = 0 ∧ x.char = markChar then { x with rest := x.rest.drop 1 } else x

/-! ## Possible keys -/

/-- Whether a key that may have begun at `m` can no longer be one. -/
def isStale (x : Lexer) (m : KeyMark) : Bool :=
  m.line ≠ x.rest.next.line || maxKeyLength < x.rest.next.index - m.index

/-- Forgets the possible keys that can no longer be ones. -/
def dropStale (x : Lexer) : Except Fault Lexer :=
  if x.marks.any fun (_, m) => x.isStale m && m.isRequired then .error .malformed
  else .ok { x with marks := x.marks.filter fun (_, m) => !x.isStale m }

/-- The possible key on this level. -/
def mark? (x : Lexer) : Option KeyMark := x.marks.lookup x.level

/-- Forgets the possible key on this level without looking at it. -/
def clearMark (x : Lexer) : Lexer :=
  { x with marks := x.marks.filter fun (level, _) => level ≠ x.level }

/-- Forgets the possible key on this level, which may not be required. -/
def dropMark (x : Lexer) : Except Fault Lexer :=
  match x.mark? with
  | some m => if m.isRequired then .error .malformed else .ok x.clearMark
  | none => .ok x

/-- Remembers that a key may begin here. -/
def saveMark (x : Lexer) : Except Fault Lexer :=
  if x.allowsKey then do
    let isRequired := !x.inFlow && x.indent = x.column
    let y ← x.dropMark
    let spot := x.rest.next
    let m : KeyMark := ⟨x.tokens.length, isRequired, spot.index, spot.line, spot.column⟩
    return { y with marks := (x.level, m) :: y.marks }
  else .ok x

/-! ## Indentation -/

/-- Closes the collections from an indentation on. -/
def closeFrom (column : Int) : (outer : List Int) → Lexer → Lexer
  | [], x => x
  | i :: outer, x =>
    if column < x.indent then
      closeFrom column outer { x with indent := i, outer, tokens := .blockEnd :: x.tokens }
    else x

/-- Closes the collections that are indented further than a column. -/
def unwind (column : Int) (x : Lexer) : Lexer :=
  if x.inFlow then x else closeFrom column x.outer x

/-- Opens a collection at a column if it is indented further than the innermost one. -/
def open? (column : Int) (x : Lexer) : Option Lexer :=
  if x.indent < column then some { x with indent := column, outer := x.indent :: x.outer }
  else none

/-- Opens a collection here, with a token for it, if nothing is open at this column. -/
def openHere (t : Token) (x : Lexer) : Lexer :=
  match x.open? x.column with
  | some y => y.push t
  | none => x

/-! ## Tokens -/

/-- A token that takes `count` spots and ends all collections. -/
def takeOutermost (t : Token) (count : Nat) (x : Lexer) : Except Fault Lexer := do
  let x ← (x.unwind (-1)).dropMark
  return (x.allow false).take t count

/-- A directive. -/
def takeDirective (x : Lexer) : Except Fault Lexer := do
  let x ← (x.unwind (-1)).dropMark
  let (t, rest) ← Token.cutDirective (x.rest.drop 1)
  return { (x.allow false).push t with rest }

/-- An opening bracket. -/
def takeOpening (t : Token) (x : Lexer) : Except Fault Lexer := do
  let x ← x.saveMark
  return ({ x with level := x.level + 1 }.allow true).take t 1

/-- A closing bracket. -/
def takeClosing (t : Token) (x : Lexer) : Except Fault Lexer := do
  if !x.inFlow then throw .malformed
  let x ← x.dropMark
  return ({ x with level := x.level - 1 }.allow false).take t 1

/-- A comma between brackets. -/
def takeFlowEntry (x : Lexer) : Except Fault Lexer := do
  return (← (x.allow true).dropMark).take .flowEntry 1

/-- A hyphen before an element. -/
def takeBlockEntry (x : Lexer) : Except Fault Lexer := do
  if !x.inFlow && !x.allowsKey then throw .malformed
  let x := if x.inFlow then x else x.openHere .blockSequenceStart
  return (← (x.allow true).dropMark).take .blockEntry 1

/-- A question mark before a key. -/
def takeKey (x : Lexer) : Except Fault Lexer := do
  if !x.inFlow && !x.allowsKey then throw .malformed
  let x := if x.inFlow then x else x.openHere .blockMappingStart
  return (← (x.allow !x.inFlow).dropMark).take .key 1

/-- A colon after a key that began at `m`. -/
def takeValueOf (m : KeyMark) (x : Lexer) : Lexer :=
  let x := x.clearMark.insert m.number .key
  let x :=
    if x.inFlow then x
    else
      match x.open? m.column with
      | some y => y.insert m.number .blockMappingStart
      | none => x
  (x.allow false).take .value 1

/-- A colon. -/
def takeValue (x : Lexer) : Except Fault Lexer := do
  match x.mark? with
  | some m => return takeValueOf m x
  | none =>
    if !x.inFlow && !x.allowsKey then throw .malformed
    let x := if x.inFlow then x else x.openHere .blockMappingStart
    return (← (x.allow !x.inFlow).dropMark).take .value 1

/-- A token that can be a key or begin one, read by `cut`. -/
def takeNode (cut : Spots → Except Fault (Token × Spots)) (x : Lexer) : Except Fault Lexer := do
  let x ← x.saveMark
  let (t, rest) ← cut x.rest
  return { (x.allow false).push t with rest }

/-- A scalar between quotation marks. -/
def cutQuoted (s : Spots) : Except Fault (Token × Spots) := do
  let (t, rest) ← quotedText s.char s.length (s.drop 1)
  return (.scalar t false, rest)

/-- A block. -/
def takeBlock (folds : Bool) (x : Lexer) : Except Fault Lexer := do
  let x ← (x.allow true).dropMark
  let (t, rest) ← blockText folds x.indent (x.rest.drop 1)
  return { x.push (.scalar t false) with rest }

/-- A plain scalar.  A key may begin after it if it ended with a line. -/
def takePlain (x : Lexer) : Except Fault Lexer := do
  let x ← x.saveMark
  let p := plainText x.inFlow (x.indent + 1) [] false x.rest.length x.rest
  return { (x.allow p.broken).push (.scalar p.text true) with rest := p.rest }

/-- Whether a plain scalar can begin here. -/
def beginsPlain (x : Lexer) : Bool :=
  let c := x.char
  let next := x.rest.peek 1
  !(separates c || isFlowMark c || "-?:#&*!|>'\"%@`".toList.contains c) ||
    (!separates next && (c = '-' || (!x.inFlow && (c = '?' || c = ':'))))

/-- Reads the token that begins with the next character, which is neither blank nor the last. -/
def takeToken (x : Lexer) : Except Fault Lexer :=
  let c := x.char
  let atStart := x.column = 0
  let isAlone := separates (x.rest.peek 1)
  if c = '%' ∧ atStart then x.takeDirective
  else if atStart ∧ x.rest.isMarkers '-' then x.takeOutermost .documentStart 3
  else if atStart ∧ x.rest.isMarkers '.' then x.takeOutermost .documentEnd 3
  else if c = '[' then x.takeOpening .flowSequenceStart
  else if c = '\x7b' then x.takeOpening .flowMappingStart
  else if c = ']' then x.takeClosing .flowSequenceEnd
  else if c = '\x7d' then x.takeClosing .flowMappingEnd
  else if c = ',' then x.takeFlowEntry
  else if c = '-' ∧ isAlone then x.takeBlockEntry
  else if c = '?' ∧ (x.inFlow ∨ isAlone) then x.takeKey
  else if c = ':' ∧ (x.inFlow ∨ isAlone) then x.takeValue
  else if c = '*' then
    x.takeNode fun s => do let (name, rest) ← Token.cutName (s.drop 1); return (.alias name, rest)
  else if c = '&' then
    x.takeNode fun s => do let (name, rest) ← Token.cutName (s.drop 1); return (.anchor name, rest)
  else if c = '!' then x.takeNode Token.cutTag
  else if c = '|' ∧ ¬x.inFlow then x.takeBlock false
  else if c = '>' ∧ ¬x.inFlow then x.takeBlock true
  else if c = '\'' ∨ c = '"' then x.takeNode cutQuoted
  else if x.beginsPlain then x.takePlain
  else .error .malformed

/-- Reads all tokens.  Each takes at least one spot, so `fuel` is enough if it is the number of
spots. -/
def run : (fuel : Nat) → Lexer → Except Fault (List Token)
  | 0, _ => .error .malformed
  | fuel + 1, x => do
    let x ← (skipBlanks x.rest.length x.skipMark).dropStale
    let x := x.unwind x.column
    if x.char = endChar then
      let x ← (x.unwind (-1)).dropMark
      return x.tokens.reverse
    else run fuel (← x.takeToken)

end Lexer

/-- The tokens of a text. -/
def tokens (t : Text) : Except Fault (List Token) :=
  let s := spots t
  Lexer.run s.length (Lexer.start s)

end InsecureLinks.Yaml
