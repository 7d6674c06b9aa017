import InsecureLinks.Text.Utf8
import InsecureLinks.Yaml.ScalarText

/-!
# Tokens

The parts of a YAML stream before it is known how they belong together.  Where indentation makes a
collection begin or end there is a token for it, although nothing is written there.
-/

namespace InsecureLinks.Yaml

/-- A part of a stream. -/
inductive Token
  /-- `%YAML` with the number before the point. -/
  | versionDirective (major : Nat)
  /-- `%TAG` with a handle and what it stands for. -/
  | tagDirective (handle start : Text)
  | otherDirective
  | documentStart
  | documentEnd
  | blockSequenceStart
  | blockMappingStart
  | blockEnd
  | flowSequenceStart
  | flowSequenceEnd
  | flowMappingStart
  | flowMappingEnd
  | blockEntry
  | flowEntry
  | key
  | value
  | alias (name : Text)
  | anchor (name : Text)
  /-- A tag with its handle, if it is not written in full, and the rest of it. -/
  | tag (handle : Option Text) (rest : Text)
  | scalar (text : Text) (isPlain : Bool)
deriving DecidableEq, Repr

namespace Token

/-! ## Anchors and aliases -/

/-- Whether the name of an anchor can end before `c`. -/
def endsName (c : Char) : Bool :=
  separates c || "?:,]%@`".toList.contains c || c = '\x7d'

/-- The name of an anchor or an alias whose mark has been passed. -/
def cutName (s : Spots) : Except Fault (Text × Spots) :=
  let (name, s) := s.cut isNameChar
  if name.isEmpty || !endsName s.char then .error .malformed else .ok (name, s)

/-! ## Tags -/

/-- Whether `c` can be in a tag. -/
def isUriChar (c : Char) : Bool :=
  isNameChar c || ";/?:@&=+$,.!~*'()[]".toList.contains c

/-- The bytes that escapes `%hh` stand for. -/
def uriBytes : (fuel : Nat) → Spots → Except Fault (Utf8.Bytes × Spots)
  | 0, s => .ok ([], s)
  | fuel + 1, s =>
    if s.char = '%' then
      match hexValue? (s.peek 1), hexValue? (s.peek 2) with
      | some a, some b => do
        let (bytes, rest) ← uriBytes fuel (s.drop 3)
        return (UInt8.ofNat (a * 16 + b) :: bytes, rest)
      | _, _ => .error .malformed
    else .ok ([], s)

/-- The characters of a tag that come next, with what their escapes stand for. -/
def uriText : (fuel : Nat) → Spots → Except Fault (Text × Spots)
  | 0, s => .ok ([], s)
  | fuel + 1, s =>
    if s.char = '%' then do
      let (bytes, rest) ← uriBytes s.length s
      match Utf8.decode bytes with
      | .error _ => throw .malformed
      | .ok part =>
        let (t, rest) ← uriText fuel rest
        return (part ++ t, rest)
    else if isUriChar s.char then do
      let (t, rest) ← uriText fuel (s.drop 1)
      return (s.char :: t, rest)
    else .ok ([], s)

/-- The part of a tag after its handle; it is not empty, unless its escapes stand for nothing. -/
def cutUri (s : Spots) : Except Fault (Text × Spots) :=
  if s.char = '%' ∨ isUriChar s.char then uriText s.length s else .error .malformed

/-- A handle: `!`, `!!` or `!name!`. -/
def cutHandle (s : Spots) : Except Fault (Text × Spots) :=
  if s.char ≠ '!' then .error .malformed
  else if s.peek 1 = ' ' then .ok (['!'], s.drop 1)
  else
    let (name, rest) := (s.drop 1).cut isNameChar
    if rest.char = '!' then .ok ('!' :: name ++ ['!'], rest.drop 1) else .error .malformed

/-- Whether a space or the end of the line comes next. -/
def isAtGap (s : Spots) : Bool := s.char = ' ' || endsLine s.char

/-- Whether another `!` comes before the next gap. -/
def hasHandle : Spots → Bool
  | [] => false
  | x :: s => if x.char = '!' then true else if x.char = ' ' || endsLine x.char then false
    else hasHandle s

/-- The tag that comes next. -/
def cutTag (s : Spots) : Except Fault (Token × Spots) := do
  let (t, s) ←
    if s.peek 1 = '<' then do
      let (rest, s) ← cutUri (s.drop 2)
      if s.char = '>' then pure (tag none rest, s.drop 1) else throw .malformed
    else if separates (s.peek 1) then pure (tag none ['!'], s.drop 1)
    else if hasHandle (s.drop 1) then do
      let (handle, s) ← cutHandle s
      let (rest, s) ← cutUri s
      pure (tag (some handle) rest, s)
    else do
      let (rest, s) ← cutUri (s.drop 1)
      pure (tag (some ['!']) rest, s)
  if isAtGap s then return (t, s) else throw .malformed

/-! ## Directives -/

/-- The spots after the rest of a line that holds at most a comment. -/
def skipLine (s : Spots) : Except Fault Spots :=
  let s := s.skipComment
  if endsLine s.char then .ok s.cutBreak.2 else .error .malformed

/-- The version that `%YAML` names. -/
def cutVersion (s : Spots) : Except Fault (Token × Spots) :=
  let (major, s) := (s.skip (· = ' ')).cut Text.isAsciiDigit
  let (minor, rest) := (s.drop 1).cut Text.isAsciiDigit
  if major.isEmpty || s.char ≠ '.' || minor.isEmpty || !isAtGap rest then .error .malformed
  else .ok (versionDirective (Text.value major), rest)

/-- The handle that `%TAG` names and what it stands for. -/
def cutTagDirective (s : Spots) : Except Fault (Token × Spots) := do
  let (handle, s) ← cutHandle (s.skip (· = ' '))
  if s.char ≠ ' ' then throw .malformed
  let (start, s) ← cutUri (s.skip (· = ' '))
  if isAtGap s then return (tagDirective handle start, s) else throw .malformed

/-- The directive whose mark has been passed. -/
def cutDirective (s : Spots) : Except Fault (Token × Spots) := do
  let (name, s) := s.cut isNameChar
  if name.isEmpty || !isAtGap s then throw .malformed
  let (t, s) ←
    if name = "YAML".toList then cutVersion s
    else if name = "TAG".toList then cutTagDirective s
    else pure (otherDirective, s.skip fun c => !endsLine c)
  return (t, ← skipLine s)

end Token

end InsecureLinks.Yaml
