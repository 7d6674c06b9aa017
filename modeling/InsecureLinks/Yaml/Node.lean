import InsecureLinks.Yaml.Lexer
import InsecureLinks.Yaml.Tag

/-!
# Nodes

The tree that the tokens of a stream form: scalars, lists and maps with their kinds.  An alias is
replaced by the node that it names, and is not read within that node.  A stream holds one document at
most.
-/

namespace InsecureLinks.Yaml

/-- A part of a document. -/
inductive Node
  | scalar (tag : Tag) (text : Text)
  | list (tag : Tag) (items : List Node)
  | map (tag : Tag) (entries : List (Node × Node))
deriving Repr

namespace Node

/-- The node where nothing is written. -/
def empty : Node := scalar .null []

/-- What is still to be read, and what has been declared. -/
structure Reading where
  tokens : List Token
  /-- What the handles stand for. -/
  handles : List (Text × Text)
  /-- The anchored nodes; none while a node is being read. -/
  anchors : List (Text × Option Node)

/-- A step of reading. -/
abbrev Reader := StateT Reading (Except Fault)

namespace Reader

/-- Ends the reading. -/
def fail {α : Type} : Reader α := throw .malformed

/-- The next token; none at the end of the stream. -/
def peek : Reader (Option Token) := do return (← get).tokens.head?

/-- Passes over the next token. -/
def skip : Reader Unit := modify fun r => { r with tokens := r.tokens.drop 1 }

/-- Whether the next token is one of some. -/
def sees (ts : List Token) : Reader Bool := do
  match ← peek with
  | some t => return ts.contains t
  | none => return false

/-- Passes over a token if it comes next, and tells whether it did. -/
def passes (t : Token) : Reader Bool := do
  if ← sees [t] then
    skip
    return true
  else return false

end Reader

open Reader

/-! ## Properties of nodes -/

/-- The anchor and the tag that may stand before a node. -/
structure Properties where
  anchor : Option Text
  tag : Option Text

/-- The tag that comes next, with its handle replaced by what it stands for. -/
def readTag : Reader (Option Text) := do
  match ← peek with
  | some (.tag none rest) => skip; return some rest
  | some (.tag (some handle) rest) =>
    skip
    match (← get).handles.lookup handle with
    | some start => return some (start ++ rest)
    | none => fail
  | _ => return none

/-- The anchor that comes next. -/
def readAnchor : Reader (Option Text) := do
  match ← peek with
  | some (.anchor name) => skip; return some name
  | _ => return none

/-- Anchor and tag in any order. -/
def readProperties : Reader Properties := do
  match ← readAnchor with
  | some name => return ⟨some name, ← readTag⟩
  | none =>
    let tag ← readTag
    if tag.isSome then return ⟨← readAnchor, tag⟩ else return ⟨none, none⟩

/-- Declares an anchor, which may not be declared already. -/
def declare (anchor : Option Text) : Reader Unit := do
  match anchor with
  | none => return ()
  | some name =>
    if ((← get).anchors.lookup name).isSome then fail
    else modify fun r => { r with anchors := (name, none) :: r.anchors }

/-- Says which node a declared anchor names. -/
def settle (anchor : Option Text) (n : Node) : Reader Unit := do
  match anchor with
  | none => return ()
  | some name => modify fun r => { r with anchors := (name, some n) :: r.anchors }

/-- The tag that says nothing. -/
def plainTag : Text := ['!']

/-- The kind of a collection. -/
def collectionTag (tag : Option Text) (otherwise : Tag) : Tag :=
  match tag with
  | none => otherwise
  | some t => if t = plainTag then otherwise else Tag.ofName t

/-- The kind of a scalar. -/
def scalarTag (tag : Option Text) (t : Text) (isPlain : Bool) : Tag :=
  match tag with
  | none => if isPlain then Tag.ofPlain t else .text
  | some name => if name = plainTag then Tag.ofPlain t else Tag.ofName name

/-! ## Collections -/

/-- Whether the comma is missing that stands before everything between brackets but the first. -/
def lacksComma (isFirst : Bool) : Reader Bool := do
  if isFirst then return false
  else return !(← passes .flowEntry)

mutual

/-- A node.  Without `isBlock` no collection that goes by indentation can come; with `isLoose` a
list can begin without a token for its beginning. -/
def read (isBlock isLoose : Bool) : (fuel : Nat) → Reader Node
  | 0 => fail
  | fuel + 1 => do
    match ← peek with
    | some (.alias name) =>
      skip
      match (← get).anchors.lookup name with
      | some (some n) => return n
      | _ => fail
    | _ =>
      let p ← readProperties
      declare p.anchor
      let n ← readContent isBlock isLoose p fuel
      settle p.anchor n
      return n

/-- A node whose properties have been read. -/
def readContent (isBlock isLoose : Bool) (p : Properties) : (fuel : Nat) → Reader Node
  | 0 => fail
  | fuel + 1 => do
    match ← peek with
    | some (.scalar t isPlain) =>
      skip
      return scalar (scalarTag p.tag t isPlain) t
    | some .flowSequenceStart =>
      skip
      return list (collectionTag p.tag .list) (← readFlowItems true fuel)
    | some .flowMappingStart =>
      skip
      return map (collectionTag p.tag .map) (← readFlowEntries true fuel)
    | next =>
      if isLoose ∧ next = some .blockEntry then
        return list (collectionTag p.tag .list) (← readLooseItems fuel)
      else if isBlock ∧ next = some .blockSequenceStart then
        skip
        return list (collectionTag p.tag .list) (← readBlockItems fuel)
      else if isBlock ∧ next = some .blockMappingStart then
        skip
        return map (collectionTag p.tag .map) (← readBlockEntries fuel)
      else if p.anchor.isSome ∨ p.tag.isSome then return scalar (scalarTag p.tag [] true) []
      else fail

/-- The items of a list that goes by indentation. -/
def readBlockItems : (fuel : Nat) → Reader (List Node)
  | 0 => fail
  | fuel + 1 => do
    if ← passes .blockEntry then
      let item ←
        if ← sees [.blockEntry, .blockEnd] then pure empty else read true false fuel
      return item :: (← readBlockItems fuel)
    else if ← passes .blockEnd then return []
    else fail

/-- The items of a list that is indented no further than the map that it is in. -/
def readLooseItems : (fuel : Nat) → Reader (List Node)
  | 0 => fail
  | fuel + 1 => do
    if ← passes .blockEntry then
      let item ←
        if ← sees [.blockEntry, .key, .value, .blockEnd] then pure empty else read true false fuel
      return item :: (← readLooseItems fuel)
    else return []

/-- The entries of a map that goes by indentation. -/
def readBlockEntries : (fuel : Nat) → Reader (List (Node × Node))
  | 0 => fail
  | fuel + 1 => do
    if ← passes .key then
      let key ←
        if ← sees [.key, .value, .blockEnd] then pure empty else read true true fuel
      let value ←
        if ← passes .value then
          if ← sees [.key, .value, .blockEnd] then pure empty else read true true fuel
        else pure empty
      return (key, value) :: (← readBlockEntries fuel)
    else if ← passes .blockEnd then return []
    else fail

/-- A key and a value between brackets that `closing` closes.  The token for the key has been
passed. -/
def readPair (closing : Token) : (fuel : Nat) → Reader (Node × Node)
  | 0 => fail
  | fuel + 1 => do
    let key ←
      if ← sees [.value, .flowEntry, closing] then pure empty else read false false fuel
    let value ←
      if ← passes .value then
        if ← sees [.flowEntry, closing] then pure empty else read false false fuel
      else pure empty
    return (key, value)

/-- The items of a list between brackets.  A pair alone is a map. -/
def readFlowItems (isFirst : Bool) : (fuel : Nat) → Reader (List Node)
  | 0 => fail
  | fuel + 1 => do
    if ← passes .flowSequenceEnd then return []
    else if ← lacksComma isFirst then fail
    else if ← passes .key then
      let pair ← readPair .flowSequenceEnd fuel
      return map .map [pair] :: (← readFlowItems false fuel)
    else if ← passes .flowSequenceEnd then return []
    else
      let item ← read false false fuel
      return item :: (← readFlowItems false fuel)

/-- The entries of a map between braces.  A key may stand alone. -/
def readFlowEntries (isFirst : Bool) : (fuel : Nat) → Reader (List (Node × Node))
  | 0 => fail
  | fuel + 1 => do
    if ← passes .flowMappingEnd then return []
    else if ← lacksComma isFirst then fail
    else if ← passes .key then
      let pair ← readPair .flowMappingEnd fuel
      return pair :: (← readFlowEntries false fuel)
    else if ← passes .flowMappingEnd then return []
    else
      let key ← read false false fuel
      return (key, empty) :: (← readFlowEntries false fuel)

end

/-! ## Documents -/

/-- What handles stand for unless it is declared. -/
def defaultHandles : List (Text × Text) := [(['!'], ['!']), (['!', '!'], Tag.common)]

/-- Whether a token is a directive. -/
def isDirective : Token → Bool
  | .versionDirective _ => true
  | .tagDirective _ _ => true
  | .otherDirective => true
  | _ => false

/-- The directives before a document, `version` telling whether there was one for the version. -/
def readDirectives (version : Bool) : (fuel : Nat) → Reader Unit
  | 0 => fail
  | fuel + 1 => do
    match ← peek with
    | some (.versionDirective major) =>
      if version ∨ major ≠ 1 then fail
      skip
      readDirectives true fuel
    | some (.tagDirective handle start) =>
      if ((← get).handles.lookup handle).isSome then fail
      skip
      modify fun r => { r with handles := (handle, start) :: r.handles }
      readDirectives version fuel
    | some .otherDirective =>
      skip
      readDirectives version fuel
    | _ => return ()

/-- Passes over all marks that end documents. -/
def skipDocumentEnds : (fuel : Nat) → Reader Unit
  | 0 => return ()
  | fuel + 1 => do if ← passes .documentEnd then skipDocumentEnds fuel

/-- The node of a document that begins with a mark or directives. -/
def readMarked (fuel : Nat) : Reader Node := do
  readDirectives false fuel
  if !(← passes .documentStart) then fail
  modify fun r => { r with handles := r.handles ++ defaultHandles }
  match ← peek with
  | none => return empty
  | some t =>
    if isDirective t || t = .documentStart || t = .documentEnd then return empty
    else read true false fuel

/-- The node of the document in a stream; none if the stream is empty. -/
def readStream (fuel : Nat) : Reader (Option Node) := do
  match ← peek with
  | none => return none
  | some t =>
    let n ←
      if isDirective t || t = .documentStart then readMarked fuel
      else do
        modify fun r => { r with handles := defaultHandles }
        read true false fuel
    skipDocumentEnds fuel
    if (← peek).isSome then fail else return some n

/-- The node of the document that some tokens form.  Reading goes at most four calls deeper for
each token. -/
def ofTokens (ts : List Token) : Except Fault (Option Node) := do
  let (n, _) ← readStream (4 * ts.length + 8) ⟨ts, [], []⟩
  return n

end Node

end InsecureLinks.Yaml
