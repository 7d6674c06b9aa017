import InsecureLinks.Files.RawPath
import InsecureLinks.Number.Numeral
import InsecureLinks.Report.Basic

/-!
# Checkstyle documents

A report as an XML document that tools for Checkstyle can read: one element for each file with
violations and in it one for each violation.  Code points that such a document cannot hold,
surrogates among them, are replaced.  There is no document if a line or a column has more digits
than can be written.
-/

namespace InsecureLinks

/-- A violation as it goes into a document, with any code points in its texts. -/
structure Finding where
  filePath : RawText
  lineNumber : Int
  columnOffset : Int
  lineText : RawText
  root : RawText
deriving DecidableEq, Repr

namespace Finding

/-- A violation, whose texts have no surrogates in them. -/
def of (v : Violation) : Finding where
  filePath := RawText.ofText v.filePath
  lineNumber := v.lineNumber
  columnOffset := v.columnOffset
  lineText := RawText.ofText v.lineText
  root := RawText.ofText v.root

/-- The column as it is shown, counted from 1. -/
def column (f : Finding) : Int := f.columnOffset + 1

/-- The root and the file. -/
def key (f : Finding) : RawText × RawText := (f.root, f.filePath)

end Finding

namespace Checkstyle

/-- Whether an XML document can hold `c`. -/
def isLegal (c : CodePoint) : Bool :=
  c.val = 0x09 || c.val = 0x0A || c.val = 0x0D || (0x20 ≤ c.val && c.val ≤ 0xD7FF) ||
    (0xE000 ≤ c.val && c.val ≤ 0xFFFD) || 0x10000 ≤ c.val

/-- The character that stands for a code point that a document cannot hold. -/
def replacement : Char := Char.ofNat 0xFFFD

/-- `t` with every code point that a document cannot hold replaced. -/
def legal (t : RawText) : Text :=
  t.map fun c => if isLegal c then Char.ofNat c.val else replacement

/-- A character in the value of an attribute. -/
def escapeChar (c : Char) : Text :=
  if c = '&' then "&amp;".toList
  else if c = '<' then "&lt;".toList
  else if c = '>' then "&gt;".toList
  else if c = '"' then "&quot;".toList
  else if c = '\r' then "&#13;".toList
  else if c = '\n' then "&#10;".toList
  else if c = '\t' then "&#09;".toList
  else [c]

/-- The value of an attribute. -/
def escape (t : Text) : Text := t.flatMap escapeChar

/-- An XML element with attributes and elements in it. -/
inductive Element
  | mk (name : Text) (attributes : List (Text × Text)) (children : List Element)
deriving Repr

namespace Element

/-- An attribute. -/
def attributeText (a : Text × Text) : Text :=
  ' ' :: a.1 ++ '=' :: '"' :: escape a.2 ++ ['"']

/-- The start of a line that is `depth` elements deep. -/
def indent (depth : Nat) : Text := '\n' :: List.replicate (2 * depth) ' '

mutual

/-- An element that is `depth` elements deep, each element on a line of its own. -/
def text (depth : Nat) : Element → Text
  | mk name attributes children =>
    '<' :: name ++ attributes.flatMap attributeText ++
      (match children with
       | [] => " />".toList
       | child :: rest =>
         '>' :: childrenText (depth + 1) (child :: rest) ++ indent depth ++ '<' :: '/' :: name ++
           ['>'])

/-- Elements that are `depth` elements deep, each after the start of its line. -/
def childrenText (depth : Nat) : List Element → Text
  | [] => []
  | child :: rest => indent depth ++ text depth child ++ childrenText depth rest

end

end Element

/-- The version of the format. -/
def formatVersion : Text := "8.29".toList

/-- An attribute. -/
def attr (name : String) (value : Text) : Text × Text := (name.toList, value)

/-- What is said of a violation. -/
def messageOf (f : Finding) : RawText :=
  RawText.ofText "http:// is not allowed: ".toList ++ f.lineText.strip

/-- The element of a violation. -/
def errorElement (f : Finding) : Except Numeral.Fault Element := do
  return .mk "error".toList
    [attr "line" (← Numeral.write f.lineNumber), attr "column" (← Numeral.write f.column),
      attr "severity" "error".toList, attr "message" (legal (messageOf f)),
      attr "source" "nohttp".toList] []

/-- The name of a file: its path, or as it is reported if there is no root. -/
def fileName (root filePath : RawText) : RawText :=
  if root.isEmpty then filePath else RawPath.joined root filePath

/-- The element of a file. -/
def fileElement (group : (RawText × RawText) × List Finding) : Except Numeral.Fault Element := do
  return .mk "file".toList [attr "name" (legal (fileName group.1.1 group.1.2))]
    (← group.2.mapM errorElement)

/-- The element of a report. -/
def element (fs : List Finding) : Except Numeral.Fault Element := do
  return .mk "checkstyle".toList [attr "version" formatVersion]
    (← (Groups.of Finding.key fs).mapM fileElement)

/-- A document with one element in it. -/
def documentOf (e : Element) : Text :=
  "<?xml version=\"1.0\" encoding=\"UTF-8\"?>\n".toList ++ e.text 0 ++ ['\n']

/-- The document of some violations. -/
def render (fs : List Finding) : Except Numeral.Fault Text := documentOf <$> element fs

/-- The document of a report. -/
def document (r : Report) : Except Numeral.Fault Text := render (r.violations.map Finding.of)

end Checkstyle

end InsecureLinks
