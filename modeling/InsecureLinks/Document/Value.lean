import InsecureLinks.Document.Calendar
import InsecureLinks.Number.Numeral
import InsecureLinks.Text.Quoted
import InsecureLinks.Text.Utf8

/-!
# Document values

What a settings file or a stored report can hold: scalars, sequences and maps.  A value has two
written forms.  `shown` is how it appears where text is wanted, so a text is shown as itself;
`literal` is how it appears inside another value, so a text is quoted.
-/

namespace InsecureLinks

/-- A value of a document. -/
inductive Value
  | null
  | bool (b : Bool)
  | int (i : Int)
  | real (x : Binary64)
  | text (t : Text)
  | bytes (b : Utf8.Bytes)
  | date (d : Date)
  | moment (m : Moment)
  | list (xs : List Value)
  | tuple (xs : List Value)
  | set (xs : List Value)
  | map (entries : List (Value × Value))
deriving Repr, Inhabited

namespace Value

/-! ## Equality -/

mutual

/-- Whether two values are the same, of the same kind and with the same parts in the same order. -/
def beq : Value → Value → Bool
  | null, null => true
  | bool a, bool b => a == b
  | int i, int j => i == j
  | real x, real y => x == y
  | text s, text t => s == t
  | bytes a, bytes b => a == b
  | date d, date e => d == e
  | moment m, moment n => m == n
  | list xs, list ys => beqs xs ys
  | tuple xs, tuple ys => beqs xs ys
  | set xs, set ys => beqs xs ys
  | map es, map fs => beqEntries es fs
  | _, _ => false

/-- The same of values one by one. -/
def beqs : List Value → List Value → Bool
  | [], [] => true
  | x :: xs, y :: ys => beq x y && beqs xs ys
  | _, _ => false

/-- The same of keys and values one by one. -/
def beqEntries : List (Value × Value) → List (Value × Value) → Bool
  | [], [] => true
  | (k, x) :: es, (l, y) :: fs => beq k l && beq x y && beqEntries es fs
  | _, _ => false

end

instance : BEq Value := ⟨beq⟩

/-! ## Written forms -/

/-- Bytes between quotation marks. -/
def bytesLiteral (b : Utf8.Bytes) : Text :=
  let chars := b.map fun x => Char.ofNat x.toNat
  let mark := Text.quoteMark chars
  let shownByte (c : Char) : Text :=
    if c.toNat < 0x80 then Text.quotedChar mark c
    else "\\x".toList ++ Text.hexadecimal 2 c.toNat
  'b' :: mark :: chars.flatMap shownByte ++ [mark]

/-- A day as it appears inside another value. -/
def dateLiteral (d : Date) : Text :=
  "datetime.date(".toList ++
    Text.join ", ".toList [Text.natural d.year, Text.natural d.month, Text.natural d.day] ++ [')']

/-- An offset as it appears inside another value. -/
def offsetLiteral (offset : Int) : Text :=
  if offset = 0 then "datetime.timezone.utc".toList
  else "datetime.timezone(".toList ++ spanText offset ++ [')']

/-- A moment as it appears inside another value. -/
def momentLiteral (m : Moment) : Text :=
  let d := m.date
  let numbers :=
    [d.year, d.month, d.day, m.hour, m.minute] ++
      (if m.second = 0 ∧ m.microsecond = 0 then [] else [m.second]) ++
      (if m.microsecond = 0 then [] else [m.microsecond])
  let parts := numbers.map Text.natural ++
    (match m.offset with
     | none => []
     | some o => ["tzinfo=".toList ++ offsetLiteral o])
  "datetime.datetime(".toList ++ Text.join ", ".toList parts ++ [')']

mutual

/-- A value as it appears inside another value. -/
def literal : Value → Text
  | null => "None".toList
  | bool true => "True".toList
  | bool false => "False".toList
  | int i => Text.integer i
  | real x => Decimal.shortest x
  | text t => t.quoted
  | bytes b => bytesLiteral b
  | date d => dateLiteral d
  | moment m => momentLiteral m
  | list xs => '[' :: Text.join ", ".toList (literals xs) ++ [']']
  | tuple [x] => '(' :: literal x ++ ",)".toList
  | tuple xs => '(' :: Text.join ", ".toList (literals xs) ++ [')']
  | set [] => "set()".toList
  | set xs => '\x7b' :: Text.join ", ".toList (literals xs) ++ ['\x7d']
  | map entries => '\x7b' :: Text.join ", ".toList (entryLiterals entries) ++ ['\x7d']

/-- Values as they appear inside another value. -/
def literals : List Value → List Text
  | [] => []
  | x :: xs => literal x :: literals xs

/-- Keys and values as they appear inside another value. -/
def entryLiterals : List (Value × Value) → List Text
  | [] => []
  | (k, x) :: rest => (literal k ++ ": ".toList ++ literal x) :: entryLiterals rest

end

/-- A value where text is wanted. -/
def shown : Value → Text
  | text t => t
  | date d => d.text
  | moment m => m.text
  | x => literal x

mutual

/-- Whether every whole number in a value can be written. -/
def isWritable : Value → Bool
  | int i => Numeral.isWritable i
  | list xs => areWritable xs
  | tuple xs => areWritable xs
  | set xs => areWritable xs
  | map entries => entriesAreWritable entries
  | _ => true

/-- The same of values. -/
def areWritable : List Value → Bool
  | [] => true
  | x :: xs => isWritable x && areWritable xs

/-- The same of keys and values. -/
def entriesAreWritable : List (Value × Value) → Bool
  | [] => true
  | (k, x) :: rest => isWritable k && isWritable x && entriesAreWritable rest

end

/-- The name of the kind of a value, as messages give it. -/
def kindName : Value → Text
  | null => "NoneType".toList
  | bool _ => "bool".toList
  | int _ => "int".toList
  | real _ => "float".toList
  | text _ => "str".toList
  | bytes _ => "bytes".toList
  | date _ => "datetime.date".toList
  | moment _ => "datetime.datetime".toList
  | list _ => "list".toList
  | tuple _ => "tuple".toList
  | set _ => "set".toList
  | map _ => "dict".toList

/-! ## Keys -/

/-- Whether a value is a number, and which. -/
def number? : Value → Option (Sum Int Binary64)
  | bool b => some (.inl (if b then 1 else 0))
  | int i => some (.inl i)
  | real x => some (.inr x)
  | _ => none

/-- Whether a whole number and a double precision number are the same number. -/
def sameNumber (i : Int) (x : Binary64) : Bool :=
  match x with
  | .finite n m e =>
    let (num, den) := Binary64.quotient m e
    i * (den : Int) = (if n then -(num : Int) else (num : Int))
  | _ => false

/-- Whether two values are the same key of a map.  Numbers are compared as numbers, whatever
their kind. -/
def sameKey (a b : Value) : Bool :=
  match a.number?, b.number? with
  | some (.inl i), some (.inl j) => i = j
  | some (.inl i), some (.inr x) => sameNumber i x
  | some (.inr x), some (.inl i) => sameNumber i x
  | some (.inr x), some (.inr y) => Binary64.same x y
  | none, none => a == b
  | _, _ => false

/-- The entries of a map with the value of `key` set: a key that is there keeps its place. -/
def setEntry (key x : Value) : List (Value × Value) → List (Value × Value)
  | [] => [(key, x)]
  | (k, y) :: rest =>
    if sameKey k key then (k, x) :: rest else (k, y) :: setEntry key x rest

/-- The value of a text key. -/
def get? (key : String) : List (Value × Value) → Option Value
  | [] => none
  | (.text t, x) :: rest => if t = key.toList then some x else get? key rest
  | _ :: rest => get? key rest

/-- Whether the value counts as nothing: null, false, zero, or empty. -/
def isEmpty : Value → Bool
  | null => true
  | bool b => !b
  | int i => i = 0
  | real x => x.isZero
  | text t => t = []
  | bytes b => b = []
  | date _ => false
  | moment _ => false
  | list xs => xs.isEmpty
  | tuple xs => xs.isEmpty
  | set xs => xs.isEmpty
  | map es => es.isEmpty

end Value

end InsecureLinks
