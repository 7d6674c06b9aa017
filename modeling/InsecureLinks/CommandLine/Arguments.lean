import InsecureLinks.CommandLine.Switch
import InsecureLinks.Text.Quoted

/-!
# Arguments

Arguments are switches, their values, and plain arguments.  A value follows its switch as the next
argument, or after `=` if the spelling is long, or at once if it is a single letter; letters without
a value can be put together.  After `--` every argument is plain.
-/

namespace InsecureLinks.CommandLine

/-- What is wrong with the value of a switch or argument. -/
inductive ValueFault
  /-- `kind` says what should be there. -/
  | absent (kind : String) (path : Text)
  | isFile (kind : String) (path : Text)
  | isFolder (kind : String) (path : Text)
  | notNumber (kind : String) (value : Text)
  | outOfRange (number : Text) (range : String)
deriving DecidableEq, Repr

/-- The wording of a fault. -/
def ValueFault.message : ValueFault → Text
  | absent kind path => kind.toList ++ ' ' :: path.quoted ++ " does not exist.".toList
  | isFile kind path => kind.toList ++ ' ' :: path.quoted ++ " is a file.".toList
  | isFolder kind path => kind.toList ++ ' ' :: path.quoted ++ " is a directory.".toList
  | notNumber kind value =>
    value.quoted ++ " is not a valid ".toList ++ kind.toList ++ " range.".toList
  | outOfRange number range =>
    number ++ " is not in the range ".toList ++ range.toList ++ ['.']

/-- Why arguments tell the program nothing. -/
inductive UsageFault
  | noArguments
  | noSuchSwitch (written : Text)
  | needsValue (written : Text)
  | takesNoValue (written : Text)
  /-- `hint` names the switch or argument. -/
  | badValue (hint : Text) (f : ValueFault)
  | noSuchAction (name : Text)
  | missingAction
  | tooManyArguments (extra : List Text)
deriving DecidableEq, Repr

/-- The wording of a fault, if it has one. -/
def UsageFault.message? : UsageFault → Option Text
  | noArguments => none
  | noSuchSwitch written => some ("No such option ".toList ++ written.quoted ++ ['.'])
  | needsValue written =>
    some ("Option ".toList ++ written.quoted ++ " requires an argument.".toList)
  | takesNoValue written =>
    some ("Option ".toList ++ written.quoted ++ " does not take a value.".toList)
  | badValue hint f => some ("Invalid value for ".toList ++ hint ++ ": ".toList ++ f.message)
  | noSuchAction name => some ("No such command ".toList ++ name.quoted ++ ['.'])
  | missingAction => some "Missing command.".toList
  | tooManyArguments extra =>
    some ("Got unexpected extra argument".toList ++ (if extra.length = 1 then [] else ['s']) ++
      " (".toList ++ Text.join [' '] extra ++ [')'])

/-! ## Reading arguments -/

/-- What is said with a switch. -/
inductive Given
  | choice (b : Bool)
  | value (t : Text)
deriving DecidableEq, Repr

/-- A use of a switch. -/
structure Use where
  switch : Switch
  given : Given
deriving DecidableEq, Repr

/-- Arguments told apart: the uses of switches in their order, and the plain arguments. -/
structure Arguments where
  uses : List Use
  plain : List Text
deriving DecidableEq, Repr

namespace Arguments

/-- An argument on its own: uses of switches, and the spelling that the next argument is the value
of, if there is one. -/
structure Piece where
  uses : List Use
  awaiting : Option Spelling
deriving DecidableEq, Repr

/-- A spelled switch whose value, if it takes one, is the next argument. -/
def Piece.ofSpelling (s : Spelling) : Piece :=
  match s.meaning with
  | .choice b => ⟨[⟨s.switch, .choice b⟩], none⟩
  | .takesValue => ⟨[], some s⟩

/-- A spelled switch with a value of its own. -/
def withValue (s : Spelling) (value : Text) : Except UsageFault Piece :=
  match s.meaning with
  | .choice _ => .error (.takesNoValue s.name)
  | .takesValue => .ok ⟨[⟨s.switch, .value value⟩], none⟩

/-- Letters after a hyphen, each a switch; what follows one that takes a value is that value. -/
def ofLetters (known : List Spelling) : Text → Except UsageFault Piece
  | [] => .ok ⟨[], none⟩
  | c :: rest =>
    match known.find? fun s => s.name = ['-', c] with
    | none => .error (.noSuchSwitch ['-', c])
    | some s =>
      match s.meaning with
      | .choice b => do
        let piece ← ofLetters known rest
        return ⟨⟨s.switch, .choice b⟩ :: piece.uses, piece.awaiting⟩
      | .takesValue =>
        if rest.isEmpty then .ok ⟨[], some s⟩ else .ok ⟨[⟨s.switch, .value rest⟩], none⟩

/-- Whether a spelling is long: it is not a hyphen and one letter. -/
def isLong (s : Spelling) : Bool := 2 < s.name.length

/-- An argument that begins with a hyphen. -/
def ofWritten (known : List Spelling) (written : Text) : Except UsageFault Piece :=
  let name := written.takeWhile (· ≠ '=')
  match known.find? fun s => isLong s && s.name = name with
  | some s =>
    match written.dropWhile (· ≠ '=') with
    | [] => .ok (.ofSpelling s)
    | _ :: value => withValue s value
  | none =>
    if "--".toList.isPrefixOf written then .error (.noSuchSwitch name)
    else ofLetters known (written.drop 1)

/-- Whether an argument is written as a switch. -/
def looksLikeSwitch (t : Text) : Bool := t.head? = some '-' && 1 < t.length

/-- The same with uses in front. -/
def after (uses : List Use) (a : Arguments) : Arguments := { a with uses := uses ++ a.uses }

/-- The same with a plain argument in front. -/
def afterPlain (t : Text) (a : Arguments) : Arguments := { a with plain := t :: a.plain }

/-- Tells arguments apart while a spelling may be waiting for its value.  Unless plain arguments
may be `mixed` with switches, the first one makes all that follow plain. -/
def readFrom (known : List Spelling) (mixed : Bool) :
    (awaiting : Option Spelling) → List Text → Except UsageFault Arguments
  | some s, [] => .error (.needsValue s.name)
  | some s, t :: rest => do
    return (← readFrom known mixed none rest).after [⟨s.switch, .value t⟩]
  | none, [] => .ok ⟨[], []⟩
  | none, t :: rest =>
    if t = "--".toList then .ok ⟨[], rest⟩
    else if looksLikeSwitch t then do
      let piece ← ofWritten known t
      return (← readFrom known mixed piece.awaiting rest).after piece.uses
    else if mixed then do return (← readFrom known mixed none rest).afterPlain t
    else .ok ⟨[], t :: rest⟩

/-- Tells arguments apart, `known` being the switches that there are. -/
def read (known : List Switch) (mixed : Bool) (args : List Text) : Except UsageFault Arguments :=
  readFrom (known.flatMap Switch.spellings) mixed none args

/-- The switches that are used, in the order of their first uses. -/
def switches (a : Arguments) : List Switch := (a.uses.map Use.switch).eraseDups

/-- What is said with a switch, in order. -/
def givenTo (a : Arguments) (s : Switch) : List Given :=
  a.uses.filterMap fun u => if u.switch = s then some u.given else none

end Arguments

end InsecureLinks.CommandLine
