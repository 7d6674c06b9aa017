import InsecureLinks.CommandLine.Choices

/-!
# Invocations

What the arguments of the program tell it as a whole: to show its version or a help text, or to
carry out an action.  Some switches come before the name of the action and the others after it.
-/

namespace InsecureLinks.CommandLine

/-- What the program is told to do. -/
inductive Invocation
  | showVersion
  /-- Of one action or of the program. -/
  | showHelp (action : Option Action)
  /-- `project` is the folder of the project, which `history` makes no use of. -/
  | act (action : Action) (choices : Choices) (project : Text)
deriving DecidableEq, Repr

namespace Invocation

/-- The switch that comes before all others, if it is used. -/
def urgent? (action : Option Action) (a : Arguments) : Option Invocation :=
  (a.switches.find? fun s => s = .version || s = .help).map fun s =>
    if s = .version then showVersion else showHelp action

/-- The folder of the project if none is given. -/
def defaultProject : Text := ['.']

/-- How messages call the argument for the folder of the project. -/
def projectHint : Text := "'[PROJECT_DIR]'".toList

/-- The folder of the project and the arguments that are left over. -/
def takeProject (tree : FileTree) (here : Place) (plain : List Text) :
    Except UsageFault (Text × List Text) := do
  let project ←
    (Choices.folderPath tree here true (plain.head?.getD defaultProject)).mapError
      (.badValue projectHint)
  return (project, plain.drop 1)

/-- Reads the arguments after the name of an action. -/
def ofAction (tree : FileTree) (here : Place) (c : Choices) (action : Action)
    (args : List Text) : Except UsageFault Invocation := do
  let a ← Arguments.read action.switches true args
  match urgent? (some action) a with
  | some i => return i
  | none =>
    let c ← c.take tree here a
    let (project, extra) ←
      if action.hasProject then takeProject tree here a.plain
      else pure (defaultProject, a.plain)
    if extra.isEmpty then return act action c project else throw (.tooManyArguments extra)

/-- Reads arguments up to the name of an action.  The rest is handed to `next`. -/
def ofFront (tree : FileTree) (here : Place) (args : List Text)
    (next : Choices → List Text → Except UsageFault Invocation) :
    Except UsageFault Invocation := do
  let a ← Arguments.read frontSwitches false args
  match urgent? none a with
  | some i => return i
  | none => next (← Choices.initial.take tree here a) a.plain

/-- Reads the arguments of the program.  What stands where an action should and is none is read as
a switch once more, so that a misspelled switch is called that. -/
def read (tree : FileTree) (here : Place) (args : List Text) : Except UsageFault Invocation :=
  if args.isEmpty then .error .noArguments
  else
    ofFront tree here args fun c plain =>
      match plain with
      | [] => .error .missingAction
      | name :: rest =>
        match Action.ofName? name with
        | some action => ofAction tree here c action rest
        | none => ofFront tree here plain fun _ _ => .error (.noSuchAction name)

end Invocation

end InsecureLinks.CommandLine
