import InsecureLinks.Files.Path

/-!
# The environment

The variables that the program is started with, and where the home folders of people are.  A path
that begins with `~` begins in the home folder of the person who runs the program, and one that
begins with `~name` in that of another.
-/

namespace InsecureLinks

/-- Variables and home folders. -/
structure Environment where
  bindings : List (Text × Text)
  /-- The home folder of the person who runs the program, unless a variable says otherwise. -/
  ownHome : Text
  /-- The home folders of all by name. -/
  homes : List (Text × Text)
deriving Repr

namespace Environment

/-- The value of a variable. -/
def get? (e : Environment) (name : String) : Option Text := e.bindings.lookup name.toList

/-- The value of a variable, unless it is empty. -/
def getNonempty? (e : Environment) (name : String) : Option Text :=
  (e.get? name).filter (· ≠ [])

/-- A text without the slashes at its end; the top folder if nothing is left. -/
def trimHome (t : Text) : Text :=
  let t := (t.reverse.dropWhile (· = '/')).reverse
  if t.isEmpty then ['/'] else t

/-- The home folder that the first name of a path, which begins with `~`, stands for. -/
def homeOf? (e : Environment) (name : Text) : Option Text :=
  if name = ['~'] then some (trimHome ((e.get? "HOME").getD e.ownHome))
  else (e.homes.lookup (name.drop 1)).map trimHome

/-- The path with its home folder put in; none if there is no such home folder. -/
def expand? (e : Environment) (p : Path) : Option Path :=
  match p.start, p.names with
  | .here, name :: rest =>
    if name.head? = some '~' then
      match e.homeOf? name with
      | none => none
      | some home =>
        if home.head? = some '~' then none
        else let q := Path.ofText home; some { q with names := q.names ++ rest }
    else some p
  | _, _ => some p

/-- The home folders in a list of accounts, which has one account on each line: fields between
colons, first the name and last but one the home folder. -/
def homesOfAccounts (lines : List Text) : List (Text × Text) :=
  lines.filterMap fun l =>
    match Text.fields ':' l with
    | [name, _, _, _, _, home, _] => some (name, home)
    | _ => none

end Environment

end InsecureLinks
