import InsecureLinks.Output.Console

/-!
# The page of a report

What a page about a report shows: whether it passed, its roots, and then all that the console
would show.  The page itself is made from this by a library for consoles, which may refuse to.
-/

namespace InsecureLinks.Html

/-- Makes a page of what it is to show; where it refuses, it says why. -/
abbrev Maker := List Print → Except Text Text

/-- The version of this program. -/
def version : Text := "0.1.0".toList

/-- The line that says whether a report passed. -/
def statusLine (r : Report) : Text :=
  Markup.tagged "bold" ("nohttp ".toList ++ version) ++ ": ".toList ++
    (if r.passed then "[green]PASSED[/green]".toList else "[red]FAILED[/red]".toList)

/-- The line of a root. -/
def rootLine (root : Text) : Text :=
  "Root: ".toList ++ Markup.tagged "cyan" (Markup.escape root)

/-- What a page shows. -/
def prints (r : Report) : Except Console.Fault (List Print) := do
  let shown ← Console.report true r
  return .line (statusLine r) :: r.roots.map (fun root => .line (rootLine root)) ++
    .line [] :: shown

end InsecureLinks.Html
