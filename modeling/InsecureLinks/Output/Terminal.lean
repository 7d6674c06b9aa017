import InsecureLinks.Output.Console

/-!
# Terminal

What is shown on the console as plain lines: tags are left out, and the columns of a table are as
wide as their widest cells.
-/

namespace InsecureLinks.Terminal

/-- The widths of columns, `rows` being rows of cells as they are shown. -/
def widths (rows : List (List Text)) : List Nat :=
  rows.foldl (fun ws row => row.zipIdx.map fun (cell, k) => max cell.length (ws.getD k 0)) []

/-- A cell with blanks after it. -/
def fill (cell : Text) (width : Nat) : Text := cell ++ List.replicate (width - cell.length) ' '

/-- A row of cells. -/
def rowText (ws : List Nat) (row : List Text) : Text :=
  Text.join "  ".toList (List.zipWith fill row ws)

/-- A table as plain lines. -/
def tableText (t : Table) : Text :=
  let rows := (t.columns :: t.rows).map (·.map Markup.plain)
  Text.join ['\n'] (t.title :: rows.map (rowText (widths rows)))

/-- What is shown as plain lines. -/
def text : Print → Text
  | .line t => Markup.plain t
  | .table t => tableText t

end InsecureLinks.Terminal
