import InsecureLinks.Files.FileTree
import InsecureLinks.Output.Checkstyle
import InsecureLinks.Output.Html

/-!
# Report files

The files that a report is written to, in a folder that is made if it is not there: a document, and
a page.
-/

namespace InsecureLinks.ReportFiles

/-- What may go wrong in writing a report. -/
inductive Fault
  | access (f : AccessFault)
  /-- The path of the folder holds a zero, which no path of a file may. -/
  | zero
  /-- There is no document. -/
  | noDocument (f : Numeral.Fault)
  /-- There is nothing that a page could show. -/
  | noPage (f : Console.Fault)
  /-- What a page is to show is refused. -/
  | refused (message : Text)
deriving DecidableEq, Repr

/-- The wording of a fault. -/
def Fault.message : Fault → Text
  | .access f => f.message
  | .zero => Path.zeroMessage
  | .noDocument f => f.message
  | .noPage f => f.message
  | .refused message => message

/-- The name of the files, without what says of which kind they are. -/
def baseName : Text := "nohttp".toList

/-- The page of a report. -/
def page (make : Html.Maker) (r : Report) : Except Fault Text := do
  let prints ← (Html.prints r).mapError .noPage
  (make prints).mapError .refused

/-- Writes a file of a report, if there is anything to write. -/
def writeFile (here : Place) (p : Path) (content : Except Fault Text) (tree : FileTree) :
    FileTree × Except Fault Path :=
  match content with
  | .error f => (tree, .error f)
  | .ok content =>
    match tree.write here p (Utf8.encode content) with
    | .ok tree => (tree, .ok p)
    | .error f => (tree, .error (.access f))

/-- Writes the document, then the page, as far as they are wanted.  After a fault, what has been
written stays. -/
def writeBoth (make : Html.Maker) (here : Place) (folder : Path) (document page : Bool)
    (r : Report) (tree : FileTree) : FileTree × Except Fault (List Path) :=
  let (tree, first) :=
    if document then
      let (tree, outcome) :=
        writeFile here (folder.join (baseName ++ ".xml".toList))
          ((Checkstyle.document r).mapError .noDocument) tree
      (tree, outcome.map fun p => [p])
    else (tree, .ok [])
  match first with
  | .error f => (tree, .error f)
  | .ok written =>
    if page then
      let (tree, outcome) :=
        writeFile here (folder.join (baseName ++ ".html".toList)) (ReportFiles.page make r) tree
      (tree, outcome.map fun p => written ++ [p])
    else (tree, .ok written)

/-- Writes a report into a folder. -/
def write (make : Html.Maker) (here : Place) (folder : Path) (document page : Bool) (r : Report)
    (tree : FileTree) : FileTree × Except Fault (List Path) :=
  if !document && !page then (tree, .ok [])
  else if folder.hasZero then (tree, .error .zero)
  else
    match tree.ensureFolders here folder.start folder.names.length folder.names with
    | .error f => (tree, .error (.access f))
    | .ok tree => writeBoth make here folder document page r tree

end InsecureLinks.ReportFiles
