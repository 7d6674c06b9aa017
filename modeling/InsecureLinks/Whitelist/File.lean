import InsecureLinks.Files.FileTree
import InsecureLinks.Text.LineBreak
import InsecureLinks.Whitelist.Basic

/-!
# Whitelist files

Reading a whitelist from a file.  The file is UTF-8; a byte order mark at its start is no part of
it, and every kind of line break in it counts as one.  A whitelist that is asked for has to be
there, so a file that cannot be read is a fault.
-/

namespace InsecureLinks

/-- Why a whitelist file gives no whitelist. -/
inductive WhitelistFault
  | missing (path : Text)
  | unreadable (path : Text) (f : AccessFault)
  | notText (path : Text) (f : Utf8.Fault)
  /-- There is a zero in the path, which ends the program. -/
  | zero
  | entry (f : WhitelistEntry.Fault)
deriving DecidableEq, Repr

/-- The wording of a fault. -/
def WhitelistFault.message : WhitelistFault → Text
  | .missing path => "Whitelist file ".toList ++ path.quoted ++ " does not exist".toList
  | .unreadable path f =>
    "Could not read whitelist ".toList ++ path.quoted ++ ": ".toList ++ f.message
  | .notText path f =>
    "Could not read whitelist ".toList ++ path.quoted ++ ": ".toList ++ f.message
  | .zero => Path.zeroMessage
  | .entry f => f.message

namespace Whitelist

/-- `b` without the byte order mark that opens it.  Bytes that are only the beginning of a mark are
dropped as well. -/
def withoutMark (b : Utf8.Bytes) : Utf8.Bytes :=
  if b.isPrefixOf Utf8.byteOrderMark then [] else Utf8.dropByteOrderMark b

/-- The whitelist in the file that `p` leads to. -/
def ofFile (tree : FileTree) (here : Place) (p : Path) : Except WhitelistFault Whitelist :=
  if p.hasZero then .error .zero
  else
    match tree.read here p with
    | .error f =>
      if f.cause = .notFound then .error (.missing p.text) else .error (.unreadable p.text f)
    | .ok b =>
      match Utf8.decode (withoutMark b) with
      | .error f => .error (.notText p.text f)
      | .ok t =>
        match ofText p.text (Text.unifyBreaks t) with
        | .ok w => .ok w
        | .error f => .error (.entry f)

/-- The whitelist in the file at a written path.  No path, or an empty one, gives the whitelist
that allows nothing. -/
def load (tree : FileTree) (here : Place) : Option Text → Except WhitelistFault Whitelist
  | none => .ok empty
  | some [] => .ok empty
  | some written => ofFile tree here (Path.ofText written)

end Whitelist

end InsecureLinks
