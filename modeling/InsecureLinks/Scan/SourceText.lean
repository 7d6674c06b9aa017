import InsecureLinks.Files.FileTree
import InsecureLinks.Report.Diagnostic

/-!
# Source texts

Which files are scanned as text.  A file that cannot be opened or is too large is unreadable; a
file with a zero byte near its start, or one that is not UTF-8, is binary.  A byte order mark at
the start is no part of the text.
-/

namespace InsecureLinks

/-- Why a file is not scanned. -/
inductive Skipped
  | cannotOpen (cause : Cause)
  | tooLarge (limit : Int)
  | zeroByte
  | notUtf8 (reason : Utf8.Reason)
deriving DecidableEq, Repr

namespace Skipped

/-- The wording of a reason. -/
def message : Skipped → Text
  | cannotOpen c => c.message
  | tooLarge limit => "larger than ".toList ++ Text.integer limit ++ " bytes".toList
  | zeroByte => "NUL byte found, treating as binary".toList
  | notUtf8 r => "not valid UTF-8 (".toList ++ r.message ++ [')']

/-- Whether the file counts as binary rather than as unreadable. -/
def isBinary : Skipped → Bool
  | cannotOpen _ => false
  | tooLarge _ => false
  | zeroByte => true
  | notUtf8 _ => true

/-- The diagnostic for a file that is not scanned. -/
def diagnostic (s : Skipped) (path : Text) : Diagnostic :=
  if s.isBinary then Diagnostic.binary path s.message else Diagnostic.unreadable path s.message

end Skipped

/-- Why no file can be read with a size limit. -/
inductive LimitFault
  | negative
  /-- So many bytes cannot be asked for. -/
  | tooLarge
  /-- So many bytes can be asked for, but no row of bytes is that long. -/
  | tooLong
deriving DecidableEq, Repr

/-- The wording of a fault. -/
def LimitFault.message : LimitFault → Text
  | .negative => "read length must be non-negative or -1".toList
  | .tooLarge => "cannot fit 'int' into an index-sized integer".toList
  | .tooLong => "byte string is too large".toList

/-- Why there is no text of a file. -/
inductive ReadFault
  | limit (f : LimitFault)
  /-- There is not the memory for as many bytes as are asked for. -/
  | noMemory
  | skipped (s : Skipped)
deriving DecidableEq, Repr

namespace SourceText

/-- How many bytes at the start of a file are looked at for a zero. -/
def sniffBytes : Nat := 8000

/-- The largest file that is scanned, unless another limit is set. -/
def defaultMaxFileSize : Int := 10 * 1024 * 1024

/-- The most bytes that a row of bytes can have, `2 ^ 63 - 34`. -/
def maxRow : Int := 0x7fffffffffffffde

/-- What makes a size limit useless.  One byte more than the limit is asked for, where -1 means
all bytes. -/
def limitFault? (maxBytes : Int) : Option LimitFault :=
  if maxBytes < -2 then some .negative
  else if 0x8000000000000000 ≤ maxBytes + 1 then some .tooLarge
  else if maxRow < maxBytes + 1 then some .tooLong
  else none

/-- The text in a file's bytes. -/
def ofBytes (maxBytes : Int) (b : Utf8.Bytes) : Except Skipped Text :=
  if maxBytes < (b.length : Int) then .error (.tooLarge maxBytes)
  else if (b.take sniffBytes).contains 0 then .error .zeroByte
  else
    match Utf8.decode (Utf8.dropByteOrderMark b) with
    | .ok t => .ok t
    | .error f => .error (.notUtf8 f.reason)

/-- The text of the file that a path leads to. -/
def read (tree : FileTree) (here : Place) (maxBytes : Int) (p : Path) : Except Skipped Text :=
  match tree.read here p with
  | .ok b => ofBytes maxBytes b
  | .error f => .error (.cannotOpen f.cause)

/-- Whether the file that a path leads to can be opened. -/
def canOpen (tree : FileTree) (here : Place) (p : Path) : Bool := (tree.read here p).isOk

/-- The text of the file that a path leads to, if as many bytes can be asked for as the size limit
wants, `memory` being how many there is room for.  A file that cannot be opened is skipped whatever
the limit is. -/
def readWithin (memory : Nat) (tree : FileTree) (here : Place) (maxBytes : Int) (p : Path) :
    Except ReadFault Text :=
  match limitFault? maxBytes, canOpen tree here p with
  | some f, true => .error (.limit f)
  | none, true =>
    if memory < maxBytes + 1 then .error .noMemory
    else (read tree here maxBytes p).mapError .skipped
  | _, false => (read tree here maxBytes p).mapError .skipped

end SourceText

end InsecureLinks
