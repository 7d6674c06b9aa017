import InsecureLinks.Scan.Engine

/-!
# Fingerprints

What is hashed to tell whether a scan would find something new: the content of the files, the
whitelist, and the target.  Each part is laid out as bytes here; the hash is a parameter.  A
report is kept under the fingerprint of the files, which the target's goes into, and that of the
whitelist.
-/

namespace InsecureLinks.Fingerprint

open Utf8 (Bytes)

/-- A function from bytes to a short text. -/
abbrev Hash := Bytes → Text

/-- What ends a field. -/
def separator : Char := Char.ofNat 0

/-! ## Files -/

/-- What stands for the content of a file that cannot be opened. -/
def unreadableMark (c : Cause) : Text :=
  "<unreadable:".toList ++ Text.natural c.number ++ ['>']

/-- The content of a file, or what stands for it. -/
def contentBytes (tree : FileTree) (here : Place) (f : SourceFile) : Bytes :=
  match tree.read here f.path with
  | .ok b => b
  | .error e => Utf8.encode (unreadableMark e.cause)

/-- The bytes of one file: root, path and content, each ended by a zero. -/
def fileBytes (tree : FileTree) (here : Place) (f : SourceFile) : Bytes :=
  Utf8.encode (f.root ++ separator :: f.relativePath ++ [separator]) ++
    contentBytes tree here f ++ [0]

/-- The bytes of files after a seed. -/
def filesBytes (tree : FileTree) (here : Place) (seed : Text) (files : List SourceFile) : Bytes :=
  Utf8.encode seed ++ files.flatMap (fileBytes tree here)

/-- The fingerprint of files. -/
def files (hash : Hash) (tree : FileTree) (here : Place) (seed : Text)
    (files : List SourceFile) : Text :=
  hash (filesBytes tree here seed files)

/-! ## Whitelists -/

/-- A field that may be missing. -/
def optionText {α : Type} (text : α → Text) : Option α → Text
  | none => "None".toList
  | some x => text x

/-- The text of an entry: path, line number and content, on a line of its own. -/
def entryText (e : WhitelistEntry) : Text :=
  e.filePattern ++ separator :: optionText Text.integer e.lineNumber ++
    separator :: optionText id e.lineContent ++ ['\n']

/-- The fingerprint of a whitelist's entries. -/
def whitelist (hash : Hash) (w : Whitelist) : Text :=
  hash (Utf8.encode (w.entries.flatMap entryText))

/-! ## Targets -/

/-- The fields of a target and the size limit, each list after its name. -/
def targetFields (t : Target) (maxFileSize : Int) : List Text :=
  "roots".toList :: t.roots ++ "include".toList :: t.included ++
    "exclude".toList :: t.effectiveExcludes ++ ["max".toList, Text.integer maxFileSize]

/-- The fingerprint of a target. -/
def target (hash : Hash) (t : Target) (maxFileSize : Int) : Text :=
  hash (Utf8.encode (Text.join [separator] (targetFields t maxFileSize)))

/-! ## Keys -/

/-- The key under which the report of a scan is kept. -/
def key (hash : Hash) (tree : FileTree) (here : Place) (t : Target) (w : Whitelist)
    (maxFileSize : Int) (found : List SourceFile) : Text :=
  files hash tree here (target hash t maxFileSize) found ++ ':' :: whitelist hash w

end InsecureLinks.Fingerprint
