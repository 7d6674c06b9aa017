import InsecureLinks.Files.RealPlace
import InsecureLinks.Scan.SourceText
import InsecureLinks.Scan.Target
import InsecureLinks.Settings.Environment
import InsecureLinks.Settings.Number
import InsecureLinks.Yaml.Fault

/-!
# Settings

What a scan of a project goes by.  The settings have defaults; a file in the project or elsewhere
changes them, and then variables of the environment change some of them again.  Relative paths in
them begin in the project.

The file is read by whatever reader of YAML there is.
-/

namespace InsecureLinks

/-- The settings of a project. -/
structure Settings where
  projectDir : Path
  roots : List Text
  included : List Text
  excluded : List Text
  whitelistFile : Option Text
  buildDir : Text
  workers : Option Int
  maxFileSize : Int
  timeout : Option Binary64
  reportDir : Text
  /-- Whether report files are written. -/
  reports : Bool
  dataDir : Path
deriving DecidableEq, Repr

/-- Why there are no settings. -/
inductive SettingsFault
  | unreadable (path : Text) (f : AccessFault)
  | notYaml (path : Text)
  | notAMap (path : Text)
  | notTexts (path : Text) (key : String)
  | notText (path : Text) (key : String)
  | notTruth (path : Text) (key : String)
  | number (path : Text) (f : NumberFault)
  /-- A whole number with too many digits to be taken as a text. -/
  | unwritable
  | notNumber (name : String) (value : Text)
  | notUtf8 (f : Utf8.Fault)
  | yaml (f : Yaml.Fault)
  | access (f : AccessFault)
  | noHome
  /-- There is a zero in a path that is looked up, or in the name of the person whose home folder is
  meant. -/
  | zero
  | linkCircle (path : Text)
deriving DecidableEq, Repr

namespace SettingsFault

/-- The wording of a fault, if it has one. -/
def message? : SettingsFault → Option Text
  | unreadable path f => some ("Could not read ".toList ++ path ++ ": ".toList ++ f.message)
  | notYaml path => some ("Invalid YAML in ".toList ++ path)
  | notAMap path => some (path ++ " must contain a mapping".toList)
  | notTexts path key =>
    some (path ++ ": ".toList ++ Text.quoted key.toList ++ " must be a list of strings".toList)
  | notText path key =>
    some (path ++ ": ".toList ++ Text.quoted key.toList ++ " must be a string".toList)
  | notTruth path key =>
    some (path ++ ": ".toList ++ Text.quoted key.toList ++ " must be true or false".toList)
  | number path f =>
    some (if f.isWrongValue then path ++ ": ".toList ++ f.message else f.message)
  | unwritable => some Numeral.Fault.tooManyDigits.message
  | notNumber name value =>
    some (name.toList ++ " must be a number, got ".toList ++ value.quoted)
  | notUtf8 f => some f.message
  | yaml f => f.message?
  | access f => some f.message
  | noHome => some "Could not determine home directory.".toList
  | zero => some Path.zeroMessage
  | linkCircle path => some ("Symlink loop from ".toList ++ path.quoted)

/-- Whether the settings are at fault in a way that the program foresees. -/
def isForeseen : SettingsFault → Bool
  | unreadable _ _ => true
  | notYaml _ => true
  | notAMap _ => true
  | notTexts _ _ => true
  | notText _ _ => true
  | notTruth _ _ => true
  | number _ f => f.isWrongValue
  | notNumber _ _ => true
  | _ => false

end SettingsFault

namespace Settings

/-- The name of the settings file of a project. -/
def fileName : Text := ".nohttp.yaml".toList

/-- The whitelist of a project that names none. -/
def defaultWhitelist : Text := "config/nohttp/nohttp.txt".toList

/-- The report folder of a project that names none. -/
def defaultReportDir : Text := "build/reports/checkstyleNohttp".toList

/-! ## Paths -/

/-- Why a path has no home folder to begin in. -/
def homeFault (p : Path) : SettingsFault :=
  if (p.names.headD []).contains (Char.ofNat 0) then .zero else .noHome

/-- The path that a setting names. -/
def resolve (s : Settings) (e : Environment) (value : Text) : Except SettingsFault Path :=
  let p := Path.ofText value
  match e.expand? p with
  | none => .error (homeFault p)
  | some q => .ok (s.projectDir.append q)

/-- The whitelist file: the one that is named, or else the default one if it is there. -/
def whitelistPath (s : Settings) (e : Environment) (tree : FileTree) (here : Place) :
    Except SettingsFault (Option Path) :=
  match s.whitelistFile.filter (· ≠ []) with
  | some value => some <$> s.resolve e value
  | none =>
    let p := s.projectDir.join defaultWhitelist
    match tree.ask FileTree.isFile here p.text with
    | .ok isThere => .ok (if isThere then some p else none)
    | .error f => .error (.access f)

/-- The folder that report files are written to. -/
def reportPath (s : Settings) (e : Environment) : Except SettingsFault Path :=
  s.resolve e s.reportDir

/-- What is scanned. -/
def target (s : Settings) (e : Environment) : Except SettingsFault Target := do
  let roots := if s.roots.isEmpty then [Path.dot] else s.roots
  let roots ← roots.mapM fun r => return (← s.resolve e r).text
  return ⟨roots, s.included, s.excluded, s.buildDir⟩

/-! ## Defaults -/

/-- The folder for the data of the program. -/
def defaultDataDir (e : Environment) : Except SettingsFault Path :=
  match e.getNonempty? "XDG_DATA_HOME" with
  | some t => .ok ((Path.ofText t).join "nohttp".toList)
  | none =>
    match e.expand? (Path.ofText ['~']) with
    | some home => .ok (home.join ".local/share/nohttp".toList)
    | none => .error .noHome

/-- The settings of a project that changes none. -/
def defaults (projectDir dataDir : Path) : Settings where
  projectDir
  roots := []
  included := []
  excluded := []
  whitelistFile := none
  buildDir := defaultBuildDir
  workers := none
  maxFileSize := SourceText.defaultMaxFileSize
  timeout := none
  reportDir := defaultReportDir
  reports := true
  dataDir

/-! ## Settings files -/

/-- The entries of a settings file. -/
abbrev Entries := List (Value × Value)

/-- The texts under a key: a list, whose elements are taken as texts, or one text. -/
def textsAt (path : Text) (key : String) (entries : Entries) :
    Except SettingsFault (List Text) :=
  match Value.get? key entries with
  | none => .ok []
  | some (.text t) => .ok [t]
  | some (.list xs) =>
    if xs.all Value.isWritable then .ok (xs.map Value.shown) else .error .unwritable
  | some _ => .error (.notTexts path key)

/-- The text under a key, if the key is there. -/
def textAt (path : Text) (key : String) (entries : Entries) :
    Except SettingsFault (Option Text) :=
  match Value.get? key entries with
  | none => .ok none
  | some (.text t) => .ok (some t)
  | some _ => .error (.notText path key)

/-- The truth value under a key, if the key is there. -/
def truthAt (path : Text) (key : String) (entries : Entries) :
    Except SettingsFault (Option Bool) :=
  match Value.get? key entries with
  | none => .ok none
  | some (.bool b) => .ok (some b)
  | some _ => .error (.notTruth path key)

/-- The number under a key, if the key is there with a value. -/
def numberAt {α : Type} (read : Value → Except NumberFault α) (path : Text) (key : String)
    (entries : Entries) : Except SettingsFault (Option α) :=
  match Value.get? key entries with
  | none => .ok none
  | some .null => .ok none
  | some x =>
    match read x with
    | .ok n => .ok (some n)
    | .error f => .error (.number path f)

/-- The size limit under its key, where a key without a value is a fault. -/
def sizeAt (path : Text) (key : String) (entries : Entries) :
    Except SettingsFault (Option Int) :=
  match Value.get? key entries with
  | none => .ok none
  | some x =>
    match x.toWhole with
    | .ok n => .ok (some n)
    | .error f => .error (.number path f)

/-- The settings changed by the entries of a file. -/
def applyEntries (s : Settings) (path : Text) (entries : Entries) :
    Except SettingsFault Settings := do
  let roots ← textsAt path "roots" entries
  let included ← textsAt path "include" entries
  let excluded ← textsAt path "exclude" entries
  let whitelist ← textAt path "whitelist" entries
  let buildDir ← textAt path "build_dir" entries
  let reportDir ← textAt path "report_dir" entries
  let reports ← truthAt path "reports" entries
  let workers ← numberAt Value.toWhole path "workers" entries
  let timeout ← numberAt Value.toReal path "timeout" entries
  let maxFileSize ← sizeAt path "max_file_size" entries
  return { s with
    roots := s.roots ++ roots
    included := s.included ++ included
    excluded := s.excluded ++ excluded
    whitelistFile := whitelist <|> s.whitelistFile
    buildDir := buildDir.getD s.buildDir
    reportDir := reportDir.getD s.reportDir
    reports := reports.getD s.reports
    workers := workers <|> s.workers
    timeout := timeout <|> s.timeout
    maxFileSize := maxFileSize.getD s.maxFileSize }

/-- The entries of a settings file, which is read with one kind of line break.  A file that holds
nothing has none. -/
def readEntries (yaml : Yaml.Reader) (path : Text) (content : Utf8.Bytes) :
    Except SettingsFault Entries :=
  match Utf8.decode content with
  | .error f => .error (.notUtf8 f)
  | .ok t =>
    match yaml (Text.unifyBreaks t) with
    | .error .malformed => .error (.notYaml path)
    | .error f => .error (.yaml f)
    | .ok (.map entries) => .ok entries
    | .ok x => if x.isEmpty then .ok [] else .error (.notAMap path)

/-- The settings changed by a file. -/
def applyFile (s : Settings) (yaml : Yaml.Reader) (tree : FileTree) (here : Place) (p : Path) :
    Except SettingsFault Settings :=
  if p.hasZero then .error .zero
  else
    match tree.read here p with
    | .error f => .error (.unreadable p.text f)
    | .ok content => do s.applyEntries p.text (← readEntries yaml p.text content)

/-! ## Variables -/

/-- The number in a variable, if it is set and not empty. -/
def variableAt {α : Type} (read : Text → Except Literal.Fault α) (name : String)
    (e : Environment) : Except SettingsFault (Option α) :=
  match e.getNonempty? name with
  | none => .ok none
  | some t =>
    match read t with
    | .ok n => .ok (some n)
    | .error _ => .error (.notNumber name t)

/-- The settings changed by the variables. -/
def applyVariables (s : Settings) (e : Environment) : Except SettingsFault Settings := do
  let workers ← variableAt Literal.readInteger "NOHTTP_WORKERS" e
  let timeout ← variableAt Literal.readReal "NOHTTP_TIMEOUT" e
  let maxFileSize ← variableAt Literal.readInteger "NOHTTP_MAX_FILE_SIZE" e
  return { s with
    workers := workers <|> s.workers
    timeout := timeout <|> s.timeout
    maxFileSize := maxFileSize.getD s.maxFileSize }

/-! ## Loading -/

/-- The settings file: the one that is given, or else that of the project if it is there. -/
def filePath (s : Settings) (tree : FileTree) (here : Place) (given : Option Text) :
    Except SettingsFault (Option Path) :=
  match given.filter (· ≠ []) with
  | some t => .ok (some (Path.ofText t))
  | none =>
    let p := s.projectDir.join fileName
    match tree.ask FileTree.isFile here p.text with
    | .ok isThere => .ok (if isThere then some p else none)
    | .error f => .error (.access f)

/-- The path of the project, free of links. -/
def realProject (tree : FileTree) (here : Place) (written : Text) : Except SettingsFault Path :=
  let p := Path.ofText written
  if p.hasZero then .error .zero
  else
    match tree.real here p with
    | .ok q => .ok q
    | .error q => .error (.linkCircle q.text)

/-- The settings of the project in a folder, with the settings file that may be given. -/
def load (yaml : Yaml.Reader) (e : Environment) (tree : FileTree) (here : Place)
    (projectDir : Text) (given : Option Text) : Except SettingsFault Settings := do
  let project ← realProject tree here projectDir
  let s := defaults project (← defaultDataDir e)
  match ← s.filePath tree here given with
  | none => s.applyVariables e
  | some p => (← s.applyFile yaml tree here p).applyVariables e

end Settings

end InsecureLinks
