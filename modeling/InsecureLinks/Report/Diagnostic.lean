import InsecureLinks.Number.Numeral

/-!
# Diagnostics

What a scan met and passed over: a line of the whitelist that it could not read, or a file or a
folder that it could not look into.
-/

namespace InsecureLinks

/-- Why something was passed over. -/
inductive DiagnosticKind
  | malformedWhitelistEntry
  | fileUnreadable
  | binarySkip
deriving DecidableEq, Repr

namespace DiagnosticKind

/-- The name of a kind in documents. -/
def name : DiagnosticKind → Text
  | malformedWhitelistEntry => "malformed_whitelist_entry".toList
  | fileUnreadable => "file_unreadable".toList
  | binarySkip => "binary_skip".toList

/-- The kind with a name. -/
def ofName? (t : Text) : Option DiagnosticKind :=
  [malformedWhitelistEntry, fileUnreadable, binarySkip].find? fun k => k.name = t

end DiagnosticKind

/-- How much a diagnostic matters. -/
inductive DiagnosticLevel
  | info
  | warning
deriving DecidableEq, Repr

namespace DiagnosticLevel

/-- The name of a level in documents. -/
def name : DiagnosticLevel → Text
  | info => "info".toList
  | warning => "warning".toList

/-- The level with a name. -/
def ofName? (t : Text) : Option DiagnosticLevel := [info, warning].find? fun l => l.name = t

end DiagnosticLevel

/-- A condition that a scan recorded and went on after. -/
structure Diagnostic where
  kind : DiagnosticKind
  level : DiagnosticLevel
  path : Text
  message : Text
  lineNumber : Option Int
deriving DecidableEq, Repr

namespace Diagnostic

/-- A line of a whitelist that is no entry. -/
def malformedEntry (source message : Text) (lineNumber : Nat) : Diagnostic :=
  ⟨.malformedWhitelistEntry, .warning, source, message, some lineNumber⟩

/-- A file or folder that cannot be read. -/
def unreadable (path message : Text) : Diagnostic := ⟨.fileUnreadable, .warning, path, message, none⟩

/-- A file that is not text. -/
def binary (path message : Text) : Diagnostic := ⟨.binarySkip, .info, path, message, none⟩

/-- The place that a diagnostic is about: the path, and the line if there is one. -/
def place (d : Diagnostic) : Except Numeral.Fault Text := do
  match d.lineNumber with
  | none => return d.path
  | some n => return d.path ++ ':' :: (← Numeral.write n)

end Diagnostic

end InsecureLinks
