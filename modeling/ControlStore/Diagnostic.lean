/-! # Diagnostics

What is reported to the author of a flow file: a severity, a message, labels that point into the
source text in the order they were attached, and notes.  A reporter collects the diagnostics on one
source text and counts the errors among them. -/

namespace ControlStore

/-- A range of byte positions in a source text. -/
structure Span where
  start : Nat
  stop : Nat
deriving DecidableEq

/-- How serious a diagnostic is. -/
inductive Severity where
  | bug
  | error
  | warning
deriving DecidableEq

namespace Severity

/-- Bugs and errors count as errors. -/
def isError : Severity → Bool
  | bug => true
  | error => true
  | warning => false

/-- The name of a severity. -/
def name : Severity → String
  | bug => "Bug"
  | error => "Error"
  | warning => "Warning"

end Severity

/-- Whether a label marks the cause or something related to it. -/
inductive LabelStyle where
  | primary
  | secondary
deriving DecidableEq

/-- A remark on a range of the source text. -/
structure Label where
  style : LabelStyle
  span : Span
  message : String
deriving DecidableEq

/-- A report on the source text or on a flow matrix. -/
structure Diagnostic where
  severity : Severity
  message : String
  labels : List Label := []
  notes : List String := []
deriving DecidableEq

namespace Diagnostic

/-- A diagnostic of severity `error` with the given message. -/
def error (message : String) : Diagnostic := { severity := .error, message }

/-- Attaches a label on the cause. -/
def withPrimary (d : Diagnostic) (span : Span) (message : String) : Diagnostic :=
  { d with labels := d.labels ++ [⟨.primary, span, message⟩] }

/-- Attaches a label on something related to the cause. -/
def withSecondary (d : Diagnostic) (span : Span) (message : String) : Diagnostic :=
  { d with labels := d.labels ++ [⟨.secondary, span, message⟩] }

/-- Attaches a note. -/
def withNote (d : Diagnostic) (note : String) : Diagnostic := { d with notes := d.notes ++ [note] }

/-- The start of the first label on the cause. -/
def position? (d : Diagnostic) : Option Nat :=
  (d.labels.find? fun l => l.style = .primary).map fun l => l.span.start

/-- A diagnostic in one line: its severity and its message. -/
def summary (d : Diagnostic) : String := d.severity.name ++ ": " ++ d.message

/-- The number of errors after `d` was reported, if there were `errors` before. -/
def countAfter (errors : Nat) (d : Diagnostic) : Nat :=
  if d.severity.isError then errors + 1 else errors

end Diagnostic

/-- What was reported on one source text, in order, and how much of it counts as an error. -/
structure Reporter where
  reported : List Diagnostic := []
  errors : Nat := 0
deriving DecidableEq

/-- Reports one more diagnostic. -/
def Reporter.emit (r : Reporter) (d : Diagnostic) : Reporter :=
  ⟨r.reported ++ [d], d.countAfter r.errors⟩

end ControlStore
