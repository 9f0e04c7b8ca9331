import ZAssembler.Problem

/-
  Diagnostics: a problem with its severity, the place it was found at, and notes and help for the
  reader.
-/

namespace ZAssembler

inductive Severity
  | warning | error | fatal
  deriving DecidableEq, Repr

def Severity.text : Severity → String
  | warning => "warning"
  | error => "error"
  | fatal => "fatal"

structure Diagnostic where
  severity : Severity
  problem : Problem
  location : Option Location := none
  /-- A code that stands for the one of the problem's kind. -/
  ownCode : Option String := none
  notes : List String := []
  help : List String := []
  deriving DecidableEq, Repr

namespace Diagnostic

def code (d : Diagnostic) : String := d.ownCode.getD d.problem.kind.code

def message (d : Diagnostic) : String := d.problem.message

def isError (d : Diagnostic) : Bool := d.severity != .warning

def severityWord : Severity → String
  | .warning => "WARNING"
  | .error => "ERROR"
  | .fatal => "FATAL"

/-- The diagnostic as text: place, severity, code and message, then notes, then help. -/
def text (d : Diagnostic) : String :=
  let place := match d.location with
    | some l => s!"{l.text}: "
    | none => ""
  let opening := s!"{place}{severityWord d.severity} [{d.code}] - {d.message}"
  let notes := d.notes.map ("\nnote: " ++ ·)
  let help := d.help.map ("\nhelp: " ++ ·)
  opening ++ String.join notes ++ String.join help

end Diagnostic

/-- How many of the diagnostics are not warnings. -/
def errorCount (ds : List Diagnostic) : Nat := ds.countP Diagnostic.isError

/-- The first diagnostic that is not a warning. -/
def firstError? (ds : List Diagnostic) : Option Diagnostic := ds.find? Diagnostic.isError

end ZAssembler
