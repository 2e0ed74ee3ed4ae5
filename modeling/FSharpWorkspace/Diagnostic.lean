import FSharpWorkspace.Path
/-!
# Diagnostics

Trouble in the state of the workspace: a project that the cracker refuses, a script that loads a
missing file, a source that nobody compiles, a circle of references. It is a value attached to
the file it concerns.
-/

set_option autoImplicit false

namespace FSharpWorkspace

/-- What kind of trouble a diagnostic reports. -/
inductive DiagnosticKind where
  /-- The cracker reported an error for a project. -/
  | crackFailed
  /-- A script or a file that it loads could not be read. -/
  | scriptCheck
  /-- No known script or project lists the file. -/
  | noOwner
  /-- A project reference closes a circle. -/
  | cyclicReference
deriving DecidableEq, Repr

def DiagnosticKind.name : DiagnosticKind → String
  | crackFailed => "crack-failed"
  | scriptCheck => "script-check"
  | noOwner => "no-owner"
  | cyclicReference => "cyclic-reference"

def DiagnosticKind.ofName? : String → Option DiagnosticKind
  | "crack-failed" => some crackFailed
  | "script-check" => some scriptCheck
  | "no-owner" => some noOwner
  | "cyclic-reference" => some cyclicReference
  | _ => none

structure Diagnostic where
  kind : DiagnosticKind
  file : Path
  message : String
deriving DecidableEq, Repr

def Diagnostic.text (d : Diagnostic) : String := d.file.text ++ ": " ++ d.message

end FSharpWorkspace
