import FSharpWorkspace.Json.Printer
import FSharpWorkspace.Resolution
/-!
# Reports

What a request answers: a status, the text of the answer, and a text about what went wrong. Every
thing that an answer shows has two views, lines for a reader and a JSON value for a program.
-/

set_option autoImplicit false

namespace FSharpWorkspace.CommandLine

/-- What the program leaves behind. -/
structure Report where
  /-- Zero for success. -/
  status : Nat
  output : String
  errors : String
deriving DecidableEq, Repr

namespace Report

def ofLines (lines : List String) : String := String.join (lines.map (· ++ "\n"))

def success (lines : List String) : Report := ⟨0, ofLines lines, ""⟩

/-- An answer that shows trouble, with a closing remark. -/
def trouble (lines : List String) (remark : String) : Report := ⟨1, ofLines lines, remark ++ "\n"⟩

/-- No answer: what was being done, from the outside in, and why it failed. -/
def failure (reasons : List String) : Report :=
  ⟨1, "", "Error: " ++ String.intercalate ": " reasons ++ "\n"⟩

def counted (n : Nat) (one several : String) : String :=
  toString n ++ " " ++ if n = 1 then one else several

end Report

/-! ## Views for a reader -/

def headed (heading : String) (lines : List String) : List String :=
  (heading ++ ":") :: lines.map ("  " ++ ·)

/-- A referenced project, with the artifact that it had. -/
def referenceLine (reference : Option Location × Resolution) : String :=
  match reference with
  | (some output, r) => r.id.text ++ " -> " ++ output.text
  | (none, r) => r.id.text

/-- The options of one script or project. -/
def optionLines (r : Resolution) : List String :=
  ["project: " ++ r.id.text] ++ (r.target.toList.map fun target => "target: " ++ target.text) ++
    headed "sources" (r.sources.map (·.text)) ++ headed "flags" r.flags ++
    if r.references.isEmpty then [] else headed "references" (r.references.map referenceLine)

def diagnosticLines (ds : List Diagnostic) : List String :=
  ds.map fun d => d.kind.name ++ ": " ++ d.text

def orderLines (order : List Resolution) : List String :=
  order.flatMap fun r => r.id.text :: r.diagnostics.map fun d =>
    "  " ++ d.kind.name ++ ": " ++ d.message

/-! ## Views for a program -/

open Json (Value)

def placeValue (l : Location) : Value := .text l.text

def identityValue (id : Identity) : Value :=
  .object [("path", placeValue id.location), ("kind", .text id.kind.name)]

def diagnosticValue (d : Diagnostic) : Value :=
  .object [("kind", .text d.kind.name), ("file", .text d.file.text), ("message", .text d.message)]

/-- A referenced project, by its place alone. -/
def referenceValue (reference : Option Location × Resolution) : Value :=
  .object [("output", .optional placeValue reference.1),
    ("project", placeValue reference.2.id.location)]

/-- The options of one script or project. -/
def optionsValue (r : Resolution) : Value :=
  .object [("id", identityValue r.id), ("sources", .listOf placeValue r.sources),
    ("flags", .listOf .text r.flags),
    ("references", .listOf referenceValue r.references), ("target", .optional placeValue r.target),
    ("diagnostics", .listOf diagnosticValue r.diagnostics)]

def diagnosticsValue (ds : List Diagnostic) : Value :=
  .object [("diagnostics", .listOf diagnosticValue ds)]

/-- Whether one file can see another; the files as they were spelled. -/
def visibilityValue (target from_ : Path) (visible : Bool) : Value :=
  .object [("target", .text target.text), ("from", .text from_.text), ("visible", .flag visible)]

end FSharpWorkspace.CommandLine
