import FSharpWorkspace.CrackReport
import FSharpWorkspace.Json.Reader
/-!
# Crack reports in JSON

A cracker writes its report as an object, whose unknown fields are passed over, or as a list of
the fields in their order, which may end early. Fields that are missing have their default. No
field may occur twice.
-/

set_option autoImplicit false

namespace FSharpWorkspace.CrackReport

open Json

/-! ## Fields -/

inductive Field where
  | sources
  | target
  | projectReferences
  | otherReferences
  | packageReferences
  | directReferences
  | error
deriving DecidableEq, Repr

namespace Field

def all : List Field :=
  [sources, target, projectReferences, otherReferences, packageReferences, directReferences, error]

def name : Field → String
  | sources => "sources"
  | target => "target"
  | projectReferences => "projectReferences"
  | otherReferences => "otherReferences"
  | packageReferences => "packageReferences"
  | directReferences => "directReferences"
  | error => "error"

def ofName? (name : String) : Option Field := all.find? (·.name = name)

theorem ofName?_name (f : Field) : ofName? f.name = some f := by cases f <;> rfl

def path : Reader Path := return ⟨← Reader.stringValue "a UTF-8 path string"⟩

/-- Reads the value of a field into a report. -/
def read (f : Field) (r : CrackReport) : Reader CrackReport := do
  match f with
  | sources => return { r with sources := ← Reader.list path }
  | target => return { r with target := ← Reader.optional path }
  | projectReferences => return { r with projectReferences := ← Reader.list path }
  | otherReferences => return { r with otherReferences := ← Reader.list path }
  | packageReferences => return { r with packageReferences := ← Reader.list path }
  | directReferences => return { r with directReferences := ← Reader.list path }
  | error => return { r with error := ← Reader.optional (Reader.stringValue "a string") }

end Field

/-! ## Reports -/

/-- Reads the fields of an object. Every round takes a byte. -/
def readFields : Nat → List Field → Bool → CrackReport → Reader CrackReport
  | 0, _, _, _ => Reader.fail .endInObject
  | rounds + 1, seen, first, r => do
    if !(← Reader.hasField first) then return r
    Reader.skip
    match Field.ofName? (← Reader.string) with
    | none =>
      Reader.colon
      Reader.skipValue
      readFields rounds seen false r
    | some f =>
      if seen.contains f then Reader.repeated f.name
      Reader.colon
      readFields rounds (f :: seen) false (← f.read r)

/-- Reads the elements of a list of fields. -/
def readElements : List Field → Bool → CrackReport → Reader CrackReport
  | [], _, r => return r
  | f :: rest, first, r => do
    if ← Reader.hasElement first then readElements rest false (← f.read r) else return r

def read : Reader CrackReport := do
  match ← Reader.peekToken with
  | none => Reader.fail .endInValue
  | some '[' =>
    Reader.skip
    let r ← readElements Field.all true {}
    Reader.listEnd
    return r
  | some '\x7b' =>
    Reader.skip
    let r ← readFields ((← get).length + 1) [] true {}
    Reader.objectEnd
    return r
  | some _ => Reader.wrongType "struct CrackedProject"

/-- The report that some bytes hold, with nothing after it. -/
def ofJson? (bytes : List UInt8) : Except Fault CrackReport :=
  (do let r ← read; Reader.textEnd; return r : Reader CrackReport).run' bytes

end FSharpWorkspace.CrackReport
