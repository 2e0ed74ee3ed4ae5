import FSharpWorkspace.Identity
import FSharpWorkspace.Text.Lines
/-!
# Solution files

A solution is read line by line for the projects it lists, never evaluated. A project line has four
quoted fields (`ProjectLine.ofLine?`); the third is the path of the project, with backslashes or
slashes. `Solution.members` keeps the entries that name F# projects; `Solution.render` writes a
solution that lists given projects.
-/

set_option autoImplicit false

namespace FSharpWorkspace

/-! ## Project lines -/

/-- The fields of a project line. -/
structure ProjectLine where
  type : List Char
  name : List Char
  path : List Char
  guid : List Char
deriving DecidableEq, Repr

/-- A field up to its closing quote, and what follows the quote. -/
def quotedField? (text : List Char) : Option (List Char × List Char) :=
  match text.dropWhile (· ≠ '"') with
  | [] => none
  | _ :: rest => some (text.takeWhile (· ≠ '"'), rest)

namespace ProjectLine

def ofLine? (line : List Char) : Option ProjectLine := do
  let (type, rest) ← (Text.afterStart? "Project(\"".toList line).bind quotedField?
  let (name, rest) ← (Text.afterStart? ") = \"".toList rest).bind quotedField?
  let (path, rest) ← (Text.afterStart? ", \"".toList rest).bind quotedField?
  let (guid, rest) ← (Text.afterStart? ", \"".toList rest).bind quotedField?
  if rest = [] then some ⟨type, name, path, guid⟩ else none

def text (l : ProjectLine) : List Char :=
  "Project(\"".toList ++ l.type ++ "\") = \"".toList ++ l.name ++ "\", \"".toList ++ l.path ++
    "\", \"".toList ++ l.guid ++ ['"']

end ProjectLine

namespace Solution

/-! ## Reading -/

/-- The path of an F# project on a line, with slashes. -/
def entry? (line : String) : Option Path := do
  let fields ← ProjectLine.ofLine? (Text.trim line.toList)
  if ".fsproj".toList.isSuffixOf fields.path then
    some ⟨Text.replaceChar '\\' '/' (String.ofList fields.path)⟩
  else none

/-- The F# projects that a solution in the directory `dir` lists. -/
def members (locate : Path → Location) (dir : Path) (text : String) : List Identity :=
  (Text.lines text).filterMap fun line => do
    let relative ← entry? line
    let id ← (Identity.of locate (dir.join relative)).toOption
    if id.kind = .project then some id else none

/-! ## Writing -/

def header : String := "Microsoft Visual Studio Solution File, Format Version 12.00"

def projectType : String := "\x7bF2A71F9B-5D33-465A-A702-920D77279786\x7d"

/-- The entry of the project at position `i`. -/
def line (i : Nat) (project : String) : ProjectLine :=
  { type := projectType.toList
    name := ((Path.stem? ⟨project⟩).getD "Project").toList
    path := (Text.replaceChar '/' '\\' project).toList
    guid := ("\x7b" ++ toString i ++ "\x7d").toList }

def renderLines (projects : List String) : List String :=
  header :: (projects.mapIdx fun i project =>
    [String.ofList (line i project).text, "EndProject"]).flatten

def render (projects : List String) : String :=
  String.join ((renderLines projects).map (· ++ "\n"))

end Solution

end FSharpWorkspace
