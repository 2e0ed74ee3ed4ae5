import FSharpWorkspace.CommandLine.Report
import FSharpWorkspace.CommandLine.Usage
import FSharpWorkspace.Machine
import FSharpWorkspace.Workspace.Query
/-!
# Running the command line

A request is answered against a workspace that knows what a scan of its root finds. `Query.answer`
makes sense in any surroundings; `Request.report` makes the workspace from a disk and its settings
first. Trouble with the files themselves is part of an answer; only misuse of a command, and a root
that cannot be used, end without one.
-/

set_option autoImplicit false

namespace FSharpWorkspace.CommandLine

/-! ## Queries -/

section Queries

variable {σ : Type} (env : Surroundings σ) (json : Bool)

/-- The lines of an answer: those for a reader, or the value for a program. -/
def shown (lines : List String) (value : Json.Value) : List String :=
  if json then [value.print] else lines

def shownOrder (order : List Resolution) : List String :=
  shown json (orderLines order) (.listOf optionsValue order)

/-- The options of the script or project that compiles a file. -/
def answerOptions (file : Path) : Act σ Report := do
  match ← Act.owner env file with
  | .ok r => return .success (shown json (optionLines r) (optionsValue r))
  | .error ds =>
    return .trouble (shown json (diagnosticLines ds) (diagnosticsValue ds))
      ("Found " ++ Report.counted ds.length "diagnostic" "diagnostics" ++ ".")

/-- A script or project and everything that it references. -/
def answerDeps (project : Path) : Act σ Report := do
  match ← env.identify project with
  | .error m => return .failure [m.message]
  | .ok id =>
    match ← Act.dependenciesOf env id with
    | .ok order => return .success (shownOrder json order)
    | .error m => return .failure ["Failed to resolve " ++ project.text, m.message]

/-- The report on an order. It shows trouble if something is wrong with one of its files. -/
def reportOn (order : List Resolution) : Report :=
  let broken := order.countP (·.hasDiagnostics)
  if broken = 0 then .success (shownOrder json order)
  else
    .trouble (shownOrder json order)
      (Report.counted broken "project" "projects" ++ " failed to resolve.")

/-- Every known script and project. -/
def answerProjects : Act σ Report := do
  match ← Act.allProjects env with
  | .ok order => return reportOn json order
  | .error m => return .failure [m.message]

/-- Whether one file can see another. -/
def answerVisible (target from_ : Path) : Act σ Report := do
  let visible ← Act.isVisible env target from_
  return .success
    (shown json [if visible then "true" else "false"] (visibilityValue target from_ visible))

def Query.answer : Query → Act σ Report
  | options file => answerOptions env json file
  | deps project => answerDeps env json project
  | projects => answerProjects env json
  | visible target from_ => answerVisible env json target from_

end Queries

/-! ## Requests -/

structure Host where
  disk : Disk
  /-- The working directory. -/
  directory : Location
  /-- The text of the settings of the user, if there are any. -/
  user : Option String
deriving Repr

/-- Registers what lies below the root, and answers a query. -/
def answerBelow (root : Location) (r : Request) : Act Machine Report := do
  match ← Machine.addRoot root.path with
  | .ok _ => r.query.answer Machine.surroundings r.json
  | .error m => return .failure ["Failed to scan " ++ root.text, m.message]

def interrupted : Report := ⟨101, "", ""⟩

def Request.report (h : Host) (r : Request) : Report :=
  let root := (r.root.map (h.disk.locate h.directory)).getD h.directory
  match Settings.load h.disk h.directory h.user root.path with
  | .error f => .failure ["Failed to load settings", f.fullMessage]
  | .ok settings =>
    match answerBelow root r (.fresh (.ofSettings h.disk h.directory settings)) with
    | .ok report _ => report
    | .error _ _ => interrupted

/-! ## Command lines -/

/-- What the program leaves behind where no request was made. -/
def Stop.report : Stop → Report
  | version => ⟨0, programName ++ " " ++ CommandLine.version ++ "\n", ""⟩
  | help page => ⟨0, page.text, ""⟩
  | fault f => ⟨2, "", f.text⟩

def run (h : Host) (words : List String) : Report :=
  match Request.ofArguments words with
  | .ok r => r.report h
  | .error stop => stop.report

end FSharpWorkspace.CommandLine
