import FSharpWorkspace.CommandLine.Arguments
/-!
# Help

What the program says about itself: the pages of its manual (`Page.text`), its version, and
the message that a wrong command line gets. A page lists names in one column and what they
mean in the next one.
-/

set_option autoImplicit false

namespace FSharpWorkspace.CommandLine

def programName : String := "fsls"

def version : String := "0.1.0"

/-! ## Descriptions -/

def Command.about : Command → String
  | options => "Print the options of the script or project that compiles a file"
  | deps => "Print a project and everything it references, dependencies first"
  | projects => "Resolve every known project and print them in dependency order"
  | visible => "Report whether one source file can see another"

/-- The files that a command takes, with what they are. -/
def Command.placeRows : Command → List (String × String)
  | options => [("<FILE>", "Source file, script, or project file to look up")]
  | deps => [("<PROJECT>", "Script or project file")]
  | projects => []
  | visible => [("<TARGET>", "File whose declarations are looked for")]

theorem Command.places_eq (c : Command) : c.places = c.placeRows.map (·.1) := by cases c <;> rfl

/-- The options of every level, with what they do. -/
def sharedRows : List (String × String) :=
  [("    --root <DIR>", "Workspace root to scan. Defaults to the current directory"),
    ("    --json", "Print machine-readable JSON"), ("-q, --quiet", "Only log errors"),
    ("-v, --verbose...", "Use verbose output. Repeat for trace logging"),
      ("-h, --help", "Print help")]

/-- The options of a level, with what they do. -/
def Level.rows : Level → List (String × String)
  | program => sharedRows ++ [("-V, --version", "Print version")]
  | command .visible => ("    --from <FROM>", "File doing the looking") :: sharedRows
  | command _ => sharedRows

def helpAbout : String := "Print this message or the help of the given subcommand(s)"

def about : String := "Inspect F# workspaces: project options, dependency order, visibility"

/-! ## Pages -/

def Level.usage : Level → String
  | program => programName ++ " [OPTIONS] <COMMAND>"
  | command c =>
    let from_ := if c = .visible then ["--from <FROM>"] else []
    String.intercalate " " ([programName, c.name, "[OPTIONS]"] ++ from_ ++ c.places)

/-- A headed table of two columns; nothing, if it has no rows. -/
def table (heading : String) (rows : List (String × String)) : String :=
  let width := (rows.map (·.1.length)).foldl max 0
  let line (row : String × String) : String :=
    "  " ++ row.1.pushn ' ' (width - row.1.length) ++ "  " ++ row.2 ++ "\n"
  if rows.isEmpty then "" else "\n" ++ heading ++ ":\n" ++ String.join (rows.map line)

/-- A page: what a thing is for, how it is used, and tables. -/
def page (about usage : String) (tables : List String) : String :=
  about ++ "\n\nUsage: " ++ usage ++ "\n" ++ String.join tables

def Page.text : Page → String
  | program =>
    page CommandLine.about Level.program.usage
      [table "Commands" (Command.all.map (fun c => (c.name, c.about)) ++ [("help", helpAbout)]),
        table "Options" Level.program.rows]
  | command c =>
    page c.about (Level.command c).usage
      [table "Arguments" c.placeRows, table "Options" (Level.command c).rows]
  | help =>
    page helpAbout (programName ++ " help [COMMAND]...")
      [table "Arguments" [("[COMMAND]...", "Print help for the subcommand(s)")]]

def UsageFault.text (f : UsageFault) : String :=
  "error: " ++ f.message ++ "\n\nUsage: " ++ Level.program.usage ++
    "\n\nFor more information, try '--help'.\n"

end FSharpWorkspace.CommandLine
