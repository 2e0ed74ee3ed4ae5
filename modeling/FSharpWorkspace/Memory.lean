import FSharpWorkspace.Workspace.Resolve
/-!
# Surroundings in memory

A file system and a cracker that are tables. Files are kept under their spelling, compared step by
step, and every write advances a clock, so times of writing are all different. The cracker looks a
project up and counts how often it was asked. No place exists on a disk, so a spelling is read from
the root without regard to links.
-/

set_option autoImplicit false

namespace FSharpWorkspace

structure MemoryFile where
  path : Path
  content : String
  written : Nat
deriving Repr

/-- Files, crack reports, and how often each project was cracked. -/
structure Memory where
  files : List MemoryFile
  clock : Nat
  reports : List (Location × CrackReport)
  cracks : List (Location × Nat)
deriving Repr

namespace Memory

def empty : Memory := ⟨[], 0, [], []⟩

/-! ## Files -/

def file? (m : Memory) (p : Path) : Option MemoryFile := m.files.find? (·.path.same p)

/-- The memory in which `p` holds `content`, written just now. -/
def write (m : Memory) (p : Path) (content : String) : Memory :=
  { m with
    files := ⟨p, content, m.clock + 1⟩ :: m.files.filter (!·.path.same p)
    clock := m.clock + 1 }

def remove (m : Memory) (p : Path) : Memory := { m with files := m.files.filter (!·.path.same p) }

/-- The content of a file. -/
def read (m : Memory) (p : Path) : Except ReadFault String :=
  match m.file? p with
  | some f => .ok f.content
  | none => .error (.missing p)

def written? (m : Memory) (p : Path) : Option Nat := (m.file? p).map (·.written)

/-! ## Cracking -/

/-- The memory in which cracking the project at `l` gives `report`. -/
def setReport (m : Memory) (l : Location) (report : CrackReport) : Memory :=
  { m with reports := (l, report) :: m.reports.filter (·.1 ≠ l) }

def report (m : Memory) (l : Location) : CrackReport :=
  (m.reports.lookup l).getD (.failed ("Unknown project " ++ l.text))

def cracksOf (m : Memory) (l : Location) : Nat := (m.cracks.lookup l).getD 0

def countCrack (m : Memory) (l : Location) : Memory :=
  { m with cracks := (l, m.cracksOf l + 1) :: m.cracks.filter (·.1 ≠ l) }

def totalCracks (m : Memory) : Nat := m.cracks.foldl (fun n c => n + c.2) 0

def locate (p : Path) : Location := Location.root.reach p

/-- More than the resolutions, and the loads of scripts, can nest: each enters another file. -/
def depth (m : Memory) : Nat := m.files.length + m.reports.length + 2

/-- Surroundings in memory with a cracker that only looks up and counts. -/
def surroundings : Surroundings Memory where
  locate _ p := locate p
  read m l := m.read l.path
  modified m l := m.written? l.path
  crack l := do
    Act.modifyOutside (·.countCrack l)
    return (← Act.outside).report l
  depth := depth

/-- Follows the load directives of a script with the text `source` through the files in memory. -/
def checkScript (m : Memory) (script : Path) (source : String) : LoadWalk :=
  LoadWalk.check (fun dir r => locate (dir.path.join r)) (fun l => m.read l.path) m.depth script
    (locate (script.parent?.getD script)) source

end Memory

/-! ## Writing projects -/

namespace Authoring

/-- The text of a project that compiles `sources` and references `references`. -/
def projectText (sources references : List String) : String :=
  "<Project Sdk=\"Microsoft.NET.Sdk\">\n  <ItemGroup>\n" ++
    String.join (sources.map fun s => "    <Compile Include=\"" ++ s ++ "\" />\n") ++
    String.join (references.map fun r => "    <ProjectReference Include=\"" ++ r ++ "\" />\n") ++
    "  </ItemGroup>\n</Project>\n"

/-- The report on such a project, whose artifact is named after it. -/
def report (id : Identity) (sources references : List String) : CrackReport :=
  { sources := sources.map (⟨·⟩)
    target := some ⟨"bin/" ++ (id.location.fileName?.map FileName.stem).getD "Project" ++ ".dll"⟩
    projectReferences := references.map (⟨·⟩) }

end Authoring

end FSharpWorkspace
