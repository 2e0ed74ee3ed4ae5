import FSharpWorkspace.Ignore.Level
/-!
# Scanning a directory

`scan` lists the scripts, projects and solutions below a directory. Hidden entries, ignored ones and
directories of build output are left out, links are followed only on request, and then never to a
directory that the walk is in. The answer has every file once, in the order of places.
-/

set_option autoImplicit false

namespace FSharpWorkspace

structure ScanOptions where
  /-- Include entries whose names start with a dot. -/
  hidden : Bool := false
  /-- Do not read ignore files. -/
  noIgnore : Bool := false
  followLinks : Bool := false
  /-- How deep to descend; without a limit if absent. -/
  maxDepth : Option Nat := none
deriving DecidableEq, Repr

namespace Disk

/-! ## Entries -/

def isHidden (name : String) : Bool := name.toList.head? = some '.'

def buildOutput : List String := ["bin", "obj"]

/-- Whether a scan leaves out an entry of a directory below some levels. A rule that keeps an entry
keeps it even if it is hidden. -/
def leavesOut (o : ScanOptions) (levels : List Level) (name : String) (isDirectory : Bool) : Bool :=
  let hides := !o.hidden && isHidden name
  let skipped := match if o.noIgnore then none else Level.judge levels name isDirectory with
    | some .ignored => true
    | some .kept => false
    | none => hides
  skipped || (isDirectory && buildOutput.contains name)

/-- The place of what a name in a directory stands for. A link that is not followed stands for
nothing, and so does one to a directory that the walk is in. -/
def entryPlace? (d : Disk) (o : ScanOptions) (within : List Location) (dir : Location)
    (name : String) :
    Option Location :=
  match d.item? (dir.child name) with
  | some (.link _) =>
    if o.followLinks then (d.resolve dir ⟨name⟩).toOption.filter fun l => !within.contains l
    else none
  | some _ => some (dir.child name)
  | none => none

/-! ## Walking -/

/-- The spellings of the files below the directory at `dir`, which is spelled `spelling`. `within`
are the directories that the walk is in; `rounds` bounds its depth, in which a link leads to a new
directory each time. -/
def filesBelow (d : Disk) (cwd : Location) (o : ScanOptions) :
    Nat → List Location → List Level → Location → Path → List Path
  | 0, _, _, _, _ => []
  | rounds + 1, within, levels, dir, spelling =>
    if o.maxDepth.any (· < within.length) then []
    else
      (d.namesIn dir).flatMap fun name =>
        match d.entryPlace? o within dir name with
        | none => []
        | some l =>
          let isDirectory := d.isDirectory l
          if leavesOut o levels name isDirectory then []
          else if !isDirectory then [spelling.join ⟨name⟩]
          else
            let levels :=
              if o.noIgnore then [] else Level.load d cwd l :: levels.map (Level.down name)
            filesBelow d cwd o rounds (l :: within) levels l (spelling.join ⟨name⟩)

/-- The spellings of the files at or below what a spelling reaches. -/
def filesAt (d : Disk) (cwd : Location) (o : ScanOptions) (top : Path) : List Path :=
  match d.resolve cwd top with
  | .error _ => []
  | .ok l =>
    if !d.isDirectory l then [top]
    else
      let levels :=
        if o.noIgnore then [] else Level.load d cwd l :: Level.loadAbove d cwd .root l.names
      d.filesBelow cwd o ((d.items.length + 2) * (d.items.length + 2)) [l] levels l top

/-- The scripts, projects and solutions at or below what a spelling reaches. -/
def scan (d : Disk) (cwd : Location) (top : Path) (o : ScanOptions) : List Identity :=
  Identity.sorted ((d.filesAt cwd o top).filterMap fun p => (Identity.of (d.locate cwd) p).toOption)

end Disk

end FSharpWorkspace
