import FSharpWorkspace.Text.Lines
import FSharpWorkspace.Workspace
/-!
# Load directives of scripts

A script names the files it loads in `#load` directives: `directives` reads the non-empty
quoted literals of every line that starts with `#load`. `LoadWalk.check` follows them. The
files come out in load order: a loaded file stands before the file that loads it, and the
script itself stands last.
-/

set_option autoImplicit false

namespace FSharpWorkspace

/-! ## Literals -/

/-- The literals on a line: a quote, at least one other character, a quote. A quote that opens no
literal is passed over, and the one that would have closed an empty literal may open the next. -/
def quotedLiterals : List Char → List (List Char)
  | [] => []
  | c :: rest =>
    if c = '"' then
      match _shorter : rest.dropWhile (· ≠ '"') with
      | [] => []
      | _ :: after =>
        if rest.takeWhile (· ≠ '"') = [] then quotedLiterals rest
        else rest.takeWhile (· ≠ '"') :: quotedLiterals after
    else quotedLiterals rest
termination_by line => line.length
decreasing_by
  · simp
  · have := (List.dropWhile_suffix (fun c => c ≠ '"') (l := rest)).length_le
    rw [_shorter] at this
    simp only [List.length_cons] at this ⊢
    omega
  · simp

/-- What follows `#load` on a line that starts with it. -/
def loadRest? (line : String) : Option (List Char) :=
  Text.afterStart? "#load".toList (Text.trimStart line.toList)

def loadDirectives (source : String) : List String :=
  ((Text.lines source).filterMap loadRest?).flatMap fun rest =>
    (quotedLiterals rest).map String.ofList

/-! ## The walk -/

/-- A file that could not be loaded. -/
structure LoadFailure where
  loader : Path
  name : String
  fault : ReadFault
deriving DecidableEq, Repr

def LoadFailure.message (f : LoadFailure) : String :=
  f.loader.text ++ ": cannot load `" ++ f.name ++ "`: " ++ f.fault.message

/-- The state of a walk along load directives. -/
structure LoadWalk where
  /-- The files met so far, readable or not. -/
  entered : List Location
  /-- The files loaded so far, in load order. -/
  loaded : List Location
  failures : List LoadFailure
deriving Repr

namespace LoadWalk

/-- Follows the directives of a loader that lies in `dir`, in order. A file is entered once; a
readable one is followed in its turn, at most `depth` loads deep. -/
def follow (place : Location → Path → Location) (read : Location → Except ReadFault String) :
    Nat → Path → Location → List String → LoadWalk → LoadWalk
  | 0, _, _, _, walk => walk
  | depth + 1, loader, dir, names, walk =>
    names.foldl
      (fun walk name =>
        let there := place dir ⟨name⟩
        if walk.entered.contains there then walk
        else
          let walk := { walk with entered := there :: walk.entered }
          match read there with
          | .error fault => { walk with failures := walk.failures ++ [⟨loader, name, fault⟩] }
          | .ok text =>
            let walk := follow place read depth there.path there.dir (loadDirectives text) walk
            { walk with loaded := walk.loaded ++ [there] })
      walk

def flags : List String := ["--noframework"]

/-- Follows the directives of a script with the text `source`, which lies in `dir`. -/
def check (place : Location → Path → Location) (read : Location → Except ReadFault String)
    (depth : Nat) (script : Path) (dir : Location) (source : String) : LoadWalk :=
  follow place read depth script dir (loadDirectives source)
    ⟨(Location.ofPath? script).toList, [], []⟩

end LoadWalk

end FSharpWorkspace
