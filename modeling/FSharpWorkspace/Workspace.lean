import FSharpWorkspace.Cache.Basic
import FSharpWorkspace.CrackReport
import FSharpWorkspace.Index
import FSharpWorkspace.Resolution
/-!
# The workspace and what surrounds it

A `Workspace` owns the cache of resolutions and the index of known files; `outside` is the state of
everything it talks to. `Surroundings` says how it talks: which place a spelling names, what a file
holds, when it was written, and what cracking a project reports. Cracking is an action on the whole
workspace, because a cracker may call back: apply change events, or even ask for other projects,
while the project that it cracks is in progress.

An action ends with a value, or it is interrupted: by a panic, or because resolutions nest deeper
than allowed. An interrupted action keeps what it changed before.
-/

set_option autoImplicit false

namespace FSharpWorkspace

/-! ## Reading files -/

/-- Why a file cannot be read. -/
inductive ReadFault where
  /-- A file system in memory has no such file. -/
  | missing (p : Path)
  | noEntry
  | notADirectory
  | isADirectory
  | linkLoop
  | nameTooLong
  | holdsNul
  | notUtf8
deriving DecidableEq, Repr

def ReadFault.message : ReadFault → String
  | missing p => "File not found: " ++ p.text
  | noEntry => "No such file or directory (os error 2)"
  | notADirectory => "Not a directory (os error 20)"
  | isADirectory => "Is a directory (os error 21)"
  | linkLoop => "Too many levels of symbolic links (os error 40)"
  | nameTooLong => "File name too long (os error 36)"
  | holdsNul => "file name contained an unexpected NUL byte"
  | notUtf8 => "stream did not contain valid UTF-8"

/-! ## State and actions -/

structure Workspace (σ : Type) where
  cache : Cache Resolution
  index : Index
  /-- How many results were made so far; the next one gets this stamp. -/
  made : Nat
  outside : σ

def Workspace.fresh {σ : Type} (outside : σ) : Workspace σ := ⟨.empty, .empty, 0, outside⟩

/-- Why an action ends without a value. -/
inductive Interrupt where
  | panic
  /-- Resolutions nest deeper than allowed. -/
  | nesting
  /-- The only thread waits for another one. -/
  | stuck
deriving DecidableEq, Repr

abbrev Act (σ α : Type) := EStateM Interrupt (Workspace σ) α

namespace Act

variable {σ α : Type}

def cache : Act σ (Cache Resolution) := do return (← get).cache

def index : Act σ Index := do return (← get).index

def outside : Act σ σ := do return (← get).outside

def modifyCache (f : Cache Resolution → Cache Resolution) : Act σ Unit :=
  modify fun w => { w with cache := f w.cache }

def modifyIndex (f : Index → Index) : Act σ Unit := modify fun w => { w with index := f w.index }

def modifyOutside (f : σ → σ) : Act σ Unit := modify fun w => { w with outside := f w.outside }

/-- A stamp that no other result has. -/
def newStamp : Act σ Nat := modifyGet fun w => (w.made, { w with made := w.made + 1 })

/-- Asks the cache for a file on behalf of the only thread. -/
def request (id : Identity) : Act σ (Request Resolution) :=
  modifyGet fun w =>
    let (answer, cache) := w.cache.start 0 id
    (answer, { w with cache })

/-- Runs the supplier of the entry with serial `s`: its value goes to the entry, and an interrupted
supplier leaves the entry uncomputed. -/
def computing (s : Serial) (supplier : Act σ Resolution) : Act σ Resolution := fun w =>
  match supplier w with
  | .ok r w => .ok r { w with cache := w.cache.finish s r Resolution.derivedFrom }
  | .error e w => .error e { w with cache := w.cache.abandon s }

end Act

/-! ## Surroundings -/

/-- How a workspace talks to its surroundings. -/
structure Surroundings (σ : Type) where
  /-- The place that a spelling names. -/
  locate : σ → Path → Location
  /-- The text of a file. -/
  read : σ → Location → Except ReadFault String
  /-- When a file was last written. -/
  modified : σ → Location → Option Nat
  /-- What cracking the project at a place reports. -/
  crack : Location → Act σ CrackReport
  /-- How deep resolutions may nest. -/
  depth : σ → Nat

namespace Surroundings

variable {σ : Type} (env : Surroundings σ)

def place (p : Path) : Act σ Location := do return env.locate (← Act.outside) p

def text (l : Location) : Act σ (Except ReadFault String) := do return env.read (← Act.outside) l

def placeFrom (dir : Location) (relative : Path) : Act σ Location :=
  env.place (dir.path.join relative)

def identify (p : Path) : Act σ (Except Misuse Identity) := do
  return Identity.of (env.locate (← Act.outside)) p

end Surroundings

end FSharpWorkspace
