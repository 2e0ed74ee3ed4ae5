import FSharpWorkspace.Path
import FSharpWorkspace.Text.Utf8
import FSharpWorkspace.Workspace
/-!
# Disks

A `Disk` holds files, directories and symbolic links, each at a place. `Disk.walk` follows a
spelling piece by piece as a system call does: every piece is looked up in a directory, a link is
replaced by its target, and only forty links are followed. `Disk.locate` is the place that a
spelling names: where the walk ends, or, where there is nothing, the place that the spelling has
by its dots alone.
-/

set_option autoImplicit false

namespace FSharpWorkspace

inductive Item where
  | file (bytes : List UInt8)
  | directory
  | link (target : String)
deriving DecidableEq, Repr

/-- The items of a disk. The root is always a directory. -/
structure Disk where
  items : List (Location × Item)
deriving Repr

namespace Disk

def empty : Disk := ⟨[]⟩

def item? (d : Disk) (l : Location) : Option Item :=
  if l.names.isEmpty then some .directory else d.items.lookup l

def isDirectory (d : Disk) (l : Location) : Bool := d.item? l = some .directory

/-- The names in the directory at a place, in order. -/
def namesIn (d : Disk) (l : Location) : List String :=
  let inside :=
    d.items.filterMap fun (there, _) => if there.parent? = some l then there.fileName? else none
  inside.mergeSort fun a b => a ≤ b

/-! ## Walking -/

/-- How many links one walk may follow. -/
def linkLimit : Nat := 40

def nameLimit : Nat := 255

def pathLimit : Nat := 4095

def pieces (text : String) : List (List Char) := Text.splitOn '/' text.toList

/-- Where a spelling starts to be read. -/
def startOf (text : String) (from_ : Location) : Location :=
  if text.toList.head? = some '/' then .root else from_

/-- Follows pieces from a place. With every piece, even an empty one, the walk must
stand in a directory. -/
def walk (d : Disk) (links : Nat) (l : Location) (ps : List (List Char)) :
    Except ReadFault Location :=
  match ps with
  | [] => .ok l
  | piece :: rest =>
    if !d.isDirectory l then .error .notADirectory
    else if piece = [] ∨ piece = ['.'] then walk d links l rest
    else if piece = ['.', '.'] then walk d links l.dir rest
    else
      let name := String.ofList piece
      if name.utf8ByteSize > nameLimit then .error .nameTooLong
      else
        match d.item? (l.child name) with
        | none => .error .noEntry
        | some (.link target) =>
          match links with
          | 0 => .error .linkLoop
          | links + 1 => walk d links (startOf target l) (pieces target ++ rest)
        | some _ => walk d links (l.child name) rest
termination_by (links, ps.length)

/-- The place of the item that a spelling reaches from the directory `from_`. -/
def resolve (d : Disk) (from_ : Location) (p : Path) : Except ReadFault Location :=
  if p.text.toList.contains '\x00' then .error .holdsNul
  else if p.text.isEmpty then .error .noEntry
  else if p.text.utf8ByteSize > pathLimit then .error .nameTooLong
  else d.walk linkLimit (startOf p.text from_) (pieces p.text)

/-- The place of the item that a spelling names from the directory `from_`, which may be
a link at its end. -/
def entry (d : Disk) (from_ : Location) (p : Path) : Except ReadFault Location :=
  match p.fileName?, (pieces p.text).getLast? with
  | some name, some last =>
    if last = name.toList then do
      let dir ← d.resolve from_
        ⟨String.ofList ((p.text.toList.take (p.text.length - last.length))) ++ "."⟩
      if name.utf8ByteSize > nameLimit then .error .nameTooLong
      else if (d.item? (dir.child name)).isSome then .ok (dir.child name)
      else .error .noEntry
    else d.resolve from_ p
  | _, _ => d.resolve from_ p

/-- The place that a spelling names when it is read from the directory `from_`. -/
def locate (d : Disk) (from_ : Location) (p : Path) : Location :=
  match d.resolve from_ p with
  | .ok l => l
  | .error _ => from_.reach p

/-! ## Reading -/

/-- The bytes of a file. -/
def readBytes (d : Disk) (from_ : Location) (p : Path) : Except ReadFault (List UInt8) := do
  let l ← d.resolve from_ p
  match d.item? l with
  | some (.file bytes) => .ok bytes
  | _ => .error .isADirectory

/-- The text of a file. -/
def read (d : Disk) (from_ : Location) (p : Path) : Except ReadFault String := do
  match Utf8.decode? (← d.readBytes from_ p) with
  | some text => .ok text
  | none => .error .notUtf8

def reaches (d : Disk) (from_ : Location) (p : Path) : Bool := (d.resolve from_ p).toOption.isSome

/-- Whether a spelling reaches a directory. -/
def reachesDirectory (d : Disk) (from_ : Location) (p : Path) : Bool :=
  match d.resolve from_ p with
  | .ok l => d.isDirectory l
  | .error _ => false

/-! ## Writing -/

def put (d : Disk) (l : Location) (item : Item) : Disk := ⟨(l, item) :: d.items.filter (·.1 ≠ l)⟩

/-- The disk with the directories on the way to a place, and the place that the way leads to. -/
def makeDirectories (d : Disk) (from_ : Location) : List String → Disk × Location
  | [] => (d, from_)
  | name :: rest =>
    match d.resolve from_ ⟨name⟩ with
    | .ok l => makeDirectories d l rest
    | .error _ => makeDirectories (d.put (from_.child name) .directory) (from_.child name) rest

/-- The names of a spelling. -/
def namesOf (p : Path) : List String :=
  p.components.filterMap fun
    | .name n => some n
    | _ => none

/-- The disk with an item at a spelling below `top`, and with the directories on the way to it. A
link at the end is followed by a file and replaced by any other item. -/
def write (d : Disk) (top : Location) (p : Path) (item : Item) : Disk :=
  let names := namesOf p
  match names.getLast? with
  | none => d
  | some name =>
    let (d, dir) := d.makeDirectories top names.dropLast
    match item with
    | .directory => (d.makeDirectories dir [name]).1
    | .link target => d.put (dir.child name) (.link target)
    | .file bytes =>
      match d.resolve dir ⟨name⟩, d.item? (dir.child name) with
      | .ok l, _ => d.put l (.file bytes)
      | .error _, some (.link target) => d.put ((startOf target dir).reach ⟨target⟩) (.file bytes)
      | .error _, _ => d.put (dir.child name) (.file bytes)

/-- The disk without the file or link that a spelling names, if there is one. -/
def remove (d : Disk) (from_ : Location) (p : Path) : Option Disk :=
  match d.entry from_ p with
  | .error _ => none
  | .ok l => if d.isDirectory l then none else some ⟨d.items.filter (·.1 ≠ l)⟩

/-! ## Small lemmas -/

theorem item?_put_self (d : Disk) {l : Location} (item : Item) (h : l.names.isEmpty = false) :
    (d.put l item).item? l = some item := by
  simp [item?, put, h]

theorem locate_of_resolve {d : Disk} {from_ l : Location} {p : Path}
    (h : d.resolve from_ p = .ok l) :
    d.locate from_ p = l := by
  simp [locate, h]

end Disk

end FSharpWorkspace
