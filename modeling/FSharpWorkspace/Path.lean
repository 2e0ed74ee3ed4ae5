import FSharpWorkspace.Text.Lines
/-!
# Paths and locations

A `Path` is a spelling: the text that a user, a project file or a directive wrote. Two spellings are
compared by their `Component`s, so `a//b/.` and `a/b` are one path, while `..` is kept because a
link may stand before it.

A `Location` is a place: the names on the way from the root. `Location.reach` walks from a place
along a spelling without looking at any disk; every name it adds is proper (`reach_proper`), so a
location that it builds has exactly one text.
-/

set_option autoImplicit false

namespace FSharpWorkspace

/-! ## Spellings -/

structure Path where
  text : String
deriving DecidableEq, Repr, Inhabited

/-- One step of a path. `here` occurs only at the start of a relative path. -/
inductive Component where
  | root
  | here
  | up
  | name (text : String)
deriving DecidableEq, Repr

namespace Component

def text : Component → String
  | root => "/"
  | here => "."
  | up => ".."
  | name n => n

/-- Position of the kinds of step in the order of paths. -/
def rank : Component → Nat
  | root => 0
  | here => 1
  | up => 2
  | name _ => 3

/-- The step that a piece between two slashes stands for, if it is one. -/
def ofPiece? : List Char → Option Component
  | [] => none
  | ['.'] => none
  | ['.', '.'] => some up
  | piece => some (name (String.ofList piece))

end Component

namespace Path

/-- The steps of a path. Repeated and final slashes and inner dots add none. -/
def components (p : Path) : List Component :=
  match Text.splitOn '/' p.text.toList with
  | [] => []
  | [[]] => []
  | [] :: pieces => .root :: pieces.filterMap Component.ofPiece?
  | ['.'] :: pieces => .here :: pieces.filterMap Component.ofPiece?
  | pieces => pieces.filterMap Component.ofPiece?

def same (p q : Path) : Bool := p.components == q.components

def isAbsolute (p : Path) : Bool := p.text.toList.head? == some '/'

def textOf : List Component → String
  | [] => ""
  | [c] => c.text
  | .root :: rest => "/" ++ textOf rest
  | c :: rest => c.text ++ "/" ++ textOf rest

def ofComponents (steps : List Component) : Path := ⟨textOf steps⟩

/-- `r` read from the directory `d`; an absolute `r` starts anew. -/
def join (d r : Path) : Path :=
  if r.isAbsolute then r
  else if d.text.isEmpty || d.text.toList.getLast? == some '/' then ⟨d.text ++ r.text⟩
  else ⟨d.text ++ "/" ++ r.text⟩

/-- The path without its last step; the root and the empty path have no parent. -/
def parent? (p : Path) : Option Path :=
  match p.components.getLast? with
  | none => none
  | some .root => none
  | some _ => some (ofComponents p.components.dropLast)

def fileName? (p : Path) : Option String :=
  match p.components.getLast? with
  | some (.name n) => some n
  | _ => none

/-! ### Cleaning -/

/-- One step onto the steps taken so far, the latest first. `..` takes back a name, is lost at the
root, and stays in front of a relative path. -/
def cleanStep (taken : List Component) : Component → List Component
  | .here => taken
  | .up =>
    match taken with
    | .name _ :: rest => rest
    | .root :: rest => .root :: rest
    | taken => .up :: taken
  | c => c :: taken

/-- The path without dots, and with `..` only at the front of a relative path. -/
def clean (p : Path) : Path :=
  match (p.components.foldl cleanStep []).reverse with
  | [] => ⟨"."⟩
  | steps => ofComponents steps

end Path

/-! ## File names -/

namespace FileName

/-- A name cut at its last dot. A dot at the start of the name does not cut. -/
def cut (n : String) : String × Option String :=
  let chars := n.toList
  let after := chars.reverse.takeWhile (· ≠ '.')
  let before := (chars.reverse.dropWhile (· ≠ '.')).drop 1
  if before.isEmpty then (n, none)
  else (String.ofList before.reverse, some (String.ofList after.reverse))

def extension? (n : String) : Option String := (cut n).2

def stem (n : String) : String := (cut n).1

end FileName

def Path.extension? (p : Path) : Option String := p.fileName?.bind FileName.extension?

def Path.stem? (p : Path) : Option String := p.fileName?.map FileName.stem

/-! ## Places -/

/-- A place in the file tree: the names on the way from the root. -/
structure Location where
  names : List String
deriving DecidableEq, Repr, Inhabited

namespace Location

def root : Location := ⟨[]⟩

/-- The text of a place: a slash before every name. -/
def text (l : Location) : String :=
  match l.names with
  | [] => "/"
  | names => String.join (names.map ("/" ++ ·))

instance : ToString Location := ⟨text⟩

def path (l : Location) : Path := ⟨l.text⟩

/-- Places are ordered name by name. -/
instance : Ord Location := ⟨fun a b => compare a.names b.names⟩

/-- The directory of a place; the root is its own. -/
def dir (l : Location) : Location := ⟨l.names.dropLast⟩

def parent? (l : Location) : Option Location := if l.names.isEmpty then none else some l.dir

def fileName? (l : Location) : Option String := l.names.getLast?

def child (l : Location) (n : String) : Location := ⟨l.names ++ [n]⟩

/-- One step from a place. -/
def step (l : Location) : Component → Location
  | .root => root
  | .here => l
  | .up => l.dir
  | .name n => l.child n

/-- The place that a spelling names when it is read from `from_`, with no link on the way. -/
def reach (from_ : Location) (p : Path) : Location := p.components.foldl step from_

/-- The place that a spelling equals as a path, if it has no dots and starts at the root. -/
def ofPath? (p : Path) : Option Location :=
  let there := root.reach p
  if p.components = .root :: there.names.map .name then some there else none

end Location

/-! ## Proper names -/

/-- A name that can stand between two slashes and is no dot step. -/
def IsProper (n : String) : Prop := n ≠ "" ∧ n ≠ "." ∧ n ≠ ".." ∧ '/' ∉ n.toList

def Location.Proper (l : Location) : Prop := ∀ n ∈ l.names, IsProper n

theorem Component.isProper_of_ofPiece? {piece : List Char} {n : String}
    (h : Component.ofPiece? piece = some (.name n)) (hs : '/' ∉ piece) : IsProper n := by
  unfold Component.ofPiece? at h
  split at h
  · simp at h
  · simp at h
  · simp at h
  · rename_i h₁ h₂ h₃
    obtain rfl : String.ofList piece = n := by simpa using h
    have chars (t : String) (hn : String.ofList piece = t) : piece = t.toList := by simp [← hn]
    exact ⟨fun hn => h₁ (chars _ hn), fun hn => h₂ (chars _ hn),
      fun hn => h₃ (chars _ hn), by simpa using hs⟩

theorem Path.isProper_of_mem_components {p : Path} {n : String} (h : .name n ∈ p.components) :
    IsProper n := by
  have hs := Text.not_mem_of_mem_splitOn '/' p.text.toList
  have key : ∀ pieces : List (List Char), (∀ piece ∈ pieces, '/' ∉ piece) →
      Component.name n ∈ pieces.filterMap Component.ofPiece? → IsProper n := by
    intro pieces hp hm
    obtain ⟨piece, hpiece, hn⟩ := List.mem_filterMap.1 hm
    exact Component.isProper_of_ofPiece? hn (hp piece hpiece)
  unfold Path.components at h
  generalize Text.splitOn '/' p.text.toList = pieces at h hs
  split at h
  · simp at h
  · simp at h
  · exact key _ (fun piece hm => hs piece (List.mem_cons_of_mem _ hm)) (by simpa using h)
  · exact key _ (fun piece hm => hs piece (List.mem_cons_of_mem _ hm)) (by simpa using h)
  · exact key _ hs h

theorem Location.reach_proper {from_ : Location} (h : from_.Proper) (p : Path) :
    (from_.reach p).Proper := by
  have key : ∀ (steps : List Component) (l : Location), l.Proper →
      (∀ n, Component.name n ∈ steps → IsProper n) → (steps.foldl Location.step l).Proper := by
    intro steps
    induction steps with
    | nil => intro l hl _; exact hl
    | cons c steps ih =>
      intro l hl hn
      refine ih _ ?_ (fun n hm => hn n (List.mem_cons_of_mem _ hm))
      cases c with
      | root => intro n hm; simp [Location.step, Location.root] at hm
      | here => exact hl
      | up => intro n hm; exact hl n (List.dropLast_subset _ hm)
      | name m =>
        intro n hm
        rcases List.mem_append.1 hm with hm | hm
        · exact hl n hm
        · rw [List.mem_singleton.1 hm]
          exact hn m (by simp)
  exact key _ _ h fun n hm => Path.isProper_of_mem_components hm

end FSharpWorkspace
