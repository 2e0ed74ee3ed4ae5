import FSharpWorkspace.Number.Binary64
/-!
# Values of configuration files

A configuration is a tree of tables and lists. `overlay` lays one configuration over another: tables
are laid over each other key by key, anything else replaces what was there. `putAt` lays a value
over the one that a path of keys and positions leads to, and makes the way there if need be.
-/

set_option autoImplicit false

namespace FSharpWorkspace

/-- A value of a configuration. -/
inductive Toml where
  /-- A place in a list that nothing was put into. -/
  | nothing
  | flag (b : Bool)
  | integer (n : Int)
  | float (x : Binary64)
  | text (s : String)
  | list (values : List Toml)
  | table (fields : List (String × Toml))
deriving Repr, Inhabited

namespace Toml

/-! ## Fields -/

/-- The fields of a table; anything else has none. -/
def fields : Toml → List (String × Toml)
  | .table fs => fs
  | _ => []

/-- The elements of a list; anything else has none. -/
def elements : Toml → List Toml
  | .list vs => vs
  | _ => []

def get? (v : Toml) (key : String) : Option Toml := v.fields.lookup key

/-- Fields with one of them set. -/
def setField (key : String) (value : Toml) : List (String × Toml) → List (String × Toml)
  | [] => [(key, value)]
  | (k, v) :: rest => if k = key then (k, value) :: rest else (k, v) :: setField key value rest

theorem lookup_setField (key : String) (value : Toml) (fs : List (String × Toml)) :
    (setField key value fs).lookup key = some value := by
  induction fs with
  | nil => simp [setField]
  | cons f fs ih =>
    obtain ⟨k, v⟩ := f
    rw [setField]
    split
    · rename_i h
      simp [h]
    · rename_i h
      have : (key == k) = false := by simpa using Ne.symm h
      rw [List.lookup_cons, this]
      exact ih

/-! ## Laying values over values -/

mutual

/-- A value laid over an older one. -/
def overlay (old new : Toml) : Toml :=
  match new with
  | .table fs => .table (overlayFields old.fields fs)
  | .nothing => .nothing
  | .flag b => .flag b
  | .integer n => .integer n
  | .float x => .float x
  | .text s => .text s
  | .list vs => .list vs

/-- Fields laid over older ones, one after the other. -/
def overlayFields (old new : List (String × Toml)) : List (String × Toml) :=
  match new with
  | [] => old
  | (k, v) :: rest => overlayFields (setField k (overlay ((old.lookup k).getD .nothing) v) old) rest

end

/-- A step on the way to a value. -/
inductive Step where
  | key (k : String)
  /-- A position in a list, counted from its end if negative. -/
  | position (i : Int)
deriving DecidableEq, Repr

/-- A list in which a position exists, filled up with nothing where it was too short,
and that position. -/
def reachPosition (vs : List Toml) (i : Int) : List Toml × Nat :=
  if i ≥ 0 then (vs ++ List.replicate (i.toNat + 1 - vs.length) .nothing, i.toNat)
  else if i.natAbs ≤ vs.length then (vs, vs.length - i.natAbs)
  else (List.replicate (i.natAbs - vs.length) .nothing ++ vs, 0)

/-- A value in which another one is laid over what some steps lead to. -/
def putAt : List Step → Toml → Toml → Toml
  | [], new, old => overlay old new
  | .key k :: rest, new, old =>
    .table (setField k (putAt rest new ((old.get? k).getD .nothing)) old.fields)
  | .position i :: rest, new, old =>
    let (vs, n) := reachPosition old.elements i
    .list (vs.set n (putAt rest new (vs[n]?.getD .nothing)))

end Toml

end FSharpWorkspace
