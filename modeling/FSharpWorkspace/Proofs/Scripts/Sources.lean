import FSharpWorkspace.Proofs.Scripts.Walk
import FSharpWorkspace.Proofs.Sequential.Coherent
/-!
# The sources of a script

The sources of a script are the readable files that it loads, directly or not
(`mem_scriptResult_sources`). A result is made from these and from the files that could not be read.
If the sources still read as they did, the result is what one made anew would be, unless one of the
files that were missing is there now (`bare_scriptResult_iff`).
-/

set_option autoImplicit false

namespace FSharpWorkspace

open Relation (ReflTransGen)

/-! ## What files load -/

namespace Memory

def textAt (m : Memory) (l : Location) : Except ReadFault String := m.read l.path

def placeIn (dir : Location) (p : Path) : Location := locate (dir.path.join p)

def loads (m : Memory) (l : Location) : List Location := LoadWalk.loads placeIn m.textAt l

/-- The file at `l` loads the one at `l'`, directly or through other files, or is that file. -/
abbrev LeadsTo (m : Memory) (l l' : Location) : Prop := ReflTransGen (fun a b => b ∈ m.loads a) l l'

def Readable (m : Memory) (l : Location) : Prop := ∃ text, m.textAt l = .ok text

variable {m m' : Memory} {l l' : Location}

theorem locate_proper (p : Path) : (locate p).Proper := Location.reach_proper Location.root_proper p

theorem loads_proper (h : l' ∈ m.loads l) : l'.Proper := by
  unfold loads LoadWalk.loads at h
  split at h
  · obtain ⟨name, -, rfl⟩ := List.mem_map.mp h
    exact locate_proper _
  · cases h

theorem LeadsTo.proper (h : m.LeadsTo l l') (hl : l.Proper) : l'.Proper := by
  induction h with
  | refl => exact hl
  | tail _ h _ => exact loads_proper h

/-- What loads something can be read. -/
theorem Readable.of_loads (h : l' ∈ m.loads l) : m.Readable l := by
  unfold loads LoadWalk.loads at h
  split at h
  · next text ht => exact ⟨text, ht⟩
  · cases h

theorem loads_congr (h : m.textAt l = m'.textAt l) : m.loads l = m'.loads l := by
  unfold loads LoadWalk.loads
  rw [h]

/-- There is only one reason why a file in memory cannot be read. -/
theorem textAt_of_not_readable (h : ¬ m.Readable l) : m.textAt l = .error (.missing l.path) := by
  unfold Readable textAt read at *
  cases hf : m.file? l.path with
  | none => rfl
  | some f =>
      rw [hf] at h
      exact absurd ⟨f.content, rfl⟩ h

def places (m : Memory) : List Location := m.files.map fun f => locate f.path

theorem Readable.mem_places (h : m.Readable l) (hl : l.Proper) : l ∈ m.places := by
  obtain ⟨text, ht⟩ := h
  unfold textAt read at ht
  cases hf : m.file? l.path with
  | none =>
      rw [hf] at ht
      cases ht
  | some f =>
      -- a spelling with the same steps names the same place
      have hsame : f.path.components = l.path.components := by
        have := List.find?_some hf
        simpa [Path.same] using this
      refine List.mem_map.mpr ⟨f, List.mem_of_find?_eq_some hf, ?_⟩
      rw [locate, Location.reach, hsame]
      exact Location.reach_path hl Location.root

end Memory

/-! ## The walk of a script -/

section

variable {m m' : Memory} {id : Identity} {source : String} {stamp stamp' : Nat}

/-- What following the directives of the script `id` finds. -/
def Memory.walkOf (m : Memory) (id : Identity) (source : String) : LoadWalk :=
  LoadWalk.check Memory.placeIn m.textAt m.depth id.location.path id.dir source

/-- A walk in memory is not bounded by its depth. -/
theorem Memory.walkOf_follows (m : Memory) (source : String) (hid : id.location.Proper) :
    LoadWalk.Follows Memory.placeIn m.textAt id.location.path id.dir (loadDirectives source)
      ⟨[id.location], [], []⟩ (m.walkOf id source) := by
  have hself : Location.ofPath? id.location.path = some id.location := by
    have hreach : Location.root.reach id.location.path = id.location := Location.reach_path hid _
    unfold Location.ofPath?
    simp [hreach, Location.components_path hid]
  have hknown : ∀ dir p text, m.textAt (Memory.placeIn dir p) = .ok text →
      Memory.placeIn dir p ∈ m.places :=
    fun dir p text h => Memory.Readable.mem_places ⟨text, h⟩ (Memory.locate_proper _)
  unfold walkOf LoadWalk.check
  rw [hself]
  refine LoadWalk.follows_follow hknown _ _ _ _ ?_
  calc LoadWalk.left m.places _
      ≤ m.places.length := List.length_filter_le _ _
    _ = m.files.length := List.length_map _
    _ < m.depth := by unfold Memory.depth; omega

/-- The walk enters what the script leads to. -/
theorem Memory.mem_entered (hid : id.location.Proper) (hs : m.textAt id.location = .ok source)
    {x : Location} :
    x ∈ (m.walkOf id source).entered ↔ m.LeadsTo id.location x := by
  refine (m.walkOf_follows source hid).mem_entered_iff ?_
  unfold LoadWalk.loads
  rw [hs]
  rfl

theorem scriptResult_unreadable {fault : ReadFault} (h : m.textAt id.location = .error fault) :
    Memory.surroundings.scriptResult m id stamp =
      .failed stamp id ⟨.scriptCheck, id.location.path, "Cannot read script: " ++ fault.message⟩
        ((m.written? id.location.path).elim .now .at) := by
  have h' : Memory.surroundings.read m id.location = .error fault := h
  unfold Surroundings.scriptResult
  rw [h']
  rfl

theorem scriptResult_readable (h : m.textAt id.location = .ok source) :
    Memory.surroundings.scriptResult m id stamp =
      { Resolution.empty stamp id ((m.written? id.location.path).elim .now .at) with
        sources := (m.walkOf id source).loaded ++ [id.location]
        flags := LoadWalk.flags
        diagnostics :=
          (m.walkOf id source).failures.map fun f =>
            ⟨.scriptCheck, id.location.path, f.message⟩ } := by
  have h' : Memory.surroundings.read m id.location = .ok source := h
  unfold Surroundings.scriptResult
  rw [h']
  rfl

/-- The sources of a script are the readable files that it leads to, the script
itself among them. -/
theorem mem_scriptResult_sources (hid : id.location.Proper) {x : Location} :
    x ∈ (Memory.surroundings.scriptResult m id stamp).sources ↔
      m.LeadsTo id.location x ∧ m.Readable x := by
  cases hs : m.textAt id.location with
  | error fault =>
      rw [scriptResult_unreadable hs]
      refine ⟨fun h => absurd h (by simp [Resolution.failed, Resolution.empty]), fun ⟨hx, hr⟩ => ?_⟩
      -- a script that cannot be read leads nowhere else
      rcases hx.cases_head with rfl | ⟨y, hy, -⟩
      · obtain ⟨text, ht⟩ := hr
        cases hs.symm.trans ht
      · obtain ⟨text, ht⟩ := Memory.Readable.of_loads hy
        cases hs.symm.trans ht
  | ok source =>
      rw [scriptResult_readable hs, ← Memory.mem_entered hid hs]
      show x ∈ (m.walkOf id source).loaded ++ [id.location] ↔ _
      have h := m.walkOf_follows source hid
      rw [List.mem_append, List.mem_singleton, h.mem_loaded]
      constructor
      · rintro ((hx | ⟨hx, -, hr⟩) | rfl)
        · cases hx
        · exact ⟨hx, hr⟩
        · exact ⟨h.subset (by simp), source, hs⟩
      · rintro ⟨hx, hr⟩
        by_cases hxs : x = id.location
        · exact Or.inr hxs
        · exact Or.inl (Or.inr ⟨hx, by simpa using hxs, hr⟩)

/-! ## Made anew -/

/-- The same reads give the same result. -/
theorem bare_scriptResult_congr (hid : id.location.Proper)
    (h : ∀ x, m.LeadsTo id.location x → m'.textAt x = m.textAt x) :
    (Memory.surroundings.scriptResult m id stamp).bare =
      (Memory.surroundings.scriptResult m' id stamp').bare := by
  have hself := h id.location .refl
  cases hs : m.textAt id.location with
  | error fault =>
      rw [scriptResult_unreadable hs, scriptResult_unreadable (hself.trans hs)]
      rfl
  | ok source =>
      have hwalk : m.walkOf id source = m'.walkOf id source := by
        have hf := m.walkOf_follows source hid
        have hf' := hf.congr fun x hx _ => h x ((Memory.mem_entered hid hs).mp hx)
        exact hf'.unique (m'.walkOf_follows source hid)
      rw [scriptResult_readable hs, scriptResult_readable (hself.trans hs), hwalk]
      rfl

@[simp] theorem Resolution.bare_sources (r : Resolution) : r.bare.sources = r.sources := by
  cases r
  rfl

/-- If the sources of a script read as they did when its result was made, a new result is the same
exactly if no source loads a file that is there but not among them. -/
theorem bare_scriptResult_iff (hid : id.location.Proper)
    (hreads : ∀ x ∈ id.location :: (Memory.surroundings.scriptResult m id stamp).sources,
      m'.LeadsTo id.location x → m'.textAt x = m.textAt x) :
    (Memory.surroundings.scriptResult m id stamp).bare =
      (Memory.surroundings.scriptResult m' id stamp').bare ↔
      ∀ s ∈ (Memory.surroundings.scriptResult m id stamp).sources, ∀ x ∈ m'.loads s, m'.Readable x →
        x ∈ (Memory.surroundings.scriptResult m id stamp).sources := by
  -- the way to a file leads through sources, so it is still a way
  have hsources : ∀ x, m.LeadsTo id.location x → m.Readable x →
      x ∈ (Memory.surroundings.scriptResult m id stamp).sources :=
    fun x hx hr => (mem_scriptResult_sources hid).mpr ⟨hx, hr⟩
  have hstill : ∀ x, m.LeadsTo id.location x → m'.LeadsTo id.location x := by
    intro x hx
    induction hx with
    | refl => exact .refl
    | @tail y z hy hz ih =>
        have hy' :=
          hreads y (List.mem_cons_of_mem _ (hsources y hy (Memory.Readable.of_loads hz))) ih
        exact ih.tail (Memory.loads_congr hy' ▸ hz)
  have hagree : ∀ x, m.LeadsTo id.location x → m.Readable x → m'.textAt x = m.textAt x :=
    fun x hx hr => hreads x (List.mem_cons_of_mem _ (hsources x hx hr)) (hstill x hx)
  constructor
  · intro heq s hs x hx hr
    have hsame := congrArg Resolution.sources heq
    rw [Resolution.bare_sources, Resolution.bare_sources] at hsame
    rw [hsame] at hs ⊢
    obtain ⟨hs, -⟩ := (mem_scriptResult_sources hid).mp hs
    exact (mem_scriptResult_sources hid).mpr ⟨hs.tail hx, hr⟩
  · intro hclosed
    refine bare_scriptResult_congr hid fun x hx => ?_
    by_cases hr : m.Readable x
    · exact hagree x hx hr
    · rcases hx.cases_tail with rfl | ⟨y, hy, hyx⟩
      · exact hreads _ List.mem_cons_self .refl
      · -- the file was missing, and if it were there now it would be among the sources
        have hyr := Memory.Readable.of_loads hyx
        have hr' : ¬ m'.Readable x := fun hr' => hr
          ((mem_scriptResult_sources hid).mp (hclosed y (hsources y hy hyr) x
            (Memory.loads_congr (hagree y hy hyr) ▸ hyx) hr')).2
        rw [Memory.textAt_of_not_readable hr, Memory.textAt_of_not_readable hr']

end

end FSharpWorkspace
