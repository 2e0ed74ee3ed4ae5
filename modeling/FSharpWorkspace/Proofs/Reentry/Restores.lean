import FSharpWorkspace.Proofs.Reentry.Callbacks
/-!
# Restores in the middle of resolutions

A restore may rewrite the lock file next to a project while the project is being cracked. The
workspace is told of it from within the crack, and looks for the projects in that directory among
those that it knows and those that are computed. A project that is found there is invalidated, so
its own entry leaves the map, and every other entry in progress is marked with it
(`Workspace.Doomed`). When a result arrives at such an entry, it is not put into the map, and it
will never be there (`Workspace.Lacks`).

The project that is being cracked is found if it is known. One that is only reached through a
reference is not computed yet, so it is overlooked, and its result comes into the map as if nothing
had happened (`overlooked_restore`).
-/

set_option autoImplicit false

namespace FSharpWorkspace

/-! ## Results that do not come into the map -/

/-- The result `r` was made, and is not in the map. -/
structure Workspace.Lacks (w : Workspace Memory) (r : Resolution) : Prop where
  older : r.stamp < w.made
  absent : ∀ (s : Serial) e, w.cache.entries[s]? = some e → e.listed = true → e.state ≠ .done r

/-- The entry with serial `s`, made for `id`, left the map, or it is in progress for another file
than that at `l` and marked with it. -/
def Workspace.Doomed (w : Workspace Memory) (s : Serial) (id : Identity) (l : Location) : Prop :=
  ∃ e, w.cache.entries[s]? = some e ∧ e.id = id ∧
    (e.listed = true → id.location ≠ l ∧
      ∃ owner marks, e.state = .inProgress owner marks ∧ l ∈ marks)

section

variable {ends : Serial → Prop} {w w' : Workspace Memory} {s : Serial} {id : Identity}
  {l : Location} {r : Resolution}

theorem Workspace.Lacks.peek (h : w.Lacks r) (hw : w.Tidy) (l : Location) :
    w.cache.peek l ≠ some r := by
  intro hp
  obtain ⟨s, e, he, hr⟩ := (Cache.peek_eq_some hw.lone l r).mp hp
  exact h.absent s e he.1 he.2.1 hr

/-- Results that are made later have other stamps. -/
theorem Move.lacks (h : Move ends w w') (hw : w.Tidy) (hr : w.Lacks r) : w'.Lacks r where
  older := Nat.lt_of_lt_of_le hr.older (h.made hw)
  absent s e' he' hl hd := by
    rcases h.turns hw s with ⟨-, hnew⟩ | ⟨e, e'', he, he'', hturns⟩
    · obtain ⟨id, rfl⟩ := hnew e' he'
      cases hd
    · obtain rfl := Option.some.inj (he''.symm.trans he')
      cases hturns with
      | same => exact hr.absent s e he hl hd
      | claimed id => cases hd
      | @arrived q _ _ hq hlt =>
          rcases Cache.handedIn_cases Resolution.derivedFrom q e.state with hq' | hq'
          · obtain rfl : q = r := by simpa using hq'.symm.trans hd
            exact absurd hq (Nat.ne_of_lt hr.older)
          · cases hq'.symm.trans hd
      | abandoned => cases hd
      | lost l => exact hr.absent s e he ((Cache.lose_listed l e).mp hl).1 (Cache.lose_done.mp hd)

theorem Moves.lacks (h : Moves ends w w') (hw : w.Tidy) (hr : w.Lacks r) : w'.Lacks r :=
  (h.keeps (P := fun w => w.Tidy ∧ w.Lacks r)
    (fun _ _ hm hw => ⟨hm.tidy hw.1, hm.lacks hw.1 hw.2⟩) ⟨hw, hr⟩).2

theorem Move.doomed (h : Move ends w w') (hw : w.Tidy) (hs : ¬ ends s) (hd : w.Doomed s id l) :
    w'.Doomed s id l := by
  obtain ⟨e, he, hid, hl⟩ := hd
  rcases h.turns hw s with ⟨hn, -⟩ | ⟨f, e', hf, he', hturns⟩
  · cases hn.symm.trans he
  · obtain rfl := Option.some.inj (he.symm.trans hf)
    cases hturns with
    | same => exact ⟨e, he', hid, hl⟩
    | claimed _ =>
        obtain ⟨-, owner, marks, hst, -⟩ := hl rfl
        cases hst
    | arrived _ ht => exact absurd ht hs
    | abandoned _ ht => exact absurd ht hs
    | lost x =>
        refine ⟨_, he', (Cache.lose_id x e).trans hid, fun hlisted => ?_⟩
        obtain ⟨hne, owner, marks, hst, hmem⟩ := hl ((Cache.lose_listed x e).mp hlisted).1
        refine ⟨hne, owner, marks ++ [x], ?_, List.mem_append_left _ hmem⟩
        rw [Cache.lose_inProgress hst, if_pos hlisted]

theorem Moves.doomed (h : Moves ends w w') (hw : w.Dated) (hs : ¬ ends s) (hd : w.Doomed s id l) :
    w'.Dated ∧ w'.Doomed s id l :=
  h.keeps (P := fun w => w.Dated ∧ w.Doomed s id l)
    (fun _ _ hm hw => ⟨hm.dated hw.1, hm.doomed hw.1.tidy hs hw.2⟩) ⟨hw, hd⟩

/-- Whatever is in progress when a file is invalidated is doomed. -/
theorem Workspace.InFlight.doomed {xs : List Location} (hf : w.InFlight s id) (hx : Changes xs w w')
    (hl : l ∈ xs) :
    w'.Doomed s id l := by
  obtain ⟨e, owner, marks, he, hid, hst⟩ := hf
  have hev := Cache.foldl_invalidate_evolves (fun _ => False) w.cache xs
  rw [← hx.cache] at hev
  obtain ⟨e', he', hid', hlisted⟩ := hev.entry s e he
  refine ⟨e', he', hid'.trans hid,
    fun h => ⟨?_, owner, marks ++ xs, ?_, List.mem_append_right _ hl⟩⟩
  · rintro rfl
    exact (hlisted.mp h).2 (hid ▸ hl)
  · exact hev.marks s e e' owner marks he he' hst h

/-- A result that is derived from the file at `l`, or belongs to it, does not come into the map. -/
theorem Workspace.Doomed.arrive (hd : w.Doomed s r.id l) (hw : w.Dated) (hr : r.stamp = w.made)
    (hdep : r.id.location = l ∨ r.derivedFrom l = true) : (w.arrive s r).Lacks r where
  older := hr ▸ Nat.lt_succ_self _
  absent t e' he' hl hdone := by
    obtain ⟨e, he, -, hlisted⟩ := hd
    by_cases ht : t = s
    · subst ht
      obtain rfl :=
        Option.some.inj ((Cache.getElem?_finish_eq r Resolution.derivedFrom he).symm.trans he')
      obtain ⟨hne, owner, marks, hst, hmem⟩ := hlisted hl
      -- the mark makes the result stale
      have hstale : Cache.isStale Resolution.derivedFrom r marks = true :=
        List.any_eq_true.mpr ⟨l, hmem, hdep.resolve_left hne⟩
      rw [hst] at hdone
      simp [Cache.handedIn, hstale] at hdone
    · -- all other results were made before this one
      have hold := hw.older t e' r ((Cache.getElem?_finish_ne w.cache r _ ht).symm.trans he') hdone
      exact absurd hr (Nat.ne_of_lt hold)

theorem Lands.lacks (h : Lands s r w w') (hw : w.Dated) (hd : w.Doomed s r.id l)
    (hdep : r.id.location = l ∨ r.derivedFrom l = true) : w'.Lacks r := by
  obtain ⟨w₁, hbefore, hr, hafter⟩ := h
  obtain ⟨hw₁, hd₁⟩ := hbefore.doomed hw (fun hne => hne rfl) hd
  have harrive : Move (fun _ => True) w₁ (w₁.arrive s r) := .arrive trivial hr
  exact hafter.lacks (harrive.tidy hw₁.tidy) (hd₁.arrive hw₁ hr hdep)

theorem Lands.dated (h : Lands s r w w') (hw : w.Dated) : w'.Dated := by
  obtain ⟨w₁, hbefore, hr, hafter⟩ := h
  have harrive : Move (fun _ => True) w₁ (w₁.arrive s r) := .arrive trivial hr
  exact hafter.dated (harrive.dated (hbefore.dated hw))

theorem Resolution.derivedFrom_of_declared {p : Identity} (hp : p ∈ r.declared)
    (hne : r.id.location ≠ p.location) :
    r.derivedFrom p.location = true := by
  have hdep : r.dependsOn p.location = true := by
    have hmem : Identity.isAmong p.location r.declared = true :=
      List.any_eq_true.mpr ⟨p, hp, by simp⟩
    simp [Resolution.dependsOn, hne, hmem]
  simp [Resolution.derivedFrom, Resolution.searchDependent_eq, hdep]

end

/-! ## Who is found -/

theorem Index.mem_projects_iff {ix : Index} (hix : ∀ id ∈ ix.projects, id.WellFormed) {p : Identity}
    (hp : p.WellFormed) : p ∈ ix.projects ↔ ix.knows p.location = true := by
  unfold Index.knows Identity.isAmong
  rw [List.any_eq_true]
  constructor
  · exact fun h => ⟨p, h, by simp⟩
  · rintro ⟨q, hq, hl⟩
    obtain rfl := (hix q hq).eq hp (by simpa using hl)
    exact hq

theorem Workspace.Tidy.computed_wellFormed {w : Workspace Memory} (hw : w.Tidy) :
    ∀ id ∈ w.cache.computed.map (·.1), id.WellFormed := by
  intro id hid
  obtain ⟨⟨id', r⟩, hmem, rfl⟩ := List.mem_map.mp hid
  obtain ⟨s, e, he, rfl, -⟩ := (Cache.mem_computed id' r).mp hmem
  exact hw.entries s e he.1

theorem Workspace.Tidy.mem_computed_iff {w : Workspace Memory} (hw : w.Tidy) {p : Identity}
    (hp : p.WellFormed) :
    p ∈ w.cache.computed.map (·.1) ↔ (w.cache.peek p.location).isSome = true := by
  rw [Option.isSome_iff_exists]
  constructor
  · intro h
    obtain ⟨⟨id, r⟩, hmem, rfl⟩ := List.mem_map.mp h
    exact ⟨r, (Cache.mem_computed_map hw.lone _ r).mpr ⟨id, rfl, hmem⟩⟩
  · rintro ⟨r, hr⟩
    obtain ⟨id, hid, hmem⟩ := (Cache.mem_computed_map hw.lone _ r).mp hr
    have hin := List.mem_map_of_mem (f := (·.1)) hmem
    obtain rfl := (hw.computed_wellFormed id hin).eq hp hid
    exact hin

/-- The projects that are found in a directory are those that are known or computed. -/
theorem projectsIn_found {w : Workspace Memory} (hw : w.Tidy) {p : Identity} (hp : p.WellFormed)
    (hk : p.kind = .project) :
    ∃ owners, Act.projectsIn p.dir w = .ok owners w ∧
      (p ∈ owners ↔ w.index.knows p.location = true ∨ (w.cache.peek p.location).isSome = true) := by
  refine ⟨_, rfl, ?_⟩
  have hwf : ∀ id ∈ w.index.projects ++ w.cache.computed.map (·.1), id.WellFormed := fun id hid =>
    (List.mem_append.mp hid).elim (hw.known id) (hw.computed_wellFormed id)
  rw [List.mem_filter, Identity.mem_sorted hwf, List.mem_append, Index.mem_projects_iff hw.known hp,
    hw.mem_computed_iff hp]
  simp [hk]

/-! ## The main result -/

/-- **Restores in the middle of resolutions.** Let the crack of the project `p` be running, and the
workspace be told of a restore next to it. The restore counts `p` exactly if `p` is known or
computed. Then neither the result of `p` nor that of a project which declares `p` comes into the
map, if it was in progress at that moment, whatever else happens before and after it arrives. -/
theorem restored_midway {w : Workspace Memory} (hw : w.Reachable) (env : Surroundings Memory)
    {p : Identity} {s : Serial} (hp : w.InFlight s p) (hk : p.kind = .project) {lockFile : Path}
    (hlock : Act.restoredDir? (env.locate w.outside lockFile) = some p.dir) :
    ∃ owners w₁, Act.projectsIn p.dir w = .ok owners w ∧
      Act.restored env lockFile w = .ok owners.length w₁ ∧
      (p ∈ owners ↔ w.index.knows p.location = true ∨ (w.cache.peek p.location).isSome = true) ∧
      (p ∈ owners → ∀ t r w', w.InFlight t r.id → r.id = p ∨ p ∈ r.declared → Lands t r w₁ w' →
        ∀ l, w'.cache.peek l ≠ some r) := by
  have hdated := hw.dated
  have hwf : p.WellFormed := by
    obtain ⟨e, owner, marks, he, rfl, -⟩ := hp
    exact hdated.tidy.entries s e he
  obtain ⟨owners, howners, hfound⟩ := projectsIn_found hdated.tidy hwf hk
  obtain ⟨xs, w₁, hrestored, hx, -, hxs⟩ := restored_changes env hdated.tidy.lone hlock howners
  refine ⟨owners, w₁, howners, hrestored, hfound, fun hmem t r w' ht hdep hlands l => ?_⟩
  have hmoves : Moves (fun _ => True) w w₁ := hx.moves hdated.tidy
  have hdated₁ := hmoves.dated hdated
  have hdoomed := ht.doomed hx (hxs p hmem)
  have hderived : r.id.location = p.location ∨ r.derivedFrom p.location = true := by
    by_cases hl : r.id.location = p.location
    · exact Or.inl hl
    · refine Or.inr (Resolution.derivedFrom_of_declared (hdep.resolve_left fun he => hl ?_) hl)
      rw [he]
  exact (hlands.lacks hdated₁ hdoomed hderived).peek (hlands.dated hdated₁).tidy l

/-! ## A restore that is noticed, and one that is not -/

/-- `x.fsproj` references a project in another directory. -/
def referenceAcross : Memory := .listing [("/x.fsproj", ["p/p.fsproj"]), ("/p/p.fsproj", [])]

def referrer : Identity := ⟨Memory.locate ⟨"/x.fsproj"⟩, .project⟩

def referent : Identity := ⟨Memory.locate ⟨"/p/p.fsproj"⟩, .project⟩

def referentLock : Path := ⟨"/p/obj/project.assets.json"⟩

/-- The workspace when the crack of the second project begins: the first one was asked for and
cracked, and its reference is followed. -/
def Workspace.inCrack (w : Workspace Memory) : Workspace Memory :=
  (Act.request referent).after
    ((Memory.surroundings.crack referrer.location).after ((Act.request referrer).after w))

theorem Workspace.Reachable.inCrack {w : Workspace Memory} (hw : w.Reachable) :
    w.inCrack.Reachable := by
  have hreferrer : referrer.WellFormed := Identity.of_wellFormed (p := ⟨"/x.fsproj"⟩) rfl
  have hreferent : referent.WellFormed := Identity.of_wellFormed (p := ⟨"/p/p.fsproj"⟩) rfl
  exact ((hw.after (request_moves hreferrer)).after (surroundings_crack_moves _ _)).after
    (request_moves hreferent)

/-- The same moment, after the workspace was told of the second project. -/
def registeredInCrack : Workspace Memory :=
  (((Change.told .created ⟨"/p/p.fsproj"⟩).run Memory.surroundings).after
    (.fresh referenceAcross)).inCrack

theorem registeredInCrack_reachable : registeredInCrack.Reachable :=
  Workspace.Reachable.inCrack
    (Workspace.Reachable.after ⟨referenceAcross,
      .refl⟩ (Change.moves surroundings_reentrant.toRooted _))

/-- The restored project is known, so it is counted, and its result will not be held. -/
theorem restored_midway_registered :
    registeredInCrack.Reachable ∧ registeredInCrack.InFlight 0 referrer ∧
      registeredInCrack.InFlight 1 referent ∧
      ∃ owners w₁, Act.projectsIn referent.dir registeredInCrack = .ok owners registeredInCrack ∧
        Act.restored Memory.surroundings referentLock registeredInCrack = .ok owners.length w₁ ∧
        referent ∈ owners ∧
        ∀ t r w', registeredInCrack.InFlight t r.id → r.id = referent ∨ referent ∈ r.declared →
          Lands t r w₁ w' → ∀ l, w'.cache.peek l ≠ some r := by
  have hflight : registeredInCrack.InFlight 1 referent := ⟨_, _, _, rfl, rfl, rfl⟩
  have hlock :
    Act.restoredDir? (Memory.surroundings.locate registeredInCrack.outside referentLock) =
      some referent.dir := by decide +kernel
  obtain ⟨owners, w₁, howners, hrestored, hfound, hrejects⟩ :=
    restored_midway registeredInCrack_reachable Memory.surroundings hflight rfl hlock
  have hmem : referent ∈ owners := hfound.mpr (Or.inl (by decide +kernel))
  exact ⟨registeredInCrack_reachable, ⟨_, _, _, rfl, rfl, rfl⟩, hflight, owners, w₁,
    howners, hrestored, hmem,
    hrejects hmem⟩

/-- Surroundings in which the second project is restored while it is cracked. -/
def restoringMidway : Surroundings Memory :=
  Memory.surroundings.around
    (fun l => if l = referent.location then (Change.restored referentLock).run Memory.surroundings
      else pure ())
    fun _ => pure ()

theorem restoringMidway_reentrant : Reentrant restoringMidway := by
  refine surroundings_reentrant.around (fun l w => ?_) fun _ _ => moving_composes.pure _
  split
  · exact Change.moves surroundings_reentrant.toRooted _
  · exact moving_composes.pure _

/-- **A restore that is overlooked.** The restored project is only reached through a reference.
The restore counts no project and changes nothing, and the result that was in progress comes into
the map. So it is when the first project is asked for and the restore happens in the only crack
of the second one. -/
theorem overlooked_restore :
    (Workspace.fresh referenceAcross).inCrack.Reachable ∧
      (Workspace.fresh referenceAcross).inCrack.InFlight 1 referent ∧
      Act.restoredDir? (Memory.locate referentLock) = some referent.dir ∧
      Act.restored Memory.surroundings referentLock (Workspace.fresh referenceAcross).inCrack =
        .ok 0 (Workspace.fresh referenceAcross).inCrack ∧
      (∃ r w', r.id = referent ∧ Lands 1 r (Workspace.fresh referenceAcross).inCrack w' ∧
        w'.cache.peek referent.location = some r) ∧
      Reentrant restoringMidway ∧
      ∃ w', (Query.options ⟨"/x.fsproj"⟩).run restoringMidway (.fresh referenceAcross) = .ok () w' ∧
        (w'.cache.peek referent.location).isSome = true ∧
          w'.outside.cracksOf referent.location = 1 := by
  refine ⟨Workspace.Reachable.inCrack ⟨referenceAcross, .refl⟩,
    ⟨_, _, _, rfl, rfl, rfl⟩, by decide +kernel, rfl,
    ⟨CrackReport.result {} referent 0 (.at 0) .start, _, rfl, ⟨_, .refl, rfl, .refl⟩, rfl⟩,
    restoringMidway_reentrant, ?_⟩
  exact ⟨_, Act.eq_ok_of_returns (by decide +kernel), by decide +kernel, by decide +kernel⟩

end FSharpWorkspace
