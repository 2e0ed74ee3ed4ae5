import FSharpWorkspace.Proofs.Cache.Union
import FSharpWorkspace.Proofs.Sequential.Known
/-!
# Restores

A restore names a directory by its lock file (`Act.restoredDir?_eq_some_iff`). The projects in this
directory, known or computed, are its owners; each of them is changed, one after the other, so the
restore takes away the union of their cascades (`Workspace.RestoresUnion`).

The owners are picked from one list in which each file occurs once, under the first identity that it
has among the known and then the computed ones (`Identity.mem_sorted_iff`). A file that is known as
a script and computed as a project is in this list as a script, so it is no owner.
`restored_union_iff` says that nothing else goes wrong.
-/

set_option autoImplicit false

namespace FSharpWorkspace

/-! ## Lists in which each file occurs once -/

namespace Identity

variable {x : Identity} {ids kept : List Identity}

theorem Before.location_ne {a b : Identity} (h : a.Before b) : a.location ≠ b.location := by
  intro heq
  have hlt : compare a.location b.location = .lt := h
  rw [heq, Std.ReflOrd.compare_self] at hlt
  cases hlt

theorem nodup_locations (h : ids.Pairwise Before) : (ids.map (·.location)).Nodup :=
  List.pairwise_map.mpr (h.imp fun hbefore => hbefore.location_ne)

/-- An identity comes into an ordered list if no other one with its place is there. -/
theorem mem_insert_iff_fresh (id : Identity) (h : kept.Pairwise Before) :
    x ∈ id.insert kept ↔ x ∈ kept ∨ (x = id ∧ ∀ y ∈ kept, y.location ≠ id.location) := by
  induction kept with
  | nil => simp [Identity.insert]
  | cons other rest ih =>
      obtain ⟨hother, hrest⟩ := List.pairwise_cons.mp h
      rw [Identity.insert]
      split
      · next hlt =>
          -- the list starts behind the place of the new identity
          have hfresh : ∀ y ∈ other :: rest, y.location ≠ id.location := by
            intro y hy
            rcases List.mem_cons.mp hy with rfl | hy
            · exact (Before.location_ne hlt).symm
            · exact (Before.location_ne (Before.trans hlt (hother y hy))).symm
          rw [List.mem_cons]
          constructor
          · rintro (hx | hx)
            · exact Or.inr ⟨hx, hfresh⟩
            · exact Or.inl hx
          · rintro (hx | ⟨hx, -⟩)
            · exact Or.inr hx
            · exact Or.inl hx
      · next heq =>
          have hplace : other.location = id.location := (Location.eq_of_compare heq).symm
          constructor
          · exact Or.inl
          · rintro (hx | ⟨-, hfresh⟩)
            · exact hx
            · exact absurd hplace (hfresh other (by simp))
      · next hgt =>
          have hne : other.location ≠ id.location := Before.location_ne (before_of_gt hgt)
          rw [List.mem_cons, ih hrest, List.mem_cons, List.forall_mem_cons]
          tauto

theorem exists_mem_insert (id : Identity) (h : kept.Pairwise Before) :
    ∃ y ∈ id.insert kept, y.location = id.location := by
  by_cases hfresh : ∀ y ∈ kept, y.location ≠ id.location
  · exact ⟨id, (mem_insert_iff_fresh id h).mpr (Or.inr ⟨rfl, hfresh⟩), rfl⟩
  · simp only [not_forall, not_not] at hfresh
    obtain ⟨y, hy, hplace⟩ := hfresh
    exact ⟨y, (mem_insert_iff_fresh id h).mpr (Or.inl hy), hplace⟩

theorem pairwise_foldl_insert (ids : List Identity) (h : kept.Pairwise Before) :
    (ids.foldl (fun kept id => id.insert kept) kept).Pairwise Before := by
  induction ids generalizing kept with
  | nil => exact h
  | cons id ids ih => exact ih (id.pairwise_insert h)

theorem pairwise_sorted (ids : List Identity) : (sorted ids).Pairwise Before :=
  pairwise_foldl_insert ids .nil

/-- **Sorting keeps the first identity of each file**, whatever the kinds are. -/
theorem mem_sorted_iff : x ∈ sorted ids ↔ ids.find? (·.location = x.location) = some x := by
  have key : ∀ ids kept : List Identity, kept.Pairwise Before →
      (x ∈ ids.foldl (fun kept id => id.insert kept) kept ↔
        x ∈ kept ∨ (∀ y ∈ kept, y.location ≠ x.location) ∧
          ids.find? (·.location = x.location) = some x) := by
    intro ids
    induction ids with
    | nil => simp
    | cons id rest ih =>
        intro kept hkept
        rw [List.foldl_cons, ih _ (id.pairwise_insert hkept), mem_insert_iff_fresh id hkept]
        by_cases hplace : id.location = x.location
        · -- the file is in the list from now on
          obtain ⟨y, hy, hyplace⟩ := exists_mem_insert id hkept
          have hthere : ¬ ∀ y ∈ id.insert kept, y.location ≠ x.location := fun hall =>
            hall y hy (hyplace.trans hplace)
          rw [List.find?_cons_of_pos (by simpa using hplace), ← hplace, Option.some_inj]
          rw [← hplace] at hthere
          tauto
        · have hne : x ≠ id := fun heq => hplace (heq ▸ rfl)
          have hfresh : (∀ y ∈ id.insert kept, y.location ≠ x.location) ↔ ∀ y ∈ kept,
              y.location ≠ x.location := by
            constructor
            · exact fun hall y hy => hall y ((mem_insert_iff_fresh id hkept).mpr (Or.inl hy))
            · intro hall y hy
              rcases mem_insert hy with rfl | hy
              · exact hplace
              · exact hall y hy
          rw [List.find?_cons_of_neg (by simpa using hplace), hfresh]
          tauto
  simpa [sorted] using key ids [] .nil

end Identity

/-! ## The directory of a restore -/

theorem Location.parent?_eq_some_iff {l dir : Location} :
    l.parent? = some dir ↔ ∃ name, l = dir.child name := by
  constructor
  · intro h
    unfold Location.parent? at h
    split at h
    · cases h
    · next hempty =>
        obtain rfl : l.dir = dir := Option.some.inj h
        have hne : l.names ≠ [] := by simpa using hempty
        exact ⟨l.names.getLast hne, congrArg Location.mk (List.dropLast_append_getLast hne).symm⟩
  · rintro ⟨name, rfl⟩
    simp [Location.parent?, Location.child, Location.dir]

namespace Act

theorem restoredDir?_eq_some_iff {lockFile dir : Location} :
    restoredDir? lockFile = some dir ↔ ∃ name, lockFile = (dir.child "obj").child name := by
  have hname : ∀ (l : Location) (name : String), (l.child name).fileName? = some name := by
    simp [Location.child, Location.fileName?]
  constructor
  · intro h
    obtain ⟨obj, hobj, hdir⟩ := Option.bind_eq_some_iff.mp h
    obtain ⟨name, rfl⟩ := Location.parent?_eq_some_iff.mp hobj
    split at hdir
    · next hlast =>
        obtain ⟨last, rfl⟩ := Location.parent?_eq_some_iff.mp hdir
        cases (hname dir last).symm.trans hlast
        exact ⟨name, rfl⟩
    · cases hdir
  · rintro ⟨name, rfl⟩
    refine Option.bind_eq_some_iff.mpr ⟨dir.child "obj",
      Location.parent?_eq_some_iff.mpr ⟨name, rfl⟩, ?_⟩
    rw [if_pos (hname _ _)]
    exact Location.parent?_eq_some_iff.mpr ⟨"obj", rfl⟩

end Act

/-! ## What a restore does -/

variable {σ : Type} {env : Surroundings σ} {w : Workspace σ} {lockFile : Path} {dir : Location}

theorem forM_changed_eq (ids : List Identity) (w : Workspace σ) :
    (ids.forM fun id => Act.changed id.location) w = .ok () { w with
      cache :=
        (ids.map (·.location)).foldl (fun c l => c.cascade Resolution.dependsOn l) w.cache } := by
  induction ids generalizing w with
  | nil => rfl
  | cons id ids ih => exact Act.bind_ok rfl (ih _)

/-- A restore changes the projects that are found in the directory, one after the other. -/
theorem restored_eq {owners : List Identity}
    (hd : Act.restoredDir? (env.locate w.outside lockFile) = some dir)
    (ho : Act.projectsIn dir w = .ok owners w) :
    Act.restored env lockFile w = .ok owners.length { w with
      cache := (owners.map (·.location)).foldl
        (fun c l => c.cascade Resolution.dependsOn l) w.cache } := by
  unfold Act.restored
  refine Act.bind_ok (a := env.locate w.outside lockFile) rfl ?_
  rw [hd]
  exact Act.bind_ok ho (Act.bind_ok (forM_changed_eq owners w) rfl)

/-- Any other file is none of a restore. -/
theorem restored_elsewhere (hd : Act.restoredDir? (env.locate w.outside lockFile) = none) :
    Act.restored env lockFile w = .ok 0 w := by
  unfold Act.restored
  refine Act.bind_ok (a := env.locate w.outside lockFile) rfl ?_
  rw [hd]
  rfl

/-! ## The owners -/

namespace Workspace

def HasProject (w : Workspace σ) (l : Location) : Prop :=
  ∃ id : Identity, id.location = l ∧ id.kind = .project ∧
    (id ∈ w.index.projects ∨ ∃ r, (id, r) ∈ w.cache.computed)

/-- What a restore in `dir` should do: it counts the projects that lie there, each once,
and takes away what a change of any of them reaches, so that the order in which they are
changed does not matter. -/
def RestoresUnion (w : Workspace σ) (dir : Location) (restore : Act σ Nat) : Prop :=
  ∃ (places : List Location) (w' : Workspace σ), restore w = .ok places.length w' ∧
    places.Nodup ∧ (∀ l, l ∈ places ↔ l.dir = dir ∧ w.HasProject l) ∧
    (∀ id r, (id, r) ∈ w'.cache.computed ↔
      (id, r) ∈ w.cache.computed ∧ ∀ l ∈ places,
        ¬ w.cache.Reaches Resolution.dependsOn l id.location) ∧
    ∀ order : List Location, order.Perm places → ∀ id r, (id, r) ∈ w'.cache.computed ↔
      (id, r) ∈ (order.foldl (fun c l => c.cascade Resolution.dependsOn l) w.cache).computed

/-- No file in `dir` that is computed as a project is known as anything else. -/
def OneKindIn (w : Workspace σ) (dir : Location) : Prop :=
  ∀ id ∈ w.index.projects, id.dir = dir →
    ∀ x r, (x, r) ∈ w.cache.computed → x.location = id.location →
      x.kind = .project → id.kind = .project

/-- The cache and the index hold each file once. -/
structure Orderly (w : Workspace σ) : Prop where
  lone : w.cache.Lone
  ascending : w.index.projects.Pairwise Identity.Before

variable {a b : Identity} {r : Resolution}

theorem Orderly.known_unique (hw : w.Orderly) (ha : a ∈ w.index.projects)
    (hb : b ∈ w.index.projects) (h : a.location = b.location) : a = b :=
  List.inj_on_of_nodup_map (Identity.nodup_locations hw.ascending) ha hb h

theorem Orderly.computed_unique (hw : w.Orderly) (ha : a ∈ w.cache.computed.map (·.1))
    (hb : b ∈ w.cache.computed.map (·.1)) (h : a.location = b.location) : a = b := by
  obtain ⟨⟨_, r⟩, hr, rfl⟩ := List.mem_map.mp ha
  obtain ⟨⟨_, r'⟩, hr', rfl⟩ := List.mem_map.mp hb
  obtain ⟨s, e, he, hid, -⟩ := (Cache.mem_computed _ r).mp hr
  obtain ⟨t, f, hf, hid', -⟩ := (Cache.mem_computed _ r').mp hr'
  rw [← h] at hf
  rw [← hid, ← hid', hw.lone.entry_eq he hf]

/-- The projects in a directory, as a restore finds them. -/
theorem projectsIn_finds (w : Workspace σ) (dir : Location) :
    ∃ owners, Act.projectsIn dir w = .ok owners w ∧
    owners.Pairwise Identity.Before ∧ ∀ x, x ∈ owners ↔ x.kind = .project ∧ x.dir = dir ∧
      (w.index.projects ++ w.cache.computed.map (·.1)).find? (·.location = x.location) =
        some x := by
  refine ⟨_, rfl, (Identity.pairwise_sorted _).filter _, fun x => ?_⟩
  rw [List.mem_filter, Identity.mem_sorted_iff]
  simp only [Bool.and_eq_true, decide_eq_true_eq]
  tauto

/-- What is alone at its place is found there. -/
theorem find?_of_unique {ids : List Identity} (ha : a ∈ ids)
    (h : ∀ b ∈ ids, b.location = a.location → b = a) :
    ids.find? (·.location = a.location) = some a := by
  cases hfind : ids.find? (·.location = a.location) with
  | none =>
      have hnone := List.find?_eq_none.mp hfind a ha
      simp at hnone
  | some b =>
      have hplace : b.location = a.location := by simpa using List.find?_some hfind
      rw [h b (List.mem_of_find?_eq_some hfind) hplace]

/-- A file that is known is found under its known identity. -/
theorem Orderly.find?_of_known (hw : w.Orderly) (ha : a ∈ w.index.projects) :
    (w.index.projects ++ w.cache.computed.map (·.1)).find? (·.location = a.location) = some a := by
  rw [List.find?_append, find?_of_unique ha fun b hb hplace => hw.known_unique hb ha hplace]
  rfl

/-- A project is found as a project, unless its file is known as something else. -/
theorem Orderly.found_as_project (hw : w.Orderly) (hone : w.OneKindIn dir)
    (hdir : a.location.dir = dir) (hkind : a.kind = .project)
    (ha : a ∈ w.index.projects ∨ ∃ r, (a, r) ∈ w.cache.computed) :
    ∃ y : Identity, y.location = a.location ∧ y.kind = .project ∧
      (w.index.projects ++ w.cache.computed.map (·.1)).find? (·.location = a.location) =
        some y := by
  by_cases hknown : ∃ y ∈ w.index.projects, y.location = a.location
  · obtain ⟨y, hy, hplace⟩ := hknown
    refine ⟨y, hplace, ?_, hplace ▸ hw.find?_of_known hy⟩
    rcases ha with ha | ⟨r, hr⟩
    · rw [hw.known_unique hy ha hplace, hkind]
    · exact hone y hy (by rw [Identity.dir, hplace, hdir]) a r hr hplace.symm hkind
  · obtain ⟨r, hr⟩ := ha.resolve_left fun ha => hknown ⟨a, ha, rfl⟩
    have hmem : a ∈ w.cache.computed.map (·.1) := List.mem_map_of_mem (f := (·.1)) hr
    have hnone : w.index.projects.find? (·.location = a.location) = none := by
      refine List.find?_eq_none.mpr fun y hy hplace => hknown ⟨y, hy, by simpa using hplace⟩
    refine ⟨a, rfl, hkind, ?_⟩
    rw [List.find?_append, hnone, Option.none_or]
    exact find?_of_unique hmem fun b hb hplace => hw.computed_unique hb hmem hplace

/-- **A restore is the union of the cascades** of the projects in its directory exactly if none of
them is known as anything else than a project. -/
theorem Orderly.restored_union_iff (hw : w.Orderly)
    (hd : Act.restoredDir? (env.locate w.outside lockFile) = some dir) :
    w.RestoresUnion dir (Act.restored env lockFile) ↔ w.OneKindIn dir := by
  obtain ⟨owners, howners, hascending, hmem⟩ := projectsIn_finds w dir
  have hrestored := restored_eq hd howners
  -- each owner is a project there
  have hsound : ∀ l ∈ owners.map (·.location), l.dir = dir ∧ w.HasProject l := by
    intro l hl
    obtain ⟨x, hx, rfl⟩ := List.mem_map.mp hl
    obtain ⟨hkind, hdir, hfind⟩ := (hmem x).mp hx
    refine ⟨hdir, x, rfl, hkind, ?_⟩
    rcases List.mem_append.mp (List.mem_of_find?_eq_some hfind) with hknown | hcomputed
    · exact Or.inl hknown
    · obtain ⟨⟨_, r⟩, hr, rfl⟩ := List.mem_map.mp hcomputed
      exact Or.inr ⟨r, hr⟩
  have hnodup := Identity.nodup_locations hascending
  constructor
  · rintro ⟨places, w', hcount, hplaces, hall, -, -⟩ id hid hdir x r hx hxplace hxkind
    -- as many places are counted as there are owners, so every one of them is the place of an owner
    have hlength : places.length = owners.length := by
      injection hrestored.symm.trans hcount with hlength
      exact hlength.symm
    have hperm : (owners.map (·.location)).Perm places := by
      refine (hnodup.subperm fun l hl => (hall l).mpr (hsound l hl)).perm_of_length_le ?_
      rw [hlength, List.length_map]
    have hcounted : id.location ∈ places := (hall _).mpr ⟨hdir, x, hxplace, hxkind, Or.inr ⟨r, hx⟩⟩
    obtain ⟨y, hy, hyplace⟩ := List.mem_map.mp (hperm.mem_iff.mpr hcounted)
    obtain ⟨hykind, -, hyfind⟩ := (hmem y).mp hy
    rw [hyplace, hw.find?_of_known hid] at hyfind
    rw [Option.some.inj hyfind, hykind]
  · intro hone
    refine ⟨owners.map (·.location), _, by rw [List.length_map]; exact hrestored,
      hnodup, fun l => ⟨hsound l, ?_⟩,
      fun id r => Cache.mem_computed_cascades hw.lone _, fun order horder id r => ?_⟩
    · rintro ⟨hdir, id, rfl, hkind, hid⟩
      obtain ⟨y, hyplace, hykind, hyfind⟩ := hw.found_as_project hone hdir hkind hid
      exact List.mem_map.mpr ⟨y,
        (hmem y).mpr ⟨hykind, by rw [Identity.dir, hyplace, hdir], hyplace ▸ hyfind⟩, hyplace⟩
    · rw [Cache.mem_computed_cascades hw.lone, Cache.mem_computed_cascades hw.lone]
      simp only [horder.mem_iff]

end Workspace

/-! ## In memory -/

/-- In memory the kind of a file can be read off its place, so every restore is the
union of the cascades. -/
theorem Operation.restoresUnion_of_runAll {w : Workspace Memory} (m : Memory) (ops : List Operation)
    (h : runAll ops (.fresh m) = .ok () w)
    (hd : Act.restoredDir? (Memory.locate lockFile) = some dir) :
    w.RestoresUnion dir (Act.restored Memory.surroundings lockFile) := by
  obtain ⟨w₁, hrun, hquiet, horder⟩ := runAll_keeps (P := fun w => w.index.InOrder) m ops .empty
    fun _ _ _ hw hop ho => Operation.inOrder hw hop ho
  cases hrun.symm.trans h
  have hw : w.Orderly := ⟨hquiet.tidy.lone, horder.ascending⟩
  refine (hw.restored_union_iff hd).mpr fun id hid _ x r hx hplace hkind => ?_
  obtain ⟨s, e, he, rfl, -⟩ := (Cache.mem_computed x r).mp hx
  rw [← (hquiet.tidy.entries s e he.1).eq (hquiet.tidy.known id hid) hplace, hkind]

end FSharpWorkspace
