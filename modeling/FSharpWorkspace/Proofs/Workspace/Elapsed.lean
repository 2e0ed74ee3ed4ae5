import FSharpWorkspace.Proofs.Workspace.Edits
/-!
# What passes between two moments

`Workspace.Tidy` is what a single thread keeps true of a workspace at any moment, in the middle
of resolutions too. `Elapsed E w w'` relates two moments: the files `E` were invalidated
between them, the results made have stamps of their own, and the table is the same for every
file that is not in `E`.
-/

set_option autoImplicit false

namespace FSharpWorkspace

/-! ## At any moment -/

/-- The map holds one entry for each place, whatever is in progress belongs to the only thread, and
identities are well formed. -/
structure Workspace.Tidy (w : Workspace Memory) : Prop where
  lone : w.cache.Lone
  owned : w.cache.Owned 0
  entries : ∀ (s : Serial) e, w.cache.entries[s]? = some e → e.id.WellFormed
  known : ∀ id ∈ w.index.projects, id.WellFormed

theorem Workspace.Tidy.fresh (m : Memory) : (Workspace.fresh m).Tidy where
  lone l s e t f h := by simp [Workspace.fresh, Cache.empty, Cache.Holds] at h
  owned s e owner marks h := by simp [Workspace.fresh, Cache.empty] at h
  entries s e h := by simp [Workspace.fresh, Cache.empty] at h
  known id h := by simp [Workspace.fresh, Index.empty] at h

@[simp] theorem Workspace.peek_fresh (m : Memory) (l : Location) :
    (Workspace.fresh m).cache.peek l = none := by
  simp [Workspace.fresh, Cache.peek, Cache.entry?, Cache.empty]

/-- What surrounds the workspace has no part in it. -/
theorem Workspace.Tidy.outside {w : Workspace Memory} (hw : w.Tidy) (m : Memory) :
    Workspace.Tidy { w with outside := m } :=
  ⟨hw.lone, hw.owned, hw.entries, hw.known⟩

theorem Workspace.Tidy.invalidate {w : Workspace Memory} (hw : w.Tidy) (l : Location) :
    Workspace.Tidy { w with cache := w.cache.invalidate l } where
  lone := hw.lone.invalidate l
  owned := hw.owned.evolves (Cache.invalidate_evolves (fun _ => False) w.cache l)
  entries s e he := by
    -- an invalidation leaves every entry under its identity
    obtain ⟨f, hf, rfl⟩ :=
      Option.map_eq_some_iff.mp ((Cache.getElem?_invalidate w.cache l s).symm.trans he)
    rw [Cache.lose_id]
    exact hw.entries s f hf
  known := hw.known

theorem Workspace.Tidy.invalidates {w : Workspace Memory} (hw : w.Tidy) (xs : List Location) :
    Workspace.Tidy { w with cache := xs.foldl Cache.invalidate w.cache } := by
  induction xs generalizing w with
  | nil => exact hw
  | cons x xs ih => exact ih (hw.invalidate x)

theorem Workspace.Tidy.changes {xs : List Location} {w w' : Workspace Memory} (hw : w.Tidy)
    (h : Changes xs w w') : w'.Tidy := by
  have hx := hw.invalidates xs
  exact ⟨h.cache ▸ hx.lone, h.cache ▸ hx.owned, h.cache ▸ hx.entries, h.known hw.known⟩

theorem Workspace.Tidy.claim {w : Workspace Memory} (hw : w.Tidy) {l : Location} {s : Serial}
    {id : Identity} {c : Cache Resolution} (hid : id.WellFormed) (h : w.cache.Claims 0 l s id c) :
    Workspace.Tidy { w with cache := c } where
  lone := h.lone hw.lone
  owned := h.owned hw.owned
  entries t e he := by
    by_cases ht : t = s
    · subst ht
      obtain rfl := Option.some.inj (h.entry.symm.trans he)
      exact hid
    · exact hw.entries t e ((h.others t ht).symm.trans he)
  known := hw.known

/-- An entry may end in any way. -/
theorem Workspace.Tidy.setState {w : Workspace Memory} (hw : w.Tidy) (s : Serial)
    {state : EntryState Resolution} (hstate : ∀ owner marks, state ≠ .inProgress owner marks) :
    Workspace.Tidy { w with cache := w.cache.setState s state } := by
  refine ⟨hw.lone.setState s state, fun t e owner marks he hs => ?_, fun t e he => ?_, hw.known⟩
  · obtain ⟨f, hf, -, h | ⟨-, h⟩⟩ := Cache.getElem?_setState_cases he
    · exact hw.owned t f owner marks hf (h ▸ hs)
    · exact absurd (h.symm.trans hs) (hstate owner marks)
  · obtain ⟨f, hf, hid, -⟩ := Cache.getElem?_setState_cases he
    exact hid ▸ hw.entries t f hf

theorem Workspace.Tidy.abandon {w : Workspace Memory} (hw : w.Tidy) (s : Serial) :
    Workspace.Tidy { w with cache := w.cache.abandon s } := by
  have hset : Workspace.Tidy { w with cache := w.cache.setState s .uncomputed } :=
    hw.setState s nofun
  exact ⟨hset.lone, hset.owned, hset.entries, hw.known⟩

/-! ## From one moment to another -/

/-- The files `E` were invalidated between `w` and `w'`. -/
structure Elapsed (E : List Location) (w w' : Workspace Memory) : Prop where
  cache : w.cache.Evolves (w.made ≤ ·.stamp) E w'.cache
  made : w.made ≤ w'.made
  report : ∀ l, l ∉ E → w'.outside.report l = w.outside.report l

theorem Elapsed.refl (w : Workspace Memory) : Elapsed [] w w :=
  ⟨.refl _ _, Nat.le_refl _, fun _ _ => rfl⟩

theorem Elapsed.trans {E E' : List Location} {w w' w'' : Workspace Memory} (h : Elapsed E w w')
    (h' : Elapsed E' w' w'') : Elapsed (E ++ E') w w'' where
  cache := h.cache.trans (h'.cache.mono fun _ hr => h.made.trans hr)
  made := h.made.trans h'.made
  report l hl := by
    obtain ⟨hE, hE'⟩ := not_or.mp (List.mem_append.not.mp hl)
    exact (h'.report l hE').trans (h.report l hE)

/-- While nothing is invalidated the same files stay in progress. -/
theorem Elapsed.busy_iff {w w' : Workspace Memory} (h : Elapsed [] w w') (l : Location) :
    w'.cache.Busy l ↔ w.cache.Busy l := by
  constructor
  · intro hb
    exact (h.cache.was_busy hb).1
  · intro hb
    exact h.cache.stays_busy hb (by simp)

theorem Changes.elapsed {xs : List Location} {w w' : Workspace Memory}
    (h : Changes xs w w') : Elapsed xs w w' where
  cache := by
    rw [h.cache]
    exact Cache.foldl_invalidate_evolves _ w.cache xs
  made := h.made.ge
  report := h.report

theorem Cracks.elapsed {l : Location} {xs ys : List Location} {w w' : Workspace Memory}
    {report : CrackReport} (h : Cracks l xs ys w report w') : Elapsed (xs ++ ys) w w' := by
  obtain ⟨wₘ, hx, -, hy⟩ := h.moment
  exact hx.elapsed.trans hy.elapsed

theorem Cracks.tidy {l : Location} {xs ys : List Location} {w w' : Workspace Memory}
    {report : CrackReport} (h : Cracks l xs ys w report w') (hw : w.Tidy) : w'.Tidy := by
  obtain ⟨wₘ, hx, -, hy⟩ := h.moment
  exact (hw.changes hx).changes hy

/-- What cracking reported is what the table says, unless the project was changed
at that very time. -/
theorem Cracks.report_eq {l : Location} {xs ys : List Location} {w w' : Workspace Memory}
    {report : CrackReport} (h : Cracks l xs ys w report w') (hl : l ∉ ys) :
    report = w'.outside.report l := by
  obtain ⟨wₘ, -, hr, hy⟩ := h.moment
  rw [hr, hy.report l hl]

/-- Cracking without edits leaves the map as it is. -/
theorem Cracks.cache_eq {l : Location} {w w' : Workspace Memory} {report : CrackReport}
    (h : Cracks l [] [] w report w') : w'.cache = w.cache := by
  obtain ⟨wₘ, hx, -, hy⟩ := h.moment
  exact hy.cache.trans hx.cache

/-! ## A file in flight -/

section Flight

variable {w w₁ : Workspace Memory} {l : Location} {s : Serial} {id : Identity}
  {c : Cache Resolution} {E : List Location} {r : Resolution}

/-- The workspace when the result `r`, made last, arrives at the entry with serial `s`. -/
def Workspace.arrive (w : Workspace Memory) (s : Serial) (r : Resolution) : Workspace Memory :=
  { w with made := w.made + 1, cache := w.cache.finish s r Resolution.derivedFrom }

theorem Elapsed.arrive (hc : w.cache.Claims 0 l s id c) (h : Elapsed E { w with cache := c } w₁)
    (hr : r.stamp = w₁.made) : Elapsed E w (w₁.arrive s r) where
  cache := hc.evolves_finish h.cache (hr ▸ h.made)
  made := h.made.trans (Nat.le_succ _)
  report := h.report

/-- If nothing was invalidated meanwhile, the result is in the map when it has arrived, and
nothing else changed. -/
theorem Elapsed.peek_arrive (hc : w.cache.Claims 0 l s id c)
    (h : Elapsed [] { w with cache := c } w₁) (hw₁ : w₁.Tidy) (r : Resolution) (n : Location) :
    (w₁.arrive s r).cache.peek n = if n = l then some r else w₁.cache.peek n := by
  by_cases hn : n = l
  · subst hn
    rw [if_pos rfl]
    exact hc.peek_finish_self h.cache hw₁.lone (by simp)
  · rw [if_neg hn]
    exact hc.peek_finish_of_ne h.cache hw₁.lone (Or.inl hn)

/-- A result that is in the map then is the one that arrived, or was there before. -/
theorem Elapsed.peek_arrive_cases (hc : w.cache.Claims 0 l s id c)
    (h : Elapsed [] { w with cache := c } w₁) (hw₁ : w₁.Tidy) {n : Location} {u : Resolution}
    (hu : (w₁.arrive s r).cache.peek n = some u) :
    (n = l ∧ u = r) ∨ w₁.cache.peek n = some u := by
  rw [h.peek_arrive hc hw₁] at hu
  split at hu
  · next hn => exact Or.inl ⟨hn, (Option.some.inj hu).symm⟩
  · exact Or.inr hu

theorem Workspace.Tidy.arrive (hw : w.Tidy) (s : Serial) (r : Resolution) :
    (w.arrive s r).Tidy := by
  have hset :=
    hw.setState s (Cache.handedIn_ne_inProgress Resolution.derivedFrom r (w.cache.stateAt s))
  exact ⟨hset.lone, hset.owned, hset.entries, hw.known⟩

end Flight

end FSharpWorkspace
