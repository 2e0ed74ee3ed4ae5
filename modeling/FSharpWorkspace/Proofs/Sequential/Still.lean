import FSharpWorkspace.Proofs.Workspace.Queries
/-!
# Resolving while nothing changes

A cracker that only looks up and counts invalidates nothing. So a resolution leaves the surroundings
as they are, but for the counts, and whatever it makes stays in the map: a project that it cracks
was not resolved before, is cracked once and is resolved afterwards (`Steps.still`). This holds in
any tidy workspace, also if the table was edited and the workspace was not told.
-/

set_option autoImplicit false

namespace FSharpWorkspace

theorem surroundings_mild : Mild Memory.surroundings := by
  rw [surroundings_eq_editing]
  exact editing_mild _ _

/-- A result for the file at `n`, made when `m` was the memory. -/
structure Resolution.MadeIn (m : Memory) (n : Location) (r : Resolution) : Prop where
  place : r.id.location = n
  wellFormed : r.id.WellFormed
  script : r.id.kind = .script → r = Memory.surroundings.scriptResult m r.id r.stamp

/-- Nothing that is in a result depends on how often projects were cracked. -/
theorem Resolution.madeIn_cracks {m : Memory} {n : Location} {r : Resolution}
    {cracks : List (Location × Nat)} :
    r.MadeIn { m with cracks } n ↔ r.MadeIn m n :=
  ⟨fun h => ⟨h.place, h.wellFormed, h.script⟩, fun h => ⟨h.place, h.wellFormed, h.script⟩⟩

/-- Between `w` and `w'` some files were resolved, and nothing else happened. -/
structure Still (w w' : Workspace Memory) : Prop where
  tidy : w'.Tidy
  elapsed : Elapsed [] w w'
  /-- Nobody wrote a file or edited the table. -/
  outside : ∃ cracks, w'.outside = { w.outside with cracks }
  /-- A project that was cracked was cracked once, and only if it had no result and
  was not in progress. -/
  once : ∀ n, w'.outside.cracksOf n = w.outside.cracksOf n ∨
    (w'.outside.cracksOf n = w.outside.cracksOf n + 1 ∧ w.cache.peek n = none ∧ ¬ w.cache.Busy n ∧
      ∃ r, w'.cache.peek n = some r ∧ w.made ≤ r.stamp)
  /-- A result that is new was made of what the surroundings say. -/
  found : ∀ n r, w'.cache.peek n = some r → w.cache.peek n = some r ∨ r.MadeIn w.outside n

section

variable {w w₁ w' : Workspace Memory}

theorem Still.refl (hw : w.Tidy) : Still w w where
  tidy := hw
  elapsed := .refl w
  outside := ⟨_, rfl⟩
  once _ := Or.inl rfl
  found _ _ h := Or.inl h

/-- A result stays in the map. -/
theorem Still.peek (hw : w.Tidy) (h : Still w w') {n : Location} {r : Resolution}
    (hr : w.cache.peek n = some r) :
    w'.cache.peek n = some r :=
  h.elapsed.cache.peek hw.lone h.tidy.lone hr (by simp)

theorem Still.peek_eq_none (hw : w.Tidy) (h : Still w w') {n : Location}
    (hn : w'.cache.peek n = none) :
    w.cache.peek n = none := by
  refine Option.eq_none_iff_forall_ne_some.mpr fun r hr => ?_
  cases (h.peek hw hr).symm.trans hn

theorem Still.busy_iff (h : Still w w') (n : Location) : w'.cache.Busy n ↔ w.cache.Busy n :=
  h.elapsed.busy_iff n

theorem Still.trans (hw : w.Tidy) (h : Still w w₁) (h' : Still w₁ w') : Still w w' where
  tidy := h'.tidy
  elapsed := h.elapsed.trans h'.elapsed
  outside := by
    obtain ⟨cracks, ho⟩ := h.outside
    obtain ⟨cracks', ho'⟩ := h'.outside
    exact ⟨cracks', by rw [ho', ho]⟩
  once n := by
    rcases h.once n with hn | ⟨hn, hnone, hidle, r, hr, hs⟩
    · rcases h'.once n with hn' | ⟨hn', hnone', hidle', r, hr, hs⟩
      · exact Or.inl (hn'.trans hn)
      · exact Or.inr ⟨by rw [hn', hn], h.peek_eq_none hw hnone',
          fun hb => hidle' ((h.busy_iff n).mpr hb), r, hr,
          h.elapsed.made.trans hs⟩
    · -- what was made in the first part is in the map, so it is not made again in the second
      have hr' := h'.peek h.tidy hr
      rcases h'.once n with hn' | ⟨-, hnone', -⟩
      · exact Or.inr ⟨hn'.trans hn, hnone, hidle, r, hr', hs⟩
      · cases hr.symm.trans hnone'
  found n r hr := by
    rcases h'.found n r hr with hr | hmade
    · exact h.found n r hr
    · obtain ⟨cracks, ho⟩ := h.outside
      rw [ho, Resolution.madeIn_cracks] at hmade
      exact Or.inr hmade

/-- A file in flight is not cracked again, and its result is kept. -/
theorem Still.arrive {id : Identity} {s : Serial} {c : Cache Resolution} {m : Memory}
    {r : Resolution} (hw : w.Tidy) (hc : w.cache.Claims 0 id.location s id c)
    (hm : m = w.outside ∨ m = w.outside.countCrack id.location)
    (h : Still { w with cache := c, outside := m } w₁) (hs : r.stamp = w₁.made)
    (hmade : r.MadeIn w.outside id.location) :
    Still w (w₁.arrive s r) ∧ (w₁.arrive s r).cache.peek id.location = some r := by
  have hcount : Elapsed [] { w with cache := c } { w with cache := c, outside := m } := by
    rcases hm with rfl | rfl
    · exact .refl _
    · exact (countCrack_changes id.location { w with cache := c }).elapsed
  have hel : Elapsed [] { w with cache := c } w₁ := hcount.trans h.elapsed
  have hself : (w₁.arrive s r).cache.peek id.location = some r :=
    (hel.peek_arrive hc h.tidy r id.location).trans (if_pos rfl)
  have hother : ∀ n, n ≠ id.location → (w₁.arrive s r).cache.peek n = w₁.cache.peek n :=
    fun n hn => (hel.peek_arrive hc h.tidy r n).trans (if_neg hn)
  have hpeek : ∀ n, Cache.peek c n = w.cache.peek n := hc.peek hw.lone
  refine ⟨⟨h.tidy.arrive s r, hel.arrive hc hs, ?_, fun n => ?_, fun n u hu => ?_⟩, hself⟩
  · obtain ⟨cracks, ho⟩ := h.outside
    rcases hm with rfl | rfl
    · exact ⟨cracks, ho⟩
    · exact ⟨cracks, ho⟩
  · show w₁.outside.cracksOf n = _ ∨ (w₁.outside.cracksOf n = _ ∧ _)
    by_cases hn : n = id.location
    · subst hn
      -- while it is in progress it is not cracked again
      have hsame : w₁.outside.cracksOf id.location = m.cracksOf id.location :=
        (h.once id.location).resolve_right fun hagain => hagain.2.2.1 hc.busy
      rcases hm with rfl | rfl
      · exact Or.inl hsame
      · rw [Memory.cracksOf_countCrack, if_pos rfl] at hsame
        refine Or.inr ⟨hsame, hc.peek_eq_none hw.lone, hc.not_busy hw.lone, r, hself, ?_⟩
        rw [hs]
        exact hel.made
    · have hm' : m.cracksOf n = w.outside.cracksOf n := by
        rcases hm with rfl | rfl
        · rfl
        · rw [Memory.cracksOf_countCrack, if_neg hn, Nat.add_zero]
      rcases h.once n with heq | ⟨heq, hnone, hidle, u, hu, hle⟩
      · exact Or.inl (heq.trans hm')
      · exact Or.inr ⟨heq.trans (congrArg (· + 1) hm'), (hpeek n).symm.trans hnone,
          fun hb => hidle ((hc.busy_iff n).mpr (Or.inl hb)), u, (hother n hn).trans hu, hle⟩
  · by_cases hn : n = id.location
    · subst hn
      cases hself.symm.trans hu
      exact Or.inr hmade
    · rcases h.found n u ((hother n hn).symm.trans hu) with hu | hmade'
      · exact Or.inl ((hpeek n).symm.trans hu)
      · refine Or.inr ?_
        rcases hm with rfl | rfl
        · exact hmade'
        · exact Resolution.madeIn_cracks.mp hmade'

/-- A file that is asked for is in the map when its result is returned. -/
def Errand.Settles : Errand → Answer → Workspace Memory → Prop
  | fetch id _, .fetched (.ok r), w => w.cache.peek id.location = some r
  | _, _, _ => True

/-- Whatever is resolved while nothing changes stays in the map. -/
theorem Steps.still {t : Errand} {a : Answer} (h : Steps Memory.surroundings t w a w')
    (ht : t.WellFormed) (hw : w.Tidy) : Still w w' ∧ t.Settles a w' := by
  induction h with
  | ready hp => exact ⟨.refl hw, hp⟩
  | refused _ => exact ⟨.refl hw, trivial⟩
  | @leaf id path w s c r hk hc hr hscript =>
      refine Still.arrive hw hc (Or.inl rfl) (.refl (hw.claim ht hc)) hr.stamp ⟨by rw [hr.id],
        hr.id ▸ ht, fun hk => ?_⟩
      rw [hr.id, hr.stamp]
      exact hscript (hr.id ▸ hk)
  | @project id path w w₁ w₂ s c report loadTime linked r hk hc hcrack _ hr ih =>
      cases hcrack
      have hrid : r.id = id := by rw [hr, CrackReport.result_id]
      have hstamp : r.stamp = w₂.made := by rw [hr, CrackReport.result_stamp]
      obtain ⟨h, -⟩ := ih (.links ht _ _ _) ((hw.claim ht hc).outside _)
      refine Still.arrive hw hc (Or.inr rfl) h hstamp ⟨by rw [hrid], hrid ▸ ht, fun hscript => ?_⟩
      -- a project is not a script
      rw [hrid, hk] at hscript
      cases hscript
  | nil => exact ⟨.refl hw, trivial⟩
  | cons _ _ ih₁ ih₂ =>
      obtain ⟨h₁, -⟩ := ih₁ (ht.2 _ (by simp)).1 hw
      obtain ⟨h₂, -⟩ := ih₂ ⟨ht.1, fun d hd => ht.2 d (by simp [hd])⟩ h₁.tidy
      exact ⟨h₁.trans hw h₂, trivial⟩

/-- A query only resolves files. -/
theorem Fetches.still (h : Fetches Memory.surroundings w w') (hw : w.Tidy) : Still w w' := by
  induction h with
  | refl w => exact .refl hw
  | cons hid hs _ ih =>
      obtain ⟨h, -⟩ := hs.still hid hw
      exact h.trans hw (ih h.tidy)

end

end FSharpWorkspace
