import FSharpWorkspace.Proofs.Held.Resolve
/-!
# Lost results

A result is lost if it is not in the map when the query that made it ends. Either the map refused
it, because something that it derives from was invalidated in its flight, or it was dropped
afterwards. `Spares S w₀ w` says that between `w₀` and `w` this happened to no project of `S`; it is
read off the map and off how often projects were cracked.

What is known at the end of a query is needed where a result arrives (`Arrives.unaffected`).
It is carried back there along resolutions, because whatever they made was cracked and
counted (`Accounted`).
-/

set_option autoImplicit false

namespace FSharpWorkspace

/-! ## Counting cracks -/

/-- Only projects were cracked between `w₀` and `w`, and every result for a project that was made
meanwhile and is in the map was counted. -/
structure Accounted (w₀ w : Workspace Memory) : Prop where
  made : w₀.made ≤ w.made
  count : ∀ x, w₀.outside.cracksOf x ≤ w.outside.cracksOf x
  project : ∀ id : Identity, id.WellFormed →
    w₀.outside.cracksOf id.location < w.outside.cracksOf id.location → id.kind = .project
  cracked : ∀ x r, w.cache.peek x = some r → w₀.made ≤ r.stamp → r.id.kind = .project →
    w₀.outside.cracksOf x < w.outside.cracksOf x

/-- Between `w₀` and `w` no result for a project of `S` was lost: a project that was cracked and is
not in progress was cracked once, and the result is in the map. -/
def Spares (S : Location → Prop) (w₀ w : Workspace Memory) : Prop :=
  ∀ n, S n → w₀.outside.cracksOf n < w.outside.cracksOf n → ¬ w.cache.Busy n →
    w.outside.cracksOf n = w₀.outside.cracksOf n + 1 ∧ ∃ r,
      w.cache.peek n = some r ∧ w₀.made ≤ r.stamp

section

variable {w₀ w w' : Workspace Memory} {E : List Location}

theorem Accounted.refl (hw : w.Sound []) : Accounted w w where
  made := Nat.le_refl _
  count _ := Nat.le_refl _
  project _ _ hlt := absurd hlt (Nat.lt_irrefl _)
  cracked x r hr hs := absurd (hw.keeps x r hr).stamp (Nat.not_lt.mpr hs)

theorem Accounted.trans (hw : w.Sound []) (hw' : w'.Sound []) (h : Accounted w₀ w)
    (hel : Elapsed E w w') (h' : Accounted w w') : Accounted w₀ w' where
  made := h.made.trans h'.made
  count x := (h.count x).trans (h'.count x)
  project id hid hlt := by
    by_cases hfirst : w₀.outside.cracksOf id.location < w.outside.cracksOf id.location
    · exact h.project id hid hfirst
    · exact h'.project id hid (Nat.lt_of_le_of_lt (Nat.not_lt.mp hfirst) hlt)
  cracked x r hr hs hk := by
    rcases hel.cache.peek_inv hw.tidy.lone hw'.tidy.lone hr with ⟨hp, -⟩ | hf
    · exact Nat.lt_of_lt_of_le (h.cracked x r hp hs hk) (h'.count x)
    · exact Nat.lt_of_le_of_lt (h.count x) (h'.cracked x r hr hf hk)

theorem Accounted.claim {l : Location} {s : Serial} {id : Identity} {c : Cache Resolution}
    (hw : w.Sound []) (h : Accounted w₀ w) (hc : w.cache.Claims 0 l s id c) :
    Accounted w₀ { w with cache := c } where
  made := h.made
  count := h.count
  project := h.project
  cracked x r hr := h.cracked x r ((hc.peek hw.tidy.lone x).symm.trans hr)

theorem Cracks.accounted {id : Identity} {xs ys : List Location} {report : CrackReport}
    (hw : w.Sound []) (hid : id.WellFormed) (hk : id.kind = .project)
    (h : Cracks id.location xs ys w report w') : Accounted w w' where
  made := h.elapsed.made
  count x := by
    rw [h.count x]
    exact Nat.le_add_right _ _
  project id' hid' hlt := by
    rw [h.count id'.location] at hlt
    by_cases hl : id'.location = id.location
    · rw [hid'.eq hid hl]
      exact hk
    · rw [if_neg hl] at hlt
      exact absurd hlt (Nat.lt_irrefl _)
  cracked x r hr hs := by
    obtain ⟨wₘ, hbefore, -, hafter⟩ := h.moment
    have hp := ((hafter.peek (hbefore.lone hw.tidy.lone) x r).mp hr).1
    have hp := ((hbefore.peek hw.tidy.lone x r).mp hp).1
    exact absurd (hw.keeps x r hp).stamp (Nat.not_lt.mpr hs)

/-- At an earlier moment nothing was lost either. -/
theorem Spares.earlier {S : Location → Prop} (hw : w.Sound []) (hw' : w'.Sound [])
    (h₀ : Accounted w₀ w) (hel : Elapsed E w w') (h : Accounted w w')
    (hs : Spares S w₀ w') : Spares S w₀ w := by
  intro n hn hlt hb
  have hle := h.count n
  obtain ⟨hone, r, hr, hstamp⟩ :=
    hs n hn (Nat.lt_of_lt_of_le hlt hle) fun hb' => hb (hel.cache.was_busy hb').1
  rcases hel.cache.peek_inv hw.tidy.lone hw'.tidy.lone hr with ⟨hp, -⟩ | hf
  · exact ⟨by omega, r, hp, hstamp⟩
  · -- a result that was made later would be one of a second crack
    have hkeeps := hw'.keeps n r hr
    have hk := h₀.project r.id hkeeps.wellFormed (by rw [hkeeps.place]; exact hlt)
    have hagain := h.cracked n r hr hf hk
    omega

end

/-! ## Arrival -/

section Arrival

variable {E xs ys : List Location} {w₀ w w₁ w₂ : Workspace Memory} {s : Serial}
  {c : Cache Resolution} {report : CrackReport} {r : Resolution} {S : Location → Prop}

theorem Arrives.accounted (h : Arrives E w s c w₂ r) (hw₂ : w₂.Sound []) (hacc : Accounted w w₂)
    (hr : r.id.kind = .project →
      w.outside.cracksOf r.id.location < w₂.outside.cracksOf r.id.location) :
    Accounted w (w₂.arrive s r) where
  made := hacc.made.trans (Nat.le_succ _)
  count := hacc.count
  project := hacc.project
  cracked x u hu hs hk := by
    rcases h.peek_cases hw₂ hu with hp | ⟨rfl, rfl, -⟩
    · exact hacc.cracked x u hp hs hk
    · exact hr hk

/-- A project in flight was counted. -/
theorem Arrives.accounted_project (h : Arrives E w s c w₂ r) (hw : w.Sound []) (hw₂ : w₂.Sound [])
    (hk : r.id.kind = .project) (hx : Cracks r.id.location xs ys { w with cache := c } report w₁)
    {E' : List Location} (hel : Elapsed E' w₁ w₂) (h₁ : Accounted w₁ w₂) :
    Accounted w (w₂.arrive s r) := by
  have hw₀ := hw.claim h.wellFormed h.claim
  have hw₁ := hw₀.cracks hx
  have hcracked : Accounted w w₁ :=
    ((Accounted.refl hw).claim hw h.claim).trans hw₀ hw₁ hx.elapsed
      (hx.accounted hw₀ h.wellFormed hk)
  refine h.accounted hw₂ (hcracked.trans hw₁ hw₂ hel h₁) fun _ =>
    Nat.lt_of_lt_of_le ?_ (h₁.count r.id.location)
  rw [hx.count, if_pos rfl]
  exact Nat.lt_succ_self _

/-- A file that is in progress after an arrival was in progress at any time in the flight. -/
theorem Arrives.was_busy (h : Arrives E w s c w₂ r) {n : Location}
    (hb : (w₂.arrive s r).cache.Busy n) :
    w.cache.Busy n ∧ w₂.cache.Busy n := by
  obtain ⟨hbefore, hE⟩ := (h.flight.elapsed.arrive h.claim h.stamp).cache.was_busy hb
  exact ⟨hbefore, h.flight.elapsed.cache.stays_busy ((h.claim.busy_iff n).mpr (Or.inl hbefore)) hE⟩

/-- If no result for its project is lost, a result is kept when it arrives. -/
theorem Arrives.unaffected (h : Arrives E w s c w₂ r) (hw : w.Sound []) (hw₂ : w₂.Sound [])
    (hk : r.id.kind = .project) (hx : Cracks r.id.location xs ys { w with cache := c } report w₁)
    (h₀ : Accounted w₀ w) (h₁ : Accounted w₁ w₂) (hS : S r.id.location)
    (hs : Spares S w₀ (w₂.arrive s r)) :
    Unaffected E w s c w₂ r := by
  have hcount : w₁.outside.cracksOf r.id.location = w.outside.cracksOf r.id.location + 1 := by
    rw [hx.count, if_pos rfl]
  have hle₀ := h₀.count r.id.location
  have hle₁ := h₁.count r.id.location
  have hbusy : ¬ (w₂.arrive s r).cache.Busy r.id.location :=
    fun hb => h.claim.not_busy hw.tidy.lone (h.was_busy hb).1
  have hlt : w₀.outside.cracksOf r.id.location <
      (w₂.arrive s r).outside.cracksOf r.id.location := by
    show w₀.outside.cracksOf r.id.location < w₂.outside.cracksOf r.id.location
    omega
  obtain ⟨hone, u, hu, hstamp⟩ := hs _ hS hlt hbusy
  replace hone : w₂.outside.cracksOf r.id.location = w₀.outside.cracksOf r.id.location + 1 := hone
  rcases h.peek_cases hw₂ hu with hp | ⟨-, -, hE, hfresh⟩
  · -- a result that was made in the flight would be one of a second crack
    exfalso
    have hw₀ := hw.claim h.wellFormed h.claim
    have hkeeps := hw₂.keeps _ u hp
    rcases h.flight.elapsed.cache.peek_inv hw₀.tidy.lone hw₂.tidy.lone hp with ⟨hp, -⟩ | hf
    · cases (h.claim.busy.peek_eq_none hw₀.tidy.lone).symm.trans hp
    · obtain ⟨wₘ, hbefore, -, hafter⟩ := hx.moment
      have hmade : w₁.made = w.made := hafter.made.trans hbefore.made
      have hid := hkeeps.wellFormed.eq h.wellFormed hkeeps.place
      have hagain := h₁.cracked _ u hp (hmade ▸ hf) (hid ▸ hk)
      omega
  · exact { h with avoids := hE, fresh := hfresh }

/-- Just before the arrival nothing was lost either. -/
theorem Arrives.spares_before (h : Arrives E w s c w₂ r) (hw₂ : w₂.Sound [])
    (hkept : S r.id.location → Unaffected E w s c w₂ r)
    (hs : Spares S w₀ (w₂.arrive s r)) : Spares S w₀ w₂ := by
  intro n hn hlt hb
  by_cases hl : n = r.id.location
  · -- the project itself is still in progress
    subst hl
    exact absurd (h.flight.elapsed.cache.stays_busy h.claim.busy (hkept hn).avoids) hb
  · obtain ⟨hone, u, hu, hstamp⟩ := hs n hn hlt fun hb' => hb (h.was_busy hb').2
    rcases h.peek_cases hw₂ hu with hp | ⟨hself, -⟩
    · exact ⟨hone, u, hp, hstamp⟩
    · exact absurd hself hl

end Arrival

end FSharpWorkspace
