import FSharpWorkspace.Proofs.Held.Sound
/-!
# What a flight brings

While a file is in flight, its references are resolved one after the other and files are
invalidated. Some results that come back stay in the map; others are refused by the map because
something they derive from was invalidated, and their files may be resolved again. `Flight E w₀ w
roots` says what is known at `w` of the results `roots` that came back since `w₀`, where `E` was
invalidated meanwhile:

* of every result held along a trail that avoids `E` (`Delivered`): it is in the map, or it is
  derived from a file of `E` and its references were refused only to files on the trail or in
  progress since `w₀`;
* of every result that was made since and is in the map: it is held along some trail that
  explains its refusals.

Flights follow each other (`Flight.trans`), and a flight of the references of a project becomes a
flight of the project (`Arrives.flight_arrive`).
-/

set_option autoImplicit false

namespace FSharpWorkspace

open Resolution (Trail)

/-! ## Delivered results -/

/-- The references that `q` lacks were refused for files on `path`, its own, or files
in progress at `w₀`. -/
def Resolution.Explained (q : Resolution) (w₀ : Workspace Memory) (path : List Location) : Prop :=
  ∀ x, q.Cuts x → x ∈ path ∨ x = q.id.location ∨ w₀.cache.Busy x

/-- What is known of a result at the end of the trail `path`, which avoids `E`. -/
structure Delivered (E : List Location) (w₀ w : Workspace Memory) (path : List Location)
    (q : Resolution) :
    Prop where
  wellFormed : q.id.WellFormed
  grounded : q.Grounded
  stamp : q.stamp < w.made
  idle : ¬ w₀.cache.Busy q.id.location
  origin : (q.stamp < w₀.made ∧ w₀.cache.peek q.id.location = some q) ∨
    (w₀.made ≤ q.stamp ∧ w₀.cache.peek q.id.location = none)
  kept : w.cache.peek q.id.location = some q ∨
    ((∃ m ∈ E, q.derivedFrom m = true) ∧ q.Explained w₀ path)
  newest : ∀ u, w.cache.peek q.id.location = some u → q.stamp ≤ u.stamp
  reported : q.Reported w.outside

/-- What is known of the results `roots` that came back between `w₀` and `w`. -/
structure Flight (E : List Location) (w₀ w : Workspace Memory)
    (roots : List (Option Location × Resolution)) :
    Prop where
  elapsed : Elapsed E w₀ w
  trail : ∀ path q, Trail E roots path q → Delivered E w₀ w path q
  cached : ∀ l u, w.cache.peek l = some u → w₀.made ≤ u.stamp →
    ∃ path, Trail [] roots path u ∧ u.Explained w₀ path

/-! ## Short flights -/

section Short

variable {w w' : Workspace Memory}

theorem not_trail_nil {E : List Location} {path : List Location} {q : Resolution} :
    ¬ Trail E [] path q := by
  intro h
  cases h with
  | root h _ => cases h
  | under h _ _ => cases h

/-- Nothing comes back while files are only invalidated. -/
theorem Changes.flight {xs : List Location} (hw : w.Sound [])
    (h : Changes xs w w') : Flight xs w w' [] where
  elapsed := h.elapsed
  trail path q ht := absurd ht not_trail_nil
  cached l u hp hu := by
    have hk := hw.keeps l u ((h.peek hw.tidy.lone l u).mp hp).1
    exact absurd hk.stamp (Nat.not_lt.mpr hu)

/-- A result that is in the map comes back with everything that it holds. -/
theorem Workspace.Sound.flight_ready (hw : w.Sound []) {l : Location} {r : Resolution}
    (o : Option Location) (h : w.cache.peek l = some r) : Flight [] w w [(o, r)] where
  elapsed := .refl w
  trail path q ht := by
    have hr : ∀ o' r', (o', r') ∈ [(o, r)] → w.cache.peek r'.id.location = some r' := by
      intro o' r' hmem
      cases List.mem_singleton.mp hmem
      rw [(hw.keeps l r h).place]
      exact h
    have hq := hw.cached_of_trail hr ht
    have hk := hw.keeps _ _ hq
    refine ⟨hk.wellFormed, hk.grounded, hk.stamp, fun hb => ?_, Or.inl ⟨hk.stamp, hq⟩,
      Or.inl hq, fun u hu => ?_,
      hk.reported (by simp)⟩
    · cases (hb.peek_eq_none hw.tidy.lone).symm.trans hq
    · cases hq.symm.trans hu
      exact Nat.le_refl _
  cached l' u hp hu := absurd (hw.keeps l' u hp).stamp (Nat.not_lt.mpr hu)

theorem Workspace.Sound.flight_nil (hw : w.Sound []) : Flight [] w w [] :=
  (Changes.refl w).flight hw

end Short

/-! ## Flights in sequence -/

section Sequence

variable {E E' : List Location} {w₀ w w' : Workspace Memory} {path : List Location} {q : Resolution}

/-- What is known of a result stays known while other files are in flight. -/
theorem Delivered.later (hw : w.Sound []) (hw' : w'.Sound []) (h : Elapsed E' w w')
    (hq : q.id.location ∉ E') (hd : Delivered E w₀ w path q) :
    Delivered (E ++ E') w₀ w' path q where
  wellFormed := hd.wellFormed
  grounded := hd.grounded
  stamp := Nat.lt_of_lt_of_le hd.stamp h.made
  idle := hd.idle
  origin := hd.origin
  kept := by
    rcases hd.kept with hp | ⟨⟨m, hm, hder⟩, hex⟩
    · exact Or.inl (h.cache.peek hw.tidy.lone hw'.tidy.lone hp hq)
    · exact Or.inr ⟨⟨m, List.mem_append_left _ hm, hder⟩, hex⟩
  newest u hu := by
    rcases h.cache.peek_inv hw.tidy.lone hw'.tidy.lone hu with ⟨hp, -⟩ | hf
    · exact hd.newest u hp
    · exact Nat.le_of_lt (Nat.lt_of_lt_of_le hd.stamp hf)
  reported := hd.reported.congr (h.report _ hq)

theorem Resolution.Explained.earlier (h : Elapsed E w₀ w) (hex : q.Explained w path) :
    q.Explained w₀ path := by
  intro x hx
  rcases hex x hx with hp | hp | hb
  · exact Or.inl hp
  · exact Or.inr (Or.inl hp)
  · exact Or.inr (Or.inr (h.cache.was_busy hb).1)

/-- What is known of a result since `w` is known since an earlier moment. -/
theorem Delivered.earlier (hw₀ : w₀.Sound []) (hw : w.Sound []) (h : Elapsed E w₀ w)
    (hq : q.id.location ∉ E) (hd : Delivered E' w w' path q) :
    Delivered (E ++ E') w₀ w' path q where
  wellFormed := hd.wellFormed
  grounded := hd.grounded
  stamp := hd.stamp
  idle hb := hd.idle (h.cache.stays_busy hb hq)
  origin := by
    rcases hd.origin with ⟨hlt, hp⟩ | ⟨hle, hp⟩
    · rcases h.cache.peek_inv hw₀.tidy.lone hw.tidy.lone hp with ⟨hp₀, -⟩ | hf
      · exact Or.inl ⟨(hw₀.keeps _ _ hp₀).stamp, hp₀⟩
      · refine Or.inr ⟨hf, ?_⟩
        cases hp₀ : w₀.cache.peek q.id.location with
        | none => rfl
        | some u =>
            -- a result that was there at `w₀` would still be there, but it has an older stamp
            have hu := h.cache.peek hw₀.tidy.lone hw.tidy.lone hp₀ hq
            cases hp.symm.trans hu
            exact absurd (hw₀.keeps _ _ hp₀).stamp (Nat.not_lt.mpr hf)
    · refine Or.inr ⟨h.made.trans hle, ?_⟩
      cases hp₀ : w₀.cache.peek q.id.location with
      | none => rfl
      | some u => cases hp.symm.trans (h.cache.peek hw₀.tidy.lone hw.tidy.lone hp₀ hq)
  kept := by
    rcases hd.kept with hp | ⟨⟨m, hm, hder⟩, hex⟩
    · exact Or.inl hp
    · exact Or.inr ⟨⟨m, List.mem_append_right _ hm, hder⟩, hex.earlier h⟩
  newest := hd.newest
  reported := hd.reported

/-- One flight after the other. -/
theorem Flight.trans {roots roots' : List (Option Location × Resolution)} (hw₀ : w₀.Sound [])
    (hw : w.Sound []) (hw' : w'.Sound []) (h : Flight E w₀ w roots) (h' : Flight E' w w' roots') :
    Flight (E ++ E') w₀ w' (roots ++ roots') where
  elapsed := h.elapsed.trans h'.elapsed
  trail path q ht := by
    obtain ⟨hE, hE'⟩ := not_or.mp (List.mem_append.not.mp ht.avoids)
    rcases ht.of_append with ht | ht
    · exact (h.trail path q (ht.avoiding fun l hl => List.mem_append_left _ hl)).later hw hw'
        h'.elapsed hE'
    · exact (h'.trail path q (ht.avoiding fun l hl => List.mem_append_right _ hl)).earlier hw₀ hw
        h.elapsed hE
  cached l u hp hu := by
    rcases h'.elapsed.cache.peek_inv hw.tidy.lone hw'.tidy.lone hp with ⟨hp, -⟩ | hf
    · obtain ⟨path, ht, hex⟩ := h.cached l u hp hu
      exact ⟨path, ht.mono fun x hx => List.mem_append_left _ hx, hex⟩
    · obtain ⟨path, ht, hex⟩ := h'.cached l u hp hf
      exact ⟨path, ht.mono fun x hx => List.mem_append_right _ hx, hex.earlier h.elapsed⟩

end Sequence

/-! ## Arrival -/

section Arrival

variable {E : List Location} {w w₁ : Workspace Memory} {s : Serial} {id : Identity}
  {c : Cache Resolution} {r : Resolution}

/-- A result arrives at the entry with serial `s`, which was claimed for its file at `w`. -/
structure Arrives (E : List Location) (w : Workspace Memory) (s : Serial) (c : Cache Resolution)
    (w₁ : Workspace Memory) (r : Resolution) : Prop where
  claim : w.cache.Claims 0 r.id.location s r.id c
  flight : Flight E { w with cache := c } w₁ r.references
  stamp : r.stamp = w₁.made
  wellFormed : r.id.WellFormed
  grounded : r.Grounded
  explained : ∀ x, r.Cuts x → c.Busy x
  reported : r.id.location ∉ E → r.Reported w₁.outside

/-- What the map says of the file of a result when it arrives. -/
theorem Arrives.peek_self (h : Arrives E w s c w₁ r) (hw₁ : w₁.Sound []) (hE : r.id.location ∉ E) :
    (w₁.arrive s r).cache.peek r.id.location =
      if Cache.isStale Resolution.derivedFrom r E then none else some r :=
  h.claim.peek_finish_self h.flight.elapsed.cache hw₁.tidy.lone hE

/-- Nothing was in the map for the file before. -/
theorem Arrives.peek_before (h : Arrives E w s c w₁ r) (hw₁ : w₁.Sound []) {u : Resolution}
    (hp : w₁.cache.peek r.id.location = some u) : r.id.location ∈ E := by
  by_contra hE
  have hb := h.flight.elapsed.cache.stays_busy h.claim.busy hE
  cases (hb.peek_eq_none hw₁.tidy.lone).symm.trans hp

/-- An arrival takes nothing out of the map. -/
theorem Arrives.peek_of_peek (h : Arrives E w s c w₁ r) (hw₁ : w₁.Sound []) {l : Location}
    {u : Resolution} (hp : w₁.cache.peek l = some u) : (w₁.arrive s r).cache.peek l = some u := by
  have hl : l ≠ r.id.location ∨ r.id.location ∈ E := by
    by_cases hl : l = r.id.location
    · -- a result that is there already was made in the flight, after the file was invalidated
      subst hl
      exact Or.inr (h.peek_before hw₁ hp)
    · exact Or.inl hl
  exact (h.claim.peek_finish_of_ne h.flight.elapsed.cache hw₁.tidy.lone hl).trans hp

/-- An arrival adds at most the result that arrives. -/
theorem Arrives.peek_cases (h : Arrives E w s c w₁ r) (hw₁ : w₁.Sound []) {l : Location}
    {u : Resolution} (hp : (w₁.arrive s r).cache.peek l = some u) :
    w₁.cache.peek l = some u ∨
      (l = r.id.location ∧ u = r ∧ r.id.location ∉ E ∧
        Cache.isStale Resolution.derivedFrom r E = false) := by
  by_cases hl : l ≠ r.id.location ∨ r.id.location ∈ E
  · exact Or.inl ((h.claim.peek_finish_of_ne h.flight.elapsed.cache hw₁.tidy.lone hl).symm.trans hp)
  · obtain ⟨hl, hE⟩ := not_or.mp hl
    rw [not_not] at hl
    subst hl
    rw [h.peek_self hw₁ hE] at hp
    by_cases hs : Cache.isStale Resolution.derivedFrom r E = true
    · rw [if_pos hs] at hp
      cases hp
    · rw [if_neg hs] at hp
      cases hp
      exact Or.inr ⟨rfl, rfl, hE, by simpa using hs⟩

/-- The references that a result lacks were refused for its own file, or for files in
progress further out. -/
theorem Arrives.explained_self (h : Arrives E w s c w₁ r) : r.Explained w [] := by
  intro x hx
  rcases (h.claim.busy_iff x).mp (h.explained x hx) with hb | hx
  · exact Or.inr (Or.inr hb)
  · exact Or.inr (Or.inl hx)

theorem Arrives.explained_under (h : Arrives E w s c w₁ r) {path : List Location} {q : Resolution}
    (hex : q.Explained { w with cache := c } path) : q.Explained w (r.id.location :: path) := by
  intro x hx
  rcases hex x hx with hp | hp | hb
  · exact Or.inl (List.mem_cons_of_mem _ hp)
  · exact Or.inr (Or.inl hp)
  · rcases (h.claim.busy_iff x).mp hb with hb | hx
    · exact Or.inr (Or.inr hb)
    · exact Or.inl (hx ▸ List.mem_cons_self)

/-- What is known of a result that arrives. -/
theorem Arrives.delivered_self (h : Arrives E w s c w₁ r) (hw : w.Sound []) (hw₁ : w₁.Sound [])
    (hE : r.id.location ∉ E) : Delivered E w (w₁.arrive s r) [] r where
  wellFormed := h.wellFormed
  grounded := h.grounded
  stamp := by
    rw [h.stamp]
    exact Nat.lt_succ_self _
  idle := h.claim.not_busy hw.tidy.lone
  origin := by
    refine Or.inr ⟨?_, ?_⟩
    · rw [h.stamp]
      exact h.flight.elapsed.made
    · exact h.claim.peek_eq_none hw.tidy.lone
  kept := by
    rw [h.peek_self hw₁ hE]
    by_cases hs : Cache.isStale Resolution.derivedFrom r E = true
    · exact Or.inr ⟨List.any_eq_true.mp hs, h.explained_self⟩
    · exact Or.inl (if_neg hs)
  newest u hu := by
    rcases h.peek_cases hw₁ hu with hp | ⟨-, rfl, -⟩
    · exact absurd (h.peek_before hw₁ hp) hE
    · exact Nat.le_refl _
  reported := h.reported hE

/-- What is known of the results held by one that arrives. -/
theorem Arrives.delivered_under (h : Arrives E w s c w₁ r) (hw : w.Sound []) (hw₁ : w₁.Sound [])
    {path : List Location} {q : Resolution} (hd : Delivered E { w with cache := c } w₁ path q) :
    Delivered E w (w₁.arrive s r) (r.id.location :: path) q where
  wellFormed := hd.wellFormed
  grounded := hd.grounded
  stamp := Nat.lt_succ_of_lt hd.stamp
  idle hb := hd.idle ((h.claim.busy_iff _).mpr (Or.inl hb))
  origin := by
    have hp := h.claim.peek hw.tidy.lone q.id.location
    rw [← hp]
    exact hd.origin
  kept := by
    rcases hd.kept with hp | ⟨hder, hex⟩
    · exact Or.inl (h.peek_of_peek hw₁ hp)
    · exact Or.inr ⟨hder, h.explained_under hex⟩
  newest u hu := by
    -- the file of `r` was in progress, so it is not that of `q`
    have hne : q.id.location ≠ r.id.location := fun he => hd.idle (he ▸ h.claim.busy)
    rcases h.peek_cases hw₁ hu with hp | ⟨he, -⟩
    · exact hd.newest u hp
    · exact absurd he hne
  reported := hd.reported

/-- The flight of the references of a project becomes the flight of the project. -/
theorem Arrives.flight_arrive (h : Arrives E w s c w₁ r) (hw : w.Sound []) (hw₁ : w₁.Sound [])
    (o : Option Location) : Flight E w (w₁.arrive s r) [(o, r)] where
  elapsed := h.flight.elapsed.arrive h.claim h.stamp
  trail path q ht := by
    cases ht with
    | root hmem hE =>
        cases List.mem_singleton.mp hmem
        exact h.delivered_self hw hw₁ hE
    | under hmem hE ht =>
        cases List.mem_singleton.mp hmem
        exact h.delivered_under hw hw₁ (h.flight.trail _ q ht)
  cached l u hp hu := by
    rcases h.peek_cases hw₁ hp with hp | ⟨-, rfl, -⟩
    · obtain ⟨path, ht, hex⟩ := h.flight.cached l u hp hu
      exact ⟨_, .under (List.mem_singleton_self (o, r)) (by simp) ht, h.explained_under hex⟩
    · exact ⟨[], .root (List.mem_singleton_self (o, u)) (by simp), h.explained_self⟩

end Arrival

end FSharpWorkspace
