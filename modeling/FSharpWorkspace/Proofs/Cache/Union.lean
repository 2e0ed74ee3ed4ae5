import FSharpWorkspace.Proofs.Cache.Cascade
/-!
# Several cascades

A cascade leaves exactly the values of the files that it does not reach
(`Cache.mem_computed_cascade`). A later one runs over what is left. It reaches fewer files than it
would have reached before, but those that it misses are gone already: a chain of dependents runs
through a value that the first one took away only to files which the first one took away as well
(`Cache.reaches_cascade`). So cascades one after the other take away what they reach together, in
whatever order they run (`Cache.mem_computed_cascades`).
-/

set_option autoImplicit false

namespace FSharpWorkspace.Cache

variable {ν : Type} {depends : ν → Location → Bool} {c : Cache ν} {x y : Location} {id : Identity}
  {v : ν}

/-! ## One cascade -/

theorem computed_foldl_invalidate (c : Cache ν) (xs : List Location) :
    (xs.foldl invalidate c).computed = c.computed.filter (·.1.location ∉ xs) := by
  induction xs generalizing c with
  | nil => exact (List.filter_eq_self.mpr (by simp)).symm
  | cons x xs ih =>
      rw [List.foldl_cons, ih, computed_invalidate, List.filter_filter]
      refine List.filter_congr fun entry _ => ?_
      simp [Bool.and_comm]

theorem Lone.cascade (hc : c.Lone) (x : Location) : (c.cascade depends x).Lone := by
  obtain ⟨xs, hxs, -⟩ := cascade_eq_foldl depends hc x
  rw [hxs]
  exact hc.foldl_invalidate xs

/-- A cascade leaves the values of the files that it does not reach. -/
theorem mem_computed_cascade (hc : c.Lone) (x : Location) :
    (id, v) ∈ (c.cascade depends x).computed ↔ (id, v) ∈ c.computed ∧
      ¬ c.Reaches depends x id.location := by
  obtain ⟨xs, hxs, -, hreaches⟩ := cascade_eq_foldl depends hc x
  rw [hxs, computed_foldl_invalidate, List.mem_filter, ← hreaches]
  simp

theorem peek_cascade (hc : c.Lone) (x : Location) :
    (c.cascade depends x).peek y = some v ↔ c.peek y = some v ∧ ¬ c.Reaches depends x y := by
  obtain ⟨xs, hxs, -, hreaches⟩ := cascade_eq_foldl depends hc x
  rw [hxs, peek_foldl_invalidate hc, hreaches]

/-! ## One cascade after another -/

/-- What a cascade reaches after another one it would have reached before. -/
theorem Reaches.of_cascade {l : Location} (hc : c.Lone)
    (h : (c.cascade depends x).Reaches depends y l) :
    c.Reaches depends y l := by
  induction h with
  | self => exact .self
  | dependent _ hp hd ih => exact .dependent ih ((peek_cascade hc x).mp hp).1 hd

/-- A file that the first cascade does not reach is reached by the second one just as
without the first. -/
theorem reaches_cascade {l : Location} (hc : c.Lone) (hl : ¬ c.Reaches depends x l) :
    (c.cascade depends x).Reaches depends y l ↔ c.Reaches depends y l := by
  constructor
  · exact Reaches.of_cascade hc
  · intro h
    induction h with
    | self => exact .self
    | @dependent z l v hz hp hd ih =>
        -- the file before it on the chain was not reached either
        have hbefore : ¬ c.Reaches depends x z := fun hx => hl (.dependent hx hp hd)
        exact .dependent (ih hbefore) ((peek_cascade hc x).mpr ⟨hp, hl⟩) hd

/-- **Cascades take away what they reach together**, whatever the earlier ones took away. -/
theorem mem_computed_cascades (hc : c.Lone) (xs : List Location) :
    (id, v) ∈ (xs.foldl (fun c x => c.cascade depends x) c).computed ↔
      (id, v) ∈ c.computed ∧ ∀ x ∈ xs, ¬ c.Reaches depends x id.location := by
  induction xs generalizing c with
  | nil => simp
  | cons x xs ih =>
      rw [List.foldl_cons, ih (hc.cascade x), mem_computed_cascade hc, List.forall_mem_cons]
      constructor
      · rintro ⟨⟨hmem, hx⟩, hxs⟩
        exact ⟨hmem, hx, fun y hy hreach => hxs y hy ((reaches_cascade hc hx).mpr hreach)⟩
      · rintro ⟨hmem, hx, hxs⟩
        exact ⟨⟨hmem, hx⟩, fun y hy hreach => hxs y hy ((reaches_cascade hc hx).mp hreach)⟩

end FSharpWorkspace.Cache
