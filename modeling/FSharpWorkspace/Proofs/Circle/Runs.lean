import FSharpWorkspace.Proofs.Circle.Trace
import FSharpWorkspace.Proofs.Held.Runs
/-!
# A result on a circle

Whenever no resolution is running, a result with a circle diagnostic belongs to a project that the
table puts on a circle of references, unless some query lost a result for a project of the circle
that the diagnostic tells of (`on_circle_of_isMarked`). A query loses a result when a cracker
changes, in the middle of a resolution, something that the result derives from. The map may then
keep a result further in that was told of a circle through the lost one, and nothing in the map
leads from a change of the circle to the one that remembers it (`outlived_circle`).

What else a query loses does not matter, and without crackers that make edits no result is lost.
-/

set_option autoImplicit false

namespace FSharpWorkspace

/-! ## Queries that lose nothing -/

section

variable {env : Surroundings Memory} {S : Location → Prop} {w₀ w w' : Workspace Memory}

theorem Steps.accounted (henv : Mild env) {id : Identity} {path : List Identity}
    {a : Except (List Identity) Resolution} (h : Steps env (.fetch id path) w (.fetched a) w')
    (hid : id.WellFormed) (hw : w.Sound []) : Accounted w w' := by
  obtain ⟨E, -, hacc, -⟩ := h.brings henv.cracksWithin (traceRule fun _ => True) hid hw
  exact hacc

/-- A query takes some time, and what it makes is counted. -/
theorem Fetches.accounted (henv : Mild env) (h : Fetches env w w') (hw : w.Sound []) :
    ∃ E, Elapsed E w w' ∧ Accounted w w' := by
  induction h with
  | refl w => exact ⟨[], .refl w, .refl hw⟩
  | cons hid hs hrest ih =>
      obtain ⟨E, hf⟩ := hs.fetched henv hid hw
      obtain ⟨E', hel, hacc⟩ := ih hf.sound
      exact ⟨E ++ E', hf.flight.elapsed.trans hel,
        (hs.accounted henv hid hw).trans hf.sound (hf.sound.fetches henv hrest) hel hacc⟩

theorem Steps.traced (henv : Mild env) {id : Identity} {r : Resolution}
    (h : Steps env (.fetch id []) w (.fetched (.ok r)) w') (hid : id.WellFormed) (hw : w.Sound [])
    (hi : w.Idle) (ht : w.Traced S fun _ _ => False) (h₀ : Accounted w₀ w) (hs : Spares S w₀ w') :
    w'.Traced S fun _ _ => False := by
  obtain ⟨E, -, -, hP⟩ := h.brings henv.cracksWithin (traceRule S) hid hw
  refine (hP w₀ _ h₀ hs (fun x hx => absurd hx (hi.not_busy x)) ?_ ht fun _ _ h => h.elim).1
  exact List.isChain_singleton _

/-- A query that loses no result for a project of `S` keeps circles within `S` traced. -/
theorem Fetches.traced (henv : Mild env) (h : Fetches env w w') (hw : w.Sound []) (hi : w.Idle)
    (ht : w.Traced S fun _ _ => False) (h₀ : Accounted w₀ w) (hs : Spares S w₀ w') :
    w'.Traced S fun _ _ => False := by
  induction h with
  | refl => exact ht
  | @cons w w₁ w' id r hid hstep hrest ih =>
      obtain ⟨E, hf⟩ := hstep.fetched henv hid hw
      obtain ⟨E', hel, hacc⟩ := hrest.accounted henv hf.sound
      have h₁ := h₀.trans hw hf.sound hf.flight.elapsed (hstep.accounted henv hid hw)
      have hs₁ := hs.earlier hf.sound (hf.sound.fetches henv hrest) h₁ hel hacc
      exact ih hf.sound (hi.elapsed hf.flight.elapsed) (hstep.traced henv hid hw hi ht h₀ hs₁) h₁ hs

theorem Workspace.Traced.fresh (m : Memory) : (Workspace.fresh m).Traced S fun _ _ => False := by
  intro l u hu
  simp at hu

/-- Runs in which no query loses a result for a project of `S` keep circles within `S` traced. -/
theorem Reached.traced (henv : Mild env) {pending : List Location}
    (h : Reached env (Spares S) w pending) :
    w.Traced S fun _ _ => False := by
  induction h with
  | fresh m => exact .fresh m
  | query q h hq hs ih =>
      have hquiet := h.idle henv
      have hw := h.sound henv
      exact (q.fetches henv hquiet hq).traced henv hw hquiet.idle ih (.refl hw) hs
  | edit _ _ _ _ ih => exact ih
  | change c h hc _ ih =>
      obtain ⟨xs, hx, -⟩ := c.run_changes henv.rooted (h.sound henv).tidy.lone hc
      exact ih.changes (h.sound henv) hx fun _ _ h => h.elim
  | write _ _ _ ih => exact ih
  | remove _ _ ih => exact ih

end

/-! ## Circles of the table -/

section

variable {w : Workspace Memory}

/-- What a result in the map declares is what the table makes its project reference. -/
theorem Workspace.Sound.links_of_declared (hw : w.Sound []) {n n' : Location} {r : Resolution}
    (hr : w.cache.peek n = some r) (hd : n' ∈ places r.declared) : w.outside.Links n n' := by
  have hkeeps := hw.keeps n r hr
  have hreported := hkeeps.reported (by simp)
  by_cases hk : r.id.kind = .project
  · obtain ⟨outcomes, hmade⟩ := hreported.made hk
    rw [hmade.declared] at hd
    rw [← hkeeps.place]
    exact (Memory.links_iff hk).mpr hd
  · unfold Resolution.Reported at hreported
    rw [if_neg hk] at hreported
    rw [hreported.declared] at hd
    cases hd

/-- When circles are traced, one that a project remembers is a circle of the table
through the project. -/
theorem Workspace.Traced.encircled {S : Location → Prop} (ht : w.Traced S fun _ _ => False)
    (hw : w.Sound []) {l : Location} {r : Resolution} (hr : w.cache.peek l = some r)
    (hc : r.cycle ≠ []) (hS : ∀ n ∈ places r.cycle, S n) : Encircled w.outside.Links l r.cycle := by
  refine (ht l r hr hc hS).imp fun n _ n' _ hn => ?_
  obtain ⟨u, hu, hd⟩ := hn.resolve_right id
  exact hw.links_of_declared hu hd

/-- When circles are traced, a result with a circle diagnostic belongs to a project on a circle. -/
theorem Workspace.Traced.on_circle {S : Location → Prop} (ht : w.Traced S fun _ _ => False)
    (hw : w.Sound []) {l : Location} {r : Resolution} (hr : w.cache.peek l = some r)
    (hm : r.IsMarked) (hS : ∀ n ∈ places r.cycle, S n) : Relation.TransGen w.outside.Links l l := by
  have hc := ((hw.keeps l r hr).reported (by simp)).isMarked_iff.mp hm
  have henc := ht.encircled hw hr hc hS
  exact henc.ring.transGen henc.mem henc.mem

end

/-- **A circle diagnostic does not outlive its circle**, as long as no query loses a result for a
project of the circle that it tells of: whenever no resolution is running, a result in the map that
has one belongs to a project on a circle of references of the table. In between, crackers may edit
the table in any way and tell the workspace, and queries may lose other results. -/
theorem on_circle_of_isMarked (plan : Location → Workspace Memory → List Edit × List Edit)
    (depth : Memory → Nat) {w : Workspace Memory} {l : Location} {r : Resolution}
    (h : Reached (Memory.editing plan depth) (Spares (· ∈ places r.cycle)) w [])
    (hr : w.cache.peek l = some r) (hm : r.IsMarked) : Relation.TransGen w.outside.Links l l :=
  (h.traced (editing_mild plan depth)).on_circle (h.sound (editing_mild plan depth)) hr hm
    fun _ hn => hn

/-- The workspace after `d.fsproj` was asked for, which references `c.fsproj` and a circle. While
the circle is resolved, `c.fsproj` is rewritten. -/
def askedOnCircle : Workspace Memory :=
  ((Query.options ⟨"d.fsproj"⟩).run (Memory.editing rewriteMidway Memory.depth)).after
    (.fresh (.listing [("d.fsproj", ["c.fsproj", "a.fsproj"]), ("a.fsproj", ["b.fsproj"]),
      ("b.fsproj", ["a.fsproj"]),
      ("c.fsproj", [])]))

set_option maxRecDepth 10000 in
/-- The result for `d.fsproj` is lost, but those on the circle are not. -/
theorem on_circle_askedOnCircle : ∃ r,
    Reached (Memory.editing rewriteMidway Memory.depth)
      (Spares (· ∈ places r.cycle)) askedOnCircle [] ∧
      askedOnCircle.cache.peek (Memory.locate ⟨"d.fsproj"⟩) = none ∧
      askedOnCircle.cache.peek (Memory.locate ⟨"b.fsproj"⟩) = some r ∧ r.IsMarked ∧
      Relation.TransGen askedOnCircle.outside.Links (Memory.locate ⟨"b.fsproj"⟩)
        (Memory.locate ⟨"b.fsproj"⟩) := by
  have hany : (askedOnCircle.cache.peek (Memory.locate ⟨"b.fsproj"⟩)).any (fun r =>
      r.diagnostics.any (·.kind = .cyclicReference) &&
        places r.cycle = [Memory.locate ⟨"a.fsproj"⟩, Memory.locate ⟨"b.fsproj"⟩]) = true := by
    decide +kernel
  obtain ⟨r, hr, hboth⟩ := (Option.any_eq_true _ _).mp hany
  obtain ⟨hd, hcircle⟩ := (Bool.and_eq_true _ _).mp hboth
  obtain ⟨d, hd, hk⟩ := List.any_eq_true.mp hd
  have hm : r.IsMarked := ⟨d, hd, of_decide_eq_true hk⟩
  have hkept : ∀ n ∈ [Memory.locate ⟨"a.fsproj"⟩, Memory.locate ⟨"b.fsproj"⟩],
      askedOnCircle.outside.cracksOf n = 1 ∧ (askedOnCircle.cache.peek n).isSome = true := by
    decide +kernel
  have hrun : Reached (Memory.editing rewriteMidway Memory.depth)
      (Spares (· ∈ places r.cycle)) askedOnCircle [] := by
    refine (Reached.fresh _).ask (.options ⟨"d.fsproj"⟩) (by decide +kernel) fun n hn _ _ => ?_
    obtain ⟨hone, hsome⟩ := hkept n (of_decide_eq_true hcircle ▸ hn)
    obtain ⟨u, hu⟩ := Option.isSome_iff_exists.mp hsome
    exact ⟨hone, u, hu, Nat.zero_le _⟩
  exact ⟨r, hrun, by decide +kernel, hr, hm,
    on_circle_of_isMarked rewriteMidway Memory.depth hrun hr hm⟩

/-! ## A circle that never was -/

/-- A cracker that, asked for `w.fsproj`, takes the references of `y.fsproj` away and then makes
`u.fsproj` reference `x.fsproj`. -/
def turnMidway (l : Location) (_ : Workspace Memory) : List Edit × List Edit :=
  if l = Memory.locate ⟨"w.fsproj"⟩ then
    ([⟨⟨"y.fsproj"⟩, some {}, .changed⟩,
      ⟨⟨"u.fsproj"⟩, some { projectReferences := [⟨"x.fsproj"⟩] }, .changed⟩], [])
  else ([], [])

/-- The workspace after `x.fsproj` was asked for, which referenced `u.fsproj` through
`y.fsproj` in the beginning. -/
def askedWhileTurning : Workspace Memory :=
  ((Query.options ⟨"x.fsproj"⟩).run (Memory.editing turnMidway Memory.depth)).after
    (.fresh (.listing [("x.fsproj", ["y.fsproj"]),
      ("y.fsproj", ["w.fsproj", "u.fsproj"]), ("w.fsproj", []),
      ("u.fsproj", [])]))

set_option maxRecDepth 10000 in
/-- When results may be lost, a project can be told of a circle that the table has at no moment. -/
theorem outlived_circle : ∃ r,
    ReachedFreely (Memory.editing turnMidway Memory.depth) askedWhileTurning [] ∧
      askedWhileTurning.cache.peek (Memory.locate ⟨"u.fsproj"⟩) = some r ∧ r.IsMarked ∧
      ∀ l, ¬ Relation.TransGen askedWhileTurning.outside.Links l l := by
  have hrun : ReachedFreely (Memory.editing turnMidway Memory.depth) askedWhileTurning [] :=
    (Reached.fresh _).ask (.options ⟨"x.fsproj"⟩) (by decide +kernel) trivial
  have hany : (askedWhileTurning.cache.peek (Memory.locate ⟨"u.fsproj"⟩)).any
      (fun r => r.diagnostics.any (·.kind = .cyclicReference)) = true := by
    decide +kernel
  obtain ⟨r, hr, hd⟩ := (Option.any_eq_true _ _).mp hany
  obtain ⟨d, hd, hk⟩ := List.any_eq_true.mp hd
  refine ⟨r, hrun, hr, ⟨d, hd, of_decide_eq_true hk⟩, ?_⟩
  refine Memory.no_circle_of_rank
    (fun l => if l = Memory.locate ⟨"u.fsproj"⟩ then 2 else if l =
      Memory.locate ⟨"x.fsproj"⟩ then 1 else 0) ?_
  decide +kernel

end FSharpWorkspace
