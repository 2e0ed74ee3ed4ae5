import FSharpWorkspace.Proofs.Sequential.Known
/-!
# What a result was made from

A result of a script was read off the files, and that of a project off the report on it, as they
were at some moment (`Resolution.Authored`). So the surroundings of that moment decide its sources
(`Memory.sourcesOf`), whatever came of its references. A resolution that makes results makes all of
them from the surroundings that it finds (`Steps.authored`), and after any operations each result is
from some moment (`Operation.authored`).
-/

set_option autoImplicit false

namespace FSharpWorkspace

/-- What is neither a project nor a solution is a script. -/
theorem Kind.eq_script {k : Kind} (hk : k.isResolvable = true)
    (hp : k ≠ .project) : k = .script := by
  cases k with
  | script => rfl
  | project => exact absurd rfl hp
  | solution => cases hk

/-- The sources of a script or project, as the surroundings are. A project that cannot
be cracked has none. -/
def Memory.sourcesOf (m : Memory) (id : Identity) : List Location :=
  if id.kind = .project then
    if (m.report id.location).error.isSome then [] else (m.report id.location).sources.map id.placed
  else (Memory.surroundings.scriptResult m id 0).sources

/-- A result for the file at `n`, made when `m` was the memory. That of a project was made
from the report on it. -/
structure Resolution.Authored (m : Memory) (n : Location) (r : Resolution) : Prop
    extends r.MadeIn m n where
  project : r.id.kind = .project →
    ∃ linked, r = (m.report r.id.location).result r.id r.stamp r.loadTime linked

section

variable {m : Memory} {n : Location} {r : Resolution}

theorem Resolution.authored_cracks {cracks : List (Location × Nat)} :
    r.Authored { m with cracks } n ↔ r.Authored m n :=
  ⟨fun h => ⟨Resolution.madeIn_cracks.mp h.toMadeIn, h.project⟩,
    fun h => ⟨Resolution.madeIn_cracks.mpr h.toMadeIn, h.project⟩⟩

/-! ## Sources and diagnostics -/

theorem CrackReport.result_loadTime (report : CrackReport) (id : Identity) (stamp : Nat)
    (loadTime : LoadTime) (linked : Act.Linked) :
    (report.result id stamp loadTime linked).loadTime = loadTime := by
  unfold CrackReport.result
  split <;> rfl

theorem CrackReport.result_sources (report : CrackReport) (id : Identity) (stamp : Nat)
    (loadTime : LoadTime) (linked : Act.Linked) :
    (report.result id stamp loadTime linked).sources =
      if report.error.isSome then [] else report.sources.map id.placed := by
  unfold CrackReport.result
  cases report.error with
  | some error => rfl
  | none => rfl

theorem scriptResult_sources_stamp (m : Memory) (id : Identity) (stamp stamp' : Nat) :
    (Memory.surroundings.scriptResult m id stamp).sources =
      (Memory.surroundings.scriptResult m id stamp').sources := by
  unfold Surroundings.scriptResult
  split
  · rfl
  · rfl

/-- A script is a source of itself, or it cannot be read. -/
theorem scriptResult_self (m : Memory) (id : Identity) (stamp : Nat) :
    id.location ∈ (Memory.surroundings.scriptResult m id stamp).sources ∨
      (Memory.surroundings.scriptResult m id stamp).diagnostics ≠ [] := by
  unfold Surroundings.scriptResult
  split
  · exact Or.inr (by simp [Resolution.failed])
  · exact Or.inl (by simp)

theorem scriptResult_diagnostics (m : Memory) (id : Identity) (stamp : Nat) :
    ∀ d ∈ (Memory.surroundings.scriptResult m id stamp).diagnostics, d.kind = .scriptCheck := by
  unfold Surroundings.scriptResult
  split
  · simp [Resolution.failed]
  · simp

theorem CrackReport.result_diagnostics (report : CrackReport) (id : Identity) (stamp : Nat)
    (loadTime : LoadTime) (linked : Act.Linked) :
    ∀ d ∈ (report.result id stamp loadTime linked).diagnostics, d.kind = .crackFailed ∨
      d.kind = .cyclicReference := by
  unfold CrackReport.result
  split
  · simp [Resolution.failed]
  · dsimp only
    split
    · simp
    · simp [circleDiagnostic]

namespace Resolution.Authored

/-- The surroundings decide what the sources are. -/
theorem sources_eq (h : r.Authored m n) (hk : r.id.kind.isResolvable = true) :
    r.sources = m.sourcesOf r.id := by
  unfold Memory.sourcesOf
  split
  · next hp =>
      obtain ⟨linked, hr⟩ := h.project hp
      conv_lhs => rw [hr]
      exact CrackReport.result_sources _ _ _ _ _
  · next hp =>
      conv_lhs => rw [h.script (Kind.eq_script hk hp)]
      exact scriptResult_sources_stamp _ _ _ _

/-- No script or project reports that nobody compiles it. -/
theorem diagnostic_kind (h : r.Authored m n) (hk : r.id.kind.isResolvable = true) :
    ∀ d ∈ r.diagnostics, d.kind ≠ .noOwner := by
  intro d hd
  by_cases hp : r.id.kind = .project
  · obtain ⟨linked, hr⟩ := h.project hp
    rw [hr] at hd
    rcases CrackReport.result_diagnostics _ _ _ _ _ d hd with hd | hd
    · simp [hd]
    · simp [hd]
  · rw [h.script (Kind.eq_script hk hp)] at hd
    simp [scriptResult_diagnostics _ _ _ d hd]

/-- A script compiles itself unless something is wrong with it. -/
theorem mem_sources_self (h : r.Authored m n) (hk : r.id.kind = .script) (hd : r.diagnostics = []) :
    r.id.location ∈ r.sources := by
  have hr := h.script hk
  have hself := scriptResult_self m r.id r.stamp
  rw [← hr] at hself
  exact hself.resolve_right (absurd hd)

end Resolution.Authored

end

/-! ## Resolving -/

section

variable {w w' : Workspace Memory}

/-- Every result that is made is made from the surroundings as they are. -/
theorem Steps.authored {t : Errand} {a : Answer} (h : Steps Memory.surroundings t w a w')
    (ht : t.WellFormed) (hw : w.Tidy) {l : Location} {u : Resolution}
    (hu : w'.cache.peek l = some u) :
    w.cache.peek l = some u ∨ u.Authored w.outside l := by
  induction h generalizing l u with
  | ready _ => exact Or.inl hu
  | refused _ => exact Or.inl hu
  | @leaf id path w s c r hk hc hr hscript =>
      rcases (Elapsed.refl { w with cache := c }).peek_arrive_cases hc (hw.claim ht hc) hu
        with ⟨rfl, rfl⟩ | hu
      · refine Or.inr ⟨⟨by rw [hr.id], hr.id ▸ ht, fun hs => ?_⟩, fun hp => ?_⟩
        · rw [hr.id, hr.stamp]
          exact hscript (hr.id ▸ hs)
        · exact absurd (hr.id ▸ hp) hk
      · exact Or.inl ((hc.peek hw.lone l).symm.trans hu)
  | @project id path w w₁ w₂ s c report loadTime linked r hk hc hcrack hfollow hr ih =>
      cases hcrack
      have hw₀ := (hw.claim ht hc).outside (w.outside.countCrack id.location)
      have hwf :=
        Errand.WellFormed.links ht (path ++ [id]) (w.outside.report id.location) Act.Linked.start
      obtain ⟨hstill, -⟩ := hfollow.still hwf hw₀
      have hel : Elapsed [] { w with cache := c } w₂ :=
        (countCrack_changes id.location { w with cache := c }).elapsed.trans hstill.elapsed
      rcases hel.peek_arrive_cases hc hstill.tidy hu with ⟨rfl, rfl⟩ | hu
      · have hid : u.id = id := by rw [hr, CrackReport.result_id]
        have hstamp : u.stamp = w₂.made := by rw [hr, CrackReport.result_stamp]
        have hloadTime : u.loadTime = loadTime := by rw [hr, CrackReport.result_loadTime]
        refine Or.inr ⟨⟨by rw [hid], hid ▸ ht, fun hs => ?_⟩, fun _ => ⟨linked, ?_⟩⟩
        · rw [hid, hk] at hs
          cases hs
        · rw [hid, hstamp, hloadTime]
          exact hr
      · rcases ih hwf hw₀ hu with hu | hu
        · exact Or.inl ((hc.peek hw.lone l).symm.trans hu)
        · exact Or.inr (Resolution.authored_cracks.mp hu)
  | nil => exact Or.inl hu
  | @cons id dep path deps linked linked' answer w w₁ w₂ hfetch hfollow ih₁ ih₂ =>
      have hdep := (ht.2 dep (by simp)).1
      obtain ⟨hstill, -⟩ := hfetch.still hdep hw
      obtain ⟨cracks, ho⟩ := hstill.outside
      rcases ih₂ ⟨ht.1, fun d hd => ht.2 d (by simp [hd])⟩ hstill.tidy hu with hu | hu
      · exact ih₁ hdep hw hu
      · rw [ho, Resolution.authored_cracks] at hu
        exact Or.inr hu

/-! ## Operations -/

/-- Every result was made when the memory was like this or that. -/
def Workspace.Authored (w : Workspace Memory) : Prop :=
  ∀ l r, w.cache.peek l = some r → ∃ m, r.Authored m l

theorem Workspace.Authored.fresh (m : Memory) : (Workspace.fresh m).Authored := by
  simp [Workspace.Authored]

theorem Workspace.Authored.fetches (hw : w.Quiet) (ha : w.Authored)
    (h : Fetches Memory.surroundings w w') :
    w'.Authored := by
  induction h with
  | refl => exact ha
  | cons hid hs _ ih =>
      refine ih (hw.steps surroundings_mild hid hs) fun l r hr => ?_
      rcases hs.authored hid hw.tidy hr with hr | hr
      · exact ha l r hr
      · exact ⟨_, hr⟩

theorem Operation.authored {op : Operation} (hw : w.Quiet) (h : op.run w = .ok () w')
    (ha : w.Authored) :
    w'.Authored := by
  cases op with
  | ask q => exact ha.fetches hw (q.fetches surroundings_mild hw h)
  | tell c =>
      obtain ⟨xs, hx, -⟩ := c.run_changes surroundings_mild.rooted hw.tidy.lone h
      exact fun l r hr => ha l r ((hx.peek hw.tidy.lone l r).mp hr).1
  | edit p report =>
      cases h
      exact ha
  | write p content =>
      cases h
      exact ha
  | remove p =>
      cases h
      exact ha

end

end FSharpWorkspace
