import FSharpWorkspace.Proofs.Resolution.Search
import FSharpWorkspace.Proofs.Workspace.Steps
/-!
# Results and the table

A result of a project is made from the report on it and from the outcomes of its references, each a
result or a refusal (`Resolution.Reported`). The report alone decides which projects it declares and
on which files it depends; the outcomes decide what it holds and on which circle it is.
-/

set_option autoImplicit false

namespace FSharpWorkspace

/-! ## Outcomes of references -/

abbrev Outcomes := List (Identity × Except (List Identity) Resolution)

def Act.Linked.addAll (id : Identity) (linked : Act.Linked) (outcomes : Outcomes) : Act.Linked :=
  outcomes.foldl (fun linked o => linked.add id o.1 o.2) linked

def Outcomes.held (outcomes : Outcomes) : List (Option Location × Resolution) :=
  outcomes.filterMap fun o => o.2.toOption.map fun r => (r.target, r)

theorem Outcomes.mem_held {outcomes : Outcomes} {o : Option Location} {r : Resolution} :
    (o, r) ∈ outcomes.held ↔ o = r.target ∧ ∃ dep, (dep, .ok r) ∈ outcomes := by
  unfold Outcomes.held
  rw [List.mem_filterMap]
  constructor
  · rintro ⟨⟨dep, a⟩, hmem, ha⟩
    cases a with
    | error members => cases ha
    | ok p =>
        cases ha
        exact ⟨rfl, dep, hmem⟩
  · rintro ⟨rfl, dep, hmem⟩
    exact ⟨_, hmem, rfl⟩

theorem Act.Linked.addAll_cons (id dep : Identity) (linked : Act.Linked)
    (a : Except (List Identity) Resolution) (outcomes : Outcomes) :
    linked.addAll id ((dep, a) :: outcomes) = (linked.add id dep a).addAll id outcomes := rfl

theorem Act.Linked.addAll_references (id : Identity) (linked : Act.Linked) (outcomes : Outcomes) :
    (linked.addAll id outcomes).references = linked.references ++ outcomes.held := by
  induction outcomes generalizing linked with
  | nil => simp [Act.Linked.addAll, Outcomes.held]
  | cons o outcomes ih =>
      obtain ⟨dep, a⟩ := o
      rw [Act.Linked.addAll_cons, ih]
      cases a with
      | ok r => simp [Act.Linked.add, Outcomes.held, Except.toOption]
      | error members => simp [Act.Linked.add, Outcomes.held, Except.toOption]

theorem Act.Linked.addAll_declared (id : Identity) (linked : Act.Linked) (outcomes : Outcomes) :
    (linked.addAll id outcomes).declared = linked.declared ++ outcomes.map (·.1) := by
  induction outcomes generalizing linked with
  | nil => simp [Act.Linked.addAll]
  | cons o outcomes ih =>
      obtain ⟨dep, a⟩ := o
      rw [Act.Linked.addAll_cons, ih]
      cases a <;> simp [Act.Linked.add]

/-! ## A result and the report behind it -/

/-- The result was made from a report and some outcomes. -/
structure CrackReport.Made (report : CrackReport) (outcomes : Outcomes)
    (r : Resolution) : Prop where
  project : r.id.kind = .project
  links : outcomes.map (·.1) = report.links r.id
  named : ∀ dep p, (dep, .ok p) ∈ outcomes → p.id = dep
  told : ∀ dep members, (dep, .error members) ∈ outcomes → members ≠ []
  result : r = report.result r.id r.stamp r.loadTime (Act.Linked.start.addAll r.id outcomes)

/-- A circle has members. -/
theorem circle_ne_nil (path : List Identity) (closing : Identity) : circle path closing ≠ [] := by
  unfold circle
  split
  · simp
  · next h => exact h

/-- The result is what the table makes of it: that of a project was made from the report on it. -/
def Resolution.Reported (m : Memory) (r : Resolution) : Prop :=
  if r.id.kind = .project then ∃ outcomes, (m.report r.id.location).Made outcomes r
  else r.Leaf r.id r.stamp

def Resolution.IsMarked (r : Resolution) : Prop := ∃ d ∈ r.diagnostics, d.kind = .cyclicReference

/-- A file that the result declares and holds no result for. -/
def Resolution.Cuts (r : Resolution) (l : Location) : Prop :=
  (∃ dep ∈ r.declared, dep.location = l) ∧ ∀ o p, (o, p) ∈ r.references → p.id.location ≠ l

namespace CrackReport.Made

variable {report : CrackReport} {outcomes : Outcomes} {r : Resolution}

/-- A failing report has no links, so nothing was followed. -/
theorem outcomes_nil (h : report.Made outcomes r) {error : String}
    (he : report.error = some error) :
    outcomes = [] := by
  have hl := h.links
  rw [CrackReport.links, he] at hl
  exact List.map_eq_nil_iff.mp hl

theorem declared (h : report.Made outcomes r) : r.declared = report.links r.id := by
  rw [h.result]
  cases he : report.error with
  | some error =>
      simp [CrackReport.result, CrackReport.links, he, Resolution.failed, Resolution.empty]
  | none =>
      have hl := h.links
      simp only [CrackReport.result, he, Act.Linked.addAll_declared]
      rw [hl, CrackReport.links, he]
      simp [Act.Linked.start]

theorem references (h : report.Made outcomes r) : r.references = outcomes.held := by
  cases he : report.error with
  | some error =>
      rw [h.result, h.outcomes_nil he]
      simp [CrackReport.result, he, Resolution.failed, Resolution.empty, Outcomes.held]
  | none =>
      rw [h.result]
      simp [CrackReport.result, he, Act.Linked.addAll_references, Act.Linked.start]

theorem cycle (h : report.Made outcomes r) :
    r.cycle = (Act.Linked.start.addAll r.id outcomes).cycle := by
  cases he : report.error with
  | some error =>
      rw [h.result, h.outcomes_nil he]
      simp [CrackReport.result, he, Resolution.failed, Resolution.empty, Act.Linked.addAll,
        Act.Linked.start]
  | none =>
      conv_lhs => rw [h.result]
      simp [CrackReport.result, he]

theorem sources (h : report.Made outcomes r) :
    r.sources = if report.error.isSome then [] else report.sources.map r.id.placed := by
  rw [h.result]
  cases he : report.error with
  | some error => simp [CrackReport.result, he, Resolution.failed, Resolution.empty]
  | none => simp [CrackReport.result, he]

/-- What a project depends on is decided by the report on it. -/
theorem dependsOn_eq {outcomes' : Outcomes} {r' : Resolution} (h : report.Made outcomes r)
    (h' : report.Made outcomes' r') (hid : r.id = r'.id) (changed : Location) :
    r.dependsOn changed = r'.dependsOn changed := by
  unfold Resolution.dependsOn Resolution.containsSource
  rw [h.declared, h'.declared, h.sources, h'.sources, hid]

/-- A reference without a result was refused. -/
theorem refused_of_cuts (h : report.Made outcomes r) {l : Location} (hl : r.Cuts l) :
    ∃ dep members, dep.location = l ∧ (dep, .error members) ∈ outcomes := by
  obtain ⟨⟨dep, hdep, rfl⟩, hheld⟩ := hl
  rw [h.declared, ← h.links] at hdep
  obtain ⟨⟨d, a⟩, hmem, rfl⟩ := List.mem_map.mp hdep
  cases a with
  | error members => exact ⟨d, members, rfl, hmem⟩
  | ok p =>
      have hp : (p.target, p) ∈ r.references := by
        rw [h.references]
        exact Outcomes.mem_held.mpr ⟨rfl, d, hmem⟩
      exact absurd (congrArg Identity.location (h.named d p hmem)) (hheld _ p hp)

theorem grounded (h : report.Made outcomes r)
    (ho : ∀ dep p, (dep, .ok p) ∈ outcomes → p.Grounded ∧ p.stamp < r.stamp) : r.Grounded := by
  have hmem : ∀ o p, (o, p) ∈ r.references → ∃ dep, (dep, .ok p) ∈ outcomes := by
    intro o p hp
    rw [h.references] at hp
    exact (Outcomes.mem_held.mp hp).2
  refine .mk (fun o p hp => ?_) fun o p hp => ?_
  · obtain ⟨dep, hd⟩ := hmem o p hp
    have hlink : p.id ∈ report.links r.id := by
      rw [← h.links, h.named dep p hd]
      exact List.mem_map.mpr ⟨_, hd, rfl⟩
    exact ⟨h.declared ▸ hlink, (CrackReport.links_wellFormed hlink).2, (ho dep p hd).2⟩
  · obtain ⟨dep, hd⟩ := hmem o p hp
    exact (ho dep p hd).1

end CrackReport.Made

namespace Resolution

theorem Reported.made {m : Memory} {r : Resolution} (h : r.Reported m) (hk : r.id.kind = .project) :
    ∃ outcomes, (m.report r.id.location).Made outcomes r := by
  unfold Reported at h
  rwa [if_pos hk] at h

theorem Reported.of_made {m : Memory} {r : Resolution} {outcomes : Outcomes}
    (h : (m.report r.id.location).Made outcomes r) : r.Reported m := by
  unfold Reported
  rw [if_pos h.project]
  exact ⟨outcomes, h⟩

theorem Leaf.reported {r : Resolution} {id : Identity} {stamp : Nat} (h : r.Leaf id stamp)
    (hk : id.kind ≠ .project) (m : Memory) : r.Reported m := by
  unfold Reported
  rw [if_neg (h.id ▸ hk)]
  exact ⟨rfl, rfl, h.references, h.declared, h.cycle, h.diagnostics⟩

/-- A circle diagnostic stands for a circle that is remembered. -/
theorem Reported.isMarked_iff {m : Memory} {r : Resolution} (h : r.Reported m) :
    r.IsMarked ↔ r.cycle ≠ [] := by
  unfold Reported at h
  split at h
  · obtain ⟨outcomes, hmade⟩ := h
    have hc := hmade.cycle
    have hr := hmade.result
    cases he : (m.report r.id.location).error with
    | some error =>
        -- a failing project has another diagnostic, and no references that could tell of a circle
        rw [hmade.outcomes_nil he] at hc
        rw [CrackReport.result, he] at hr
        rw [hc, IsMarked, hr]
        simp [Resolution.failed, Resolution.empty, Act.Linked.addAll, Act.Linked.start]
    | none =>
        rw [CrackReport.result, he] at hr
        rw [hc, IsMarked, hr]
        simp only
        generalize (Act.Linked.start.addAll r.id outcomes).cycle = members
        cases members <;> simp [circleDiagnostic]
  · constructor
    · rintro ⟨d, hd, hk⟩
      exact absurd hk (h.diagnostics d hd)
    · intro hc
      exact absurd h.cycle hc

/-- The table may change for other files. -/
theorem Reported.congr {m m' : Memory} {r : Resolution} (h : r.Reported m)
    (hm : m'.report r.id.location = m.report r.id.location) : r.Reported m' := by
  unfold Reported at h ⊢
  rwa [hm]

end Resolution

end FSharpWorkspace
