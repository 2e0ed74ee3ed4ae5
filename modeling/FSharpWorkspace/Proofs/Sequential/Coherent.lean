import FSharpWorkspace.Proofs.Sequential.Resolve
import FSharpWorkspace.Proofs.Sequential.Total
/-!
# Coherence

However a workspace came about, the options of a project that has no circle below it are those that
a fresh workspace returns (`options_eq_fresh`). They are compared without what tells when they were
made (`Resolution.bare`).

Such a project remembers no circle, so none of its references was refused. What it holds for them is
in the map, and again without circles. So the report on the project and those below it decide the
result, by induction over what it holds (`Workspace.Faithful.bare_eq`).
-/

set_option autoImplicit false

namespace FSharpWorkspace

/-! ## Results without their times -/

namespace Resolution

mutual

/-- The result without what tells when it was made, here and in all that it holds. -/
def bare (r : Resolution) : Resolution :=
  match r with
  | { stamp := _, id, sources, flags, references, declared, cycle, target,
      loadTime := _, diagnostics } =>
    { stamp := 0, id, sources, flags, references := bareAll references, declared, cycle, target,
      loadTime := .now, diagnostics }

/-- `bare` on every result of a list. -/
def bareAll (references : List (Option Location × Resolution)) :
    List (Option Location × Resolution) :=
  match references with
  | [] => []
  | (artifact, r) :: rest => (artifact, bare r) :: bareAll rest

end

@[simp] theorem bare_target (r : Resolution) : r.bare.target = r.target := by
  cases r
  rfl

@[simp] theorem bare_cycle (r : Resolution) : r.bare.cycle = r.cycle := by
  cases r
  rfl

theorem bareAll_append (xs ys : List (Option Location × Resolution)) :
    bareAll (xs ++ ys) = bareAll xs ++ bareAll ys := by
  induction xs with
  | nil => rfl
  | cons x xs ih =>
      obtain ⟨artifact, r⟩ := x
      simp [bareAll, ih]

end Resolution

def Outcomes.bare (outcomes : Outcomes) : Outcomes :=
  outcomes.map fun o => (o.1, o.2.map Resolution.bare)

def Act.Linked.bare (linked : Act.Linked) : Act.Linked :=
  { linked with references := Resolution.bareAll linked.references }

theorem Act.Linked.bare_add (id dep : Identity) (linked : Act.Linked)
    (a : Except (List Identity) Resolution) :
    (linked.add id dep a).bare = linked.bare.add id dep (a.map Resolution.bare) := by
  cases a with
  | ok r =>
      simp [Act.Linked.add, Act.Linked.bare, Except.map,
        Resolution.bareAll_append, Resolution.bareAll]
  | error members => simp [Act.Linked.add, Act.Linked.bare, Except.map]

theorem Act.Linked.bare_addAll (id : Identity) (linked : Act.Linked) (outcomes : Outcomes) :
    (linked.addAll id outcomes).bare = linked.bare.addAll id outcomes.bare := by
  induction outcomes generalizing linked with
  | nil => rfl
  | cons o outcomes ih =>
      obtain ⟨dep, a⟩ := o
      rw [Act.Linked.addAll_cons, ih, Act.Linked.bare_add]
      rfl

theorem CrackReport.bare_result (report : CrackReport) (id : Identity) (stamp : Nat)
    (loadTime : LoadTime) (linked : Act.Linked) :
    (report.result id stamp loadTime linked).bare = report.result id 0 .now linked.bare := by
  unfold CrackReport.result
  cases report.error <;> rfl

/-- Bare outcomes decide the bare result. -/
theorem CrackReport.Made.bare_eq {report : CrackReport} {outcomes outcomes' : Outcomes}
    {r r' : Resolution} (h : report.Made outcomes r) (h' : report.Made outcomes' r')
    (hid : r.id = r'.id) (ho : outcomes.bare = outcomes'.bare) : r.bare = r'.bare := by
  rw [h.result, h'.result, CrackReport.bare_result, CrackReport.bare_result, Act.Linked.bare_addAll,
    Act.Linked.bare_addAll, ho, hid]

theorem Outcomes.bare_eq {outcomes outcomes' : Outcomes}
    (hdeps : outcomes.map (·.1) = outcomes'.map (·.1))
    (h : ∀ dep a a', (dep, a) ∈ outcomes → (dep, a') ∈ outcomes' →
      a.map Resolution.bare = a'.map Resolution.bare) :
    outcomes.bare = outcomes'.bare := by
  induction outcomes generalizing outcomes' with
  | nil =>
      obtain rfl := List.map_eq_nil_iff.mp hdeps.symm
      rfl
  | cons o outcomes ih =>
      obtain ⟨⟨dep, a'⟩, outcomes', rfl, hdep, hrest⟩ := List.map_eq_cons_iff.mp hdeps.symm
      obtain ⟨dep, a⟩ := o
      obtain rfl : dep = _ := hdep.symm
      have hhead := h _ a a' List.mem_cons_self List.mem_cons_self
      have htail := ih hrest.symm fun d b b' hb hb' =>
        h d b b' (List.mem_cons_of_mem _ hb) (List.mem_cons_of_mem _ hb')
      unfold Outcomes.bare at htail ⊢
      rw [List.map_cons, List.map_cons, htail, hhead]

/-! ## Projects without circles below -/

/-- No project that is reached from the one at `l` is on a circle of references. -/
def Memory.NoCircleBelow (m : Memory) (l : Location) : Prop :=
  ∀ l', Relation.ReflTransGen m.Links l l' → ¬ Relation.TransGen m.Links l' l'

theorem Memory.NoCircleBelow.link {m : Memory} {l l' : Location} (h : m.NoCircleBelow l)
    (hl : m.Links l l') :
    m.NoCircleBelow l' :=
  fun x hx => h x (hx.head hl)

/-- The references of a project that remembers no circle were all resolved. -/
theorem CrackReport.Made.resolved {report : CrackReport} {outcomes : Outcomes} {r : Resolution}
    (h : report.Made outcomes r) (hc : r.cycle = []) {dep : Identity}
    {a : Except (List Identity) Resolution} (ha : (dep, a) ∈ outcomes) :
    ∃ p, a = .ok p ∧ p.id = dep ∧ (p.target, p) ∈ r.references := by
  cases a with
  | error members => exact absurd hc (h.cycle_ne_nil (.refused ha))
  | ok p =>
      refine ⟨p, rfl, h.named dep p ha, ?_⟩
      rw [h.references]
      exact Outcomes.mem_held.mpr ⟨rfl, dep, ha⟩

/-- What is known of a workspace between the operations of a run without changes in the
middle of resolutions. -/
structure Workspace.Faithful (w : Workspace Memory) : Prop where
  sound : w.Sound []
  traced : w.Traced (fun _ => True) fun _ _ => False

section

variable {w w' : Workspace Memory}

theorem Workspace.Faithful.fresh (m : Memory) : (Workspace.fresh m).Faithful := ⟨.fresh m, .fresh m⟩

/-- A project that is not on a circle remembers none. -/
theorem Workspace.Faithful.cycle_eq_nil (hw : w.Faithful) {l : Location} {r : Resolution}
    (hr : w.cache.peek l = some r)
    (hl : ¬ Relation.TransGen w.outside.Links l l) : r.cycle = [] := by
  by_contra hc
  have hm := ((hw.sound.keeps l r hr).reported (by simp)).isMarked_iff.mpr hc
  exact hl (hw.traced.on_circle hw.sound hr hm fun _ _ => trivial)

/-- The table decides the bare result of a project without circles below. -/
theorem Workspace.Faithful.bare_eq (hw : w.Faithful) (hw' : w'.Faithful)
    (htable : ∀ l, w'.outside.report l = w.outside.report l) {l : Location} {r r' : Resolution}
    (hr : w.cache.peek l = some r) (hr' : w'.cache.peek l = some r') (hk : r.id.kind = .project)
    (hl : w.outside.NoCircleBelow l) : r.bare = r'.bare := by
  induction r using Resolution.held_induction generalizing l r' with
  | h r ih =>
      have hkeeps := hw.sound.keeps l r hr
      have hkeeps' := hw'.sound.keeps l r' hr'
      have hid : r.id = r'.id :=
        hkeeps.wellFormed.eq hkeeps'.wellFormed (hkeeps.place.trans hkeeps'.place.symm)
      obtain ⟨outcomes, hmade⟩ := (hkeeps.reported (by simp)).made hk
      obtain ⟨outcomes', hmade'⟩ := (hkeeps'.reported (by simp)).made (hid ▸ hk)
      -- without circles both hold a result for each reference, and the report decides which
      -- references there are
      have hcycle := hw.cycle_eq_nil hr (hl l .refl)
      have hcycle' := hw'.cycle_eq_nil hr' (by rw [Memory.links_congr htable]; exact hl l .refl)
      rw [htable, ← hid] at hmade'
      refine hmade.bare_eq hmade' hid (Outcomes.bare_eq (by rw [hmade.links, hmade'.links, hid]) ?_)
      intro dep a a' ha ha'
      obtain ⟨p, rfl, rfl, hp⟩ := hmade.resolved hcycle ha
      obtain ⟨p', rfl, hpid, hp'⟩ := hmade'.resolved hcycle' ha'
      have hpeek := hkeeps.held _ p hp
      have hpeek' := hkeeps'.held _ p' hp'
      rw [hpid] at hpeek'
      have hmay := hkeeps.grounded.mayHold hp
      have hlink := hw.sound.links_of_declared hr (List.mem_map.mpr ⟨p.id, hmay.declared, rfl⟩)
      have hbare := ih _ p hp hpeek hpeek' hmay.project (hl.link hlink)
      simp [Except.map, hbare]

/-- Options are returned and then in the map, and the table stays as it is. -/
theorem Workspace.Faithful.options (hw : w.Faithful) (hi : w.Idle) {id : Identity}
    (hid : id.WellFormed) (hk : id.kind.isResolvable = true) :
    ∃ r w', Act.options Memory.surroundings id w = .ok (.ok r) w' ∧ w'.Faithful ∧ r.id = id ∧
      w'.cache.peek id.location = some r ∧ ∀ l, w'.outside.report l = w.outside.report l := by
  obtain ⟨r, w', h, hs⟩ := options_returns hid hk hw.sound.tidy hi.not_busy
  have hf := hs.fetched_still hid hw.sound
  obtain ⟨hstill, hpeek⟩ := hs.still hid hw.sound.tidy
  refine ⟨r, w', h, ⟨hf.sound, ?_⟩, (hf.made r rfl).id, hpeek,
    fun l => hf.flight.elapsed.report l (by simp)⟩
  exact hs.traced surroundings_mild hid hw.sound hi hw.traced (.refl hw.sound) hstill.spares

end

/-- **Coherence.** After any run in which nothing changes in the middle of a resolution, the options
of a project without circles below are those that a fresh workspace over the same table returns.
There may be circles elsewhere, and there may have been circles below at an earlier time. -/
theorem options_eq_fresh {w : Workspace Memory} (h : ReachedFreely Memory.surroundings w [])
    {p : Path} {id : Identity} (hid : Identity.of Memory.locate p = .ok id)
    (hk : id.kind = .project) (hl : w.outside.NoCircleBelow id.location) :
    ∃ r w' r₀ w₀, Act.options Memory.surroundings id w = .ok (.ok r) w' ∧
      Act.options Memory.surroundings id (.fresh w.outside) =
        .ok (.ok r₀) w₀ ∧ r.bare = r₀.bare := by
  have hwf := Identity.of_wellFormed hid
  have hresolvable : id.kind.isResolvable = true := by
    rw [hk]
    rfl
  have hw : w.Faithful := ⟨h.sound surroundings_mild, h.spares.traced surroundings_mild⟩
  obtain ⟨r, w', ho, hw', hrid, hr, htable⟩ :=
    hw.options (h.idle surroundings_mild).idle hwf hresolvable
  obtain ⟨r₀, w₀, ho₀, hw₀, -, hr₀, htable₀⟩ :=
    (Workspace.Faithful.fresh w.outside).options (.fresh w.outside) hwf hresolvable
  refine ⟨r, w', r₀, w₀, ho, ho₀, hw'.bare_eq hw₀ (fun l => ?_) hr hr₀ (hrid ▸ hk) ?_⟩
  · exact (htable₀ l).trans (htable l).symm
  · unfold Memory.NoCircleBelow
    rw [Memory.links_congr htable]
    exact hl

/-- The workspace after `a.fsproj` was asked for, when it was on a circle with `b.fsproj`. -/
def askedBefore : Workspace Memory :=
  ((Query.options ⟨"a.fsproj"⟩).run Memory.surroundings).after
    (.fresh (.listing [("a.fsproj", ["b.fsproj"]), ("b.fsproj", ["a.fsproj"])]))

/-- The workspace after `b.fsproj` was rewritten so that the circle is gone. -/
def askedAndRepaired : Workspace Memory :=
  ((Change.told .changed ⟨"b.fsproj"⟩).run Memory.surroundings).after
    { askedBefore with outside := askedBefore.outside.setReport (Memory.locate ⟨"b.fsproj"⟩) {} }

set_option maxRecDepth 10000 in
theorem options_eq_fresh_askedAndRepaired :
    ReachedFreely Memory.surroundings askedAndRepaired [] ∧
      askedAndRepaired.outside.NoCircleBelow (Memory.locate ⟨"a.fsproj"⟩) ∧
      ∃ r w' r₀ w₀,
        Act.options Memory.surroundings ⟨Memory.locate ⟨"a.fsproj"⟩,
          .project⟩ askedAndRepaired = .ok (.ok r) w' ∧
        Act.options Memory.surroundings ⟨Memory.locate ⟨"a.fsproj"⟩,
          .project⟩ (.fresh askedAndRepaired.outside) =
          .ok (.ok r₀) w₀ ∧ r.bare = r₀.bare := by
  have hasked : ReachedFreely Memory.surroundings askedBefore [] :=
    (Reached.fresh _).ask (.options ⟨"a.fsproj"⟩) (by decide +kernel) trivial
  have hrun : ReachedFreely Memory.surroundings askedAndRepaired [] :=
    (hasked.edit (p := ⟨"b.fsproj"⟩) {} rfl rfl).tell
      (.told .changed ⟨"b.fsproj"⟩) (by decide +kernel)
      ⟨.project, rfl, rfl, rfl⟩
  have hrank : ∀ entry ∈ askedAndRepaired.outside.reports,
    ∀ dep ∈ entry.2.links ⟨entry.1, .project⟩,
      (if dep.location = Memory.locate ⟨"a.fsproj"⟩ then 1 else 0) <
        if entry.1 = Memory.locate ⟨"a.fsproj"⟩ then 1 else 0 := by
    decide +kernel
  have hl : askedAndRepaired.outside.NoCircleBelow (Memory.locate ⟨"a.fsproj"⟩) :=
    fun l _ => Memory.no_circle_of_rank
      (fun l => if l = Memory.locate ⟨"a.fsproj"⟩ then 1 else 0) hrank l
  exact ⟨hrun, hl, options_eq_fresh hrun (p := ⟨"a.fsproj"⟩) rfl rfl hl⟩

end FSharpWorkspace
