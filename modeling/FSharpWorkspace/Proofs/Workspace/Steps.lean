import FSharpWorkspace.Proofs.Workspace.Elapsed
/-!
# Resolving, step by step

`Steps` is the relation between an errand, the workspace before it, its answer and the workspace
after it: the rules by which `Act.resolveAt` and its loop over the references of a project work,
without a bound on the nesting. `Steps.of_resolveAt` says that whatever the function returns follows
by these rules. All that is proved of resolutions is proved by induction over the rules.
-/

set_option autoImplicit false

namespace FSharpWorkspace

/-! ## What a report makes of a project -/

/-- The project that a reference of `id` names, if it names one. -/
def Identity.referenced? (id : Identity) (reference : Path) : Option Identity :=
  match Identity.of Memory.locate (Memory.locate (id.dir.path.join reference)).path with
  | .ok dep => if dep.kind = .project then some dep else none
  | .error _ => none

/-- The place that a path in the report on `id` names. -/
def Identity.placed (id : Identity) (relative : Path) : Location :=
  Memory.locate (id.dir.path.join relative)

/-- The projects that a report makes `id` reference, in the order in which they are followed. -/
def CrackReport.links (report : CrackReport) (id : Identity) : List Identity :=
  match report.error with
  | some _ => []
  | none => report.projectReferences.filterMap id.referenced?

def Act.Linked.start : Act.Linked := ⟨["--noframework"], [], [], []⟩

/-- The result for a project, made from the report on it and its references. -/
def CrackReport.result (report : CrackReport) (id : Identity) (stamp : Nat) (loadTime : LoadTime)
    (linked : Act.Linked) : Resolution :=
  match report.error with
  | some error => .failed stamp id ⟨.crackFailed, id.location.path, error⟩ loadTime
  | none =>
    { stamp
      id
      sources := report.sources.map id.placed
      flags := linked.flags ++ (report.artifacts.map id.placed).map Act.referenceFlag
      references := linked.references
      declared := linked.declared
      cycle := linked.cycle
      target := report.target.map id.placed
      loadTime
      diagnostics := if linked.cycle.isEmpty then [] else [circleDiagnostic id linked.cycle] }

/-- A result without references and not on a circle, as scripts and solutions have. -/
structure Resolution.Leaf (id : Identity) (stamp : Nat) (r : Resolution) : Prop where
  id : r.id = id
  stamp : r.stamp = stamp
  references : r.references = []
  declared : r.declared = []
  cycle : r.cycle = []
  diagnostics : ∀ d ∈ r.diagnostics, d.kind ≠ .cyclicReference

/-- The result for a script, read as its surroundings are. -/
def Surroundings.scriptResult (env : Surroundings Memory) (m : Memory) (id : Identity)
    (stamp : Nat) : Resolution :=
  let loadTime := (env.modified m id.location).elim .now .at
  match env.read m id.location with
  | .error fault =>
    .failed stamp id ⟨.scriptCheck, id.location.path,
      "Cannot read script: " ++ fault.message⟩ loadTime
  | .ok source =>
    let walk :=
      LoadWalk.check (fun dir r => env.locate m (dir.path.join r)) (env.read m) (env.depth m)
      id.location.path id.dir source
    { Resolution.empty stamp id loadTime with
      sources := walk.loaded ++ [id.location]
      flags := LoadWalk.flags
      diagnostics := walk.failures.map fun f => ⟨.scriptCheck, id.location.path, f.message⟩ }

/-! ## The rules -/

/-- What there is to do: resolve a file, or follow the references `deps` of `id`, of which `linked`
came before. The projects being resolved are on `path`. -/
inductive Errand where
  | fetch (id : Identity) (path : List Identity)
  | follow (id : Identity) (path : List Identity) (deps : List Identity) (linked : Act.Linked)

/-- What comes of it. -/
inductive Answer where
  | fetched (answer : Except (List Identity) Resolution)
  | followed (linked : Act.Linked)

/-- An errand is done. -/
inductive Steps (env : Surroundings Memory) :
    Errand → Workspace Memory → Answer → Workspace Memory → Prop where
  | ready {id : Identity} {path : List Identity} {w : Workspace Memory} {r : Resolution} :
      w.cache.peek id.location = some r → Steps env (.fetch id path) w (.fetched (.ok r)) w
  | refused {id : Identity} {path : List Identity} {w : Workspace Memory} :
      w.cache.Busy id.location → Steps env (.fetch id path) w (.fetched (.error (circle path id))) w
  | leaf {id : Identity} {path : List Identity} {w : Workspace Memory}
      {s : Serial} {c : Cache Resolution}
      {r : Resolution} :
      id.kind ≠ .project → w.cache.Claims 0 id.location s id c → r.Leaf id w.made →
      (id.kind = .script → r = env.scriptResult w.outside id w.made) →
      Steps env (.fetch id path) w (.fetched (.ok r)) (Workspace.arrive { w with cache := c } s r)
  | project {id : Identity} {path : List Identity} {w w₁ w₂ : Workspace Memory} {s : Serial}
      {c : Cache Resolution} {report : CrackReport} {loadTime : LoadTime}
      {linked : Act.Linked} {r : Resolution} :
      id.kind = .project → w.cache.Claims 0 id.location s id c →
      env.crack id.location { w with cache := c } = .ok report w₁ →
      Steps env (.follow id (path ++ [id]) (report.links id) Act.Linked.start)
        w₁ (.followed linked) w₂ →
      r = report.result id w₂.made loadTime linked →
      Steps env (.fetch id path) w (.fetched (.ok r)) (w₂.arrive s r)
  | nil {id : Identity} {path : List Identity} {linked : Act.Linked} {w : Workspace Memory} :
      Steps env (.follow id path [] linked) w (.followed linked) w
  | cons {id dep : Identity} {path deps : List Identity} {linked linked' : Act.Linked}
      {answer : Except (List Identity) Resolution} {w w₁ w₂ : Workspace Memory} :
      Steps env (.fetch dep path) w (.fetched answer) w₁ →
      Steps env (.follow id path deps (linked.add id dep answer)) w₁ (.followed linked') w₂ →
      Steps env (.follow id path (dep :: deps) linked) w (.followed linked') w₂

/-! ## Time and tidiness -/

/-- The identities that an errand is about are well formed. -/
def Errand.WellFormed : Errand → Prop
  | fetch id _ => id.WellFormed
  | follow id _ deps _ => id.WellFormed ∧ ∀ dep ∈ deps, dep.WellFormed ∧ dep.kind = .project

theorem Identity.referenced?_wellFormed {id dep : Identity} {reference : Path}
    (h : id.referenced? reference = some dep) : dep.WellFormed ∧ dep.kind = .project := by
  unfold Identity.referenced? at h
  split at h
  · next d hd =>
      split at h
      · next hk =>
          obtain rfl := Option.some.inj h
          exact ⟨Identity.of_wellFormed hd, hk⟩
      · cases h
  · cases h

theorem CrackReport.links_wellFormed {report : CrackReport} {id dep : Identity}
    (h : dep ∈ report.links id) :
    dep.WellFormed ∧ dep.kind = .project := by
  unfold CrackReport.links at h
  split at h
  · cases h
  · obtain ⟨reference, -, hr⟩ := List.mem_filterMap.mp h
    exact Identity.referenced?_wellFormed hr

theorem CrackReport.result_stamp (report : CrackReport) (id : Identity) (stamp : Nat)
    (loadTime : LoadTime) (linked : Act.Linked) :
    (report.result id stamp loadTime linked).stamp = stamp := by
  unfold CrackReport.result
  split <;> rfl

theorem CrackReport.result_id (report : CrackReport) (id : Identity) (stamp : Nat)
    (loadTime : LoadTime) (linked : Act.Linked) :
    (report.result id stamp loadTime linked).id = id := by
  unfold CrackReport.result
  split <;> rfl

theorem Errand.WellFormed.links {id : Identity} (hid : id.WellFormed) (path : List Identity)
    (report : CrackReport) (linked : Act.Linked) :
    (Errand.follow id path (report.links id) linked).WellFormed :=
  ⟨hid, fun _ hd => CrackReport.links_wellFormed hd⟩

/-- An errand takes some time, and leaves the workspace tidy. -/
theorem Steps.elapsed {env : Surroundings Memory} (henv : Mild env) {t : Errand}
    {w w' : Workspace Memory} {a : Answer} (h : Steps env t w a w') (ht : t.WellFormed)
    (hw : w.Tidy) :
    ∃ E, Elapsed E w w' ∧ w'.Tidy := by
  induction h with
  | ready _ => exact ⟨[], .refl _, hw⟩
  | refused _ => exact ⟨[], .refl _, hw⟩
  | @leaf id path w s c r _ hc hr _ =>
      have hel := Elapsed.refl { w with cache := c }
      exact ⟨[], hel.arrive hc hr.stamp, (hw.claim ht hc).arrive s r⟩
  | project _ hc hcrack _ hr ih =>
      have hw₀ := hw.claim ht hc
      obtain ⟨xs, ys, hx⟩ := henv.crack _ _ _ _ hw₀.lone hcrack
      obtain ⟨E, hE, hw₂⟩ := ih (.links ht _ _ _) (hx.tidy hw₀)
      have hel := hx.elapsed.trans hE
      have hs := hr ▸ CrackReport.result_stamp _ _ _ _ _
      exact ⟨_, hel.arrive hc hs, hw₂.arrive _ _⟩
  | nil => exact ⟨[], .refl _, hw⟩
  | cons _ _ ih₁ ih₂ =>
      obtain ⟨E₁, hE₁, hw₁⟩ := ih₁ (ht.2 _ (by simp)).1 hw
      obtain ⟨E₂, hE₂, hw₂⟩ := ih₂ ⟨ht.1, fun d hd => ht.2 d (by simp [hd])⟩ hw₁
      exact ⟨E₁ ++ E₂, hE₁.trans hE₂, hw₂⟩

/-! ## What the functions return -/

section Functions

variable {env : Surroundings Memory} {w w' : Workspace Memory}

theorem Act.request_eq {σ : Type} (id : Identity) (w : Workspace σ) :
    Act.request id w = .ok (w.cache.start 0 id).1 { w with cache := (w.cache.start 0 id).2 } := rfl

theorem Act.computing_eq_ok {s : Serial} {supplier : Act Memory Resolution} {r : Resolution} :
    Act.computing s supplier w = .ok r w' ↔ ∃ w₁, supplier w = .ok r w₁ ∧
      w' = { w₁ with cache := w₁.cache.finish s r Resolution.derivedFrom } := by
  unfold Act.computing
  cases supplier w with
  | ok r₁ w₁ =>
      constructor
      · intro h
        cases h
        exact ⟨w₁, rfl, rfl⟩
      · rintro ⟨w₂, h, rfl⟩
        cases h
        rfl
  | error e w₁ => simp

theorem placeFrom_eq (henv : Rooted env) (id : Identity) (relative : Path) (w : Workspace Memory) :
    env.placeFrom id.dir relative w = .ok (id.placed relative) w := by
  show EStateM.Result.ok (env.locate w.outside (id.dir.path.join relative)) w = _
  rw [henv.locate]
  rfl

theorem mapM_placeFrom (henv : Rooted env) (id : Identity) (paths : List Path)
    (w : Workspace Memory) :
    (paths.mapM (env.placeFrom id.dir)) w = .ok (paths.map id.placed) w := by
  induction paths with
  | nil => rfl
  | cons p paths ih =>
      rw [List.mapM_cons]
      exact Act.bind_ok (placeFrom_eq henv id p w) (Act.bind_ok ih rfl)

theorem optionMapM_placeFrom (henv : Rooted env) (id : Identity) (p : Option Path)
    (w : Workspace Memory) :
    (p.mapM (env.placeFrom id.dir)) w = .ok (p.map id.placed) w := by
  cases p with
  | none => rfl
  | some p =>
      show EStateM.map some (env.placeFrom id.dir p) w = _
      simp [EStateM.map, placeFrom_eq henv]

theorem referencedProject?_eq (henv : Rooted env) (id : Identity) (reference : Path)
    (w : Workspace Memory) :
    Act.referencedProject? env id reference w = .ok (id.referenced? reference) w := by
  unfold Act.referencedProject?
  refine Act.bind_ok (placeFrom_eq henv id reference w) ?_
  have hid : env.identify (id.placed reference).path w =
      .ok (Identity.of Memory.locate (id.placed reference).path) w := by
    show EStateM.Result.ok (Identity.of (env.locate w.outside) (id.placed reference).path) w = _
    rw [henv.locate]
  refine Act.bind_ok hid ?_
  unfold Identity.referenced? Identity.placed
  cases Identity.of Memory.locate (Memory.locate (id.dir.path.join reference)).path <;> rfl

theorem projectLoadTime_eq (env : Surroundings Memory) (id : Identity) (w : Workspace Memory) :
    ∃ t, Act.projectLoadTime env id w = .ok t w := ⟨_, rfl⟩

/-- Following the references of a project one after the other follows those that name projects. -/
theorem Steps.of_foldlM (henv : Mild env) {id : Identity} {path : List Identity}
    {dependency : Identity → Act Memory (Except (List Identity) Resolution)}
    (hdep : ∀ dep w a w', dep.WellFormed → w.Tidy → dependency dep w = .ok a w' →
      Steps env (.fetch dep path) w (.fetched a) w') {references : List Path}
    {linked linked' : Act.Linked} (hw : w.Tidy)
    (h : references.foldlM (Act.link env id dependency) linked w = .ok linked' w') :
    Steps env (.follow id path (references.filterMap id.referenced?) linked) w
      (.followed linked') w' := by
  -- references that name no project are passed over, so `links` is shorter than the
  -- list that is folded
  induction references generalizing linked w with
  | nil =>
      obtain ⟨rfl, rfl⟩ := Act.pure_eq_ok.mp h
      exact .nil
  | cons reference references ih =>
      rw [List.foldlM_cons] at h
      obtain ⟨linked₁, w₁, hlink, hrest⟩ := Act.bind_eq_ok.mp h
      unfold Act.link at hlink
      obtain ⟨dep?, w₀, hdep?, hlink⟩ := Act.bind_eq_ok.mp hlink
      rw [referencedProject?_eq henv.rooted] at hdep?
      cases hdep?
      rw [List.filterMap_cons]
      cases hr : id.referenced? reference with
      | none =>
          rw [hr] at hlink
          obtain ⟨rfl, rfl⟩ := Act.pure_eq_ok.mp hlink
          exact ih hw hrest
      | some dep =>
          rw [hr] at hlink
          obtain ⟨a, w₂, ha, hlink⟩ := Act.bind_eq_ok.mp hlink
          obtain ⟨rfl, rfl⟩ := Act.pure_eq_ok.mp hlink
          have hwf := (Identity.referenced?_wellFormed hr).1
          have hstep := hdep dep w a w₂ hwf hw ha
          obtain ⟨E, -, hw₂⟩ := hstep.elapsed henv hwf hw
          exact .cons hstep (ih hw₂ hrest)

theorem resolveScript_eq (env : Surroundings Memory) (id : Identity) (w : Workspace Memory) :
    Act.resolveScript env id w = .ok (env.scriptResult w.outside id w.made)
      { w with made := w.made + 1 } := by
  unfold Act.resolveScript Surroundings.scriptResult
  refine Act.bind_ok (a := w.outside) rfl ?_
  cases env.read w.outside id.location <;> rfl

theorem scriptResult_leaf (env : Surroundings Memory) (m : Memory) (id : Identity) (stamp : Nat) :
    (env.scriptResult m id stamp).Leaf id stamp := by
  unfold Surroundings.scriptResult
  cases env.read m id.location with
  | error fault => exact ⟨rfl, rfl, rfl, rfl, rfl, by simp [Resolution.failed]⟩
  | ok source => exact ⟨rfl, rfl, rfl, rfl, rfl, by simp⟩

/-- Resolving a project cracks it, follows its references and puts the result together. -/
theorem resolveProject_steps (henv : Mild env) {id : Identity} {path : List Identity}
    {dependency : Identity → Act Memory (Except (List Identity) Resolution)}
    (hdep : ∀ dep w a w', dep.WellFormed → w.Tidy → dependency dep w = .ok a w' →
      Steps env (.fetch dep path) w (.fetched a) w')
    {r : Resolution} (hw : w.Tidy) (h : Act.resolveProject env id dependency w = .ok r w') :
    ∃ report w₁ w₂ loadTime linked, env.crack id.location w = .ok report w₁ ∧
      Steps env (.follow id path (report.links id) Act.Linked.start) w₁ (.followed linked) w₂ ∧
      r = report.result id w₂.made loadTime linked ∧ w' = { w₂ with made := w₂.made + 1 } := by
  unfold Act.resolveProject at h
  obtain ⟨report, w₁, hcrack, h⟩ := Act.bind_eq_ok.mp h
  obtain ⟨xs, ys, hx⟩ := henv.crack _ _ _ _ hw.lone hcrack
  obtain ⟨loadTime, w₁', ht, h⟩ := Act.bind_eq_ok.mp h
  obtain ⟨t, ht'⟩ := projectLoadTime_eq env id w₁
  rw [ht'] at ht
  cases ht
  cases herr : report.error with
  | some error =>
      -- a failing report is not followed any further
      rw [herr] at h
      cases h
      refine ⟨report, w₁, w₁, loadTime, Act.Linked.start, hcrack, ?_, ?_, rfl⟩
      · rw [CrackReport.links, herr]
        exact .nil
      · rw [CrackReport.result, herr]
  | none =>
      rw [herr] at h
      obtain ⟨linked, w₂, hfold, h⟩ := Act.bind_eq_ok.mp h
      obtain ⟨artifacts, w₃, ha, h⟩ := Act.bind_eq_ok.mp h
      rw [mapM_placeFrom henv.rooted] at ha
      cases ha
      obtain ⟨sources, w₃, hs, h⟩ := Act.bind_eq_ok.mp h
      rw [mapM_placeFrom henv.rooted] at hs
      cases hs
      obtain ⟨target, w₃, hg, h⟩ := Act.bind_eq_ok.mp h
      rw [optionMapM_placeFrom henv.rooted] at hg
      cases hg
      cases h
      refine ⟨report, w₁, w₂, loadTime, linked, hcrack, ?_, ?_, rfl⟩
      · rw [CrackReport.links, herr]
        exact Steps.of_foldlM henv hdep (hx.tidy hw) hfold
      · rw [CrackReport.result, herr]

/-- What the cache answers when the only thread asks for a file. -/
theorem request_cases {id : Identity} (hid : id.WellFormed) (hw : w.Tidy) :
    (∃ r, Act.request id w = .ok (.ready r) w ∧ w.cache.peek id.location = some r) ∨
    (Act.request id w = .ok (.refused id) w ∧ w.cache.Busy id.location) ∨
    (∃ s c, Act.request id w = .ok (.claimed s id) { w with cache := c } ∧
      w.cache.Claims 0 id.location s id c) := by
  rw [Act.request_eq]
  rcases Cache.start_cases hw.lone hw.owned id
    with ⟨v, hs, hp⟩ | ⟨s, e, hs, he, hb⟩ | ⟨s, id', c, hs, hc, hid'⟩
  · rw [hs]
    exact Or.inl ⟨v, rfl, hp⟩
  · rw [hs]
    obtain rfl : e.id = id := (hw.entries s e he.1).eq hid he.2.2
    exact Or.inr (Or.inl ⟨rfl, hb⟩)
  · rw [hs]
    -- an entry that was made before may bear another identity, but not for the same place
    have hwf : id'.WellFormed := by
      rcases hid' with rfl | he
      · exact hid
      · exact hw.entries s _ he
    obtain rfl : id' = id := hwf.eq hid hc.place
    exact Or.inr (Or.inr ⟨s, c, rfl, hc⟩)

/-- Whatever resolving a file returns follows by the rules. -/
theorem Steps.of_resolveAt (henv : Mild env) {depth : Nat} {id : Identity} {path : List Identity}
    {a : Except (List Identity) Resolution} (hid : id.WellFormed) (hw : w.Tidy)
    (h : Act.resolveAt env depth id path w = .ok a w') :
    Steps env (.fetch id path) w (.fetched a) w' := by
  -- the depth only bounds the nesting: with none left the function is interrupted and
  -- returns nothing
  induction depth generalizing id path w a w' with
  | zero => cases h
  | succ depth ih =>
      rw [Act.resolveAt] at h
      obtain ⟨answer, w₁, hreq, hrest⟩ := Act.bind_eq_ok.mp h
      clear h
      rcases request_cases hid hw with ⟨r, hr, hp⟩ | ⟨hr, hb⟩ | ⟨s, c, hr, hc⟩
      · cases hr.symm.trans hreq
        obtain ⟨rfl, rfl⟩ := Act.pure_eq_ok.mp hrest
        exact .ready hp
      · cases hr.symm.trans hreq
        obtain ⟨rfl, rfl⟩ := Act.pure_eq_ok.mp hrest
        exact .refused hb
      · cases hr.symm.trans hreq
        obtain ⟨r, w₂, hcomp, hpure⟩ := Act.bind_eq_ok.mp hrest
        obtain ⟨rfl, rfl⟩ := Act.pure_eq_ok.mp hpure
        obtain ⟨w₁, hone, rfl⟩ := Act.computing_eq_ok.mp hcomp
        have hw₀ := hw.claim hid hc
        unfold Act.resolveOne at hone
        cases hk : id.kind with
        | script =>
            rw [hk] at hone
            cases (resolveScript_eq env id _).symm.trans hone
            exact .leaf (by simp [hk]) hc (scriptResult_leaf _ _ _ _) fun _ => rfl
        | solution =>
            rw [hk] at hone
            cases hone
            refine .leaf (by simp [hk]) hc ⟨rfl, rfl, rfl, rfl, rfl, ?_⟩ (by simp [hk])
            simp [Resolution.failed]
        | project =>
            rw [hk] at hone
            obtain ⟨report, wₐ, w_b, t, linked, hcrack, hsteps, hr, rfl⟩ :=
              resolveProject_steps henv (fun dep w a w' hd hw h => ih hd hw h) hw₀ hone
            exact .project hk hc hcrack hsteps hr

end Functions

end FSharpWorkspace
