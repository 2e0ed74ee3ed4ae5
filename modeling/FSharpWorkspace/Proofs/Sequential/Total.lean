import FSharpWorkspace.Proofs.Circle.Ring
import FSharpWorkspace.Proofs.Sequential.Still
import FSharpWorkspace.Proofs.Workspace.Runs
import Mathlib.Data.List.Nodup
import Mathlib.Data.List.Perm.Subperm
/-!
# Resolving always answers

A project on the path was cracked without an error, so it is one of the projects that the table
knows, and no project is on the path twice. Hence the path is never longer than the table, and
resolutions do not nest deeper than `Memory.depth` allows (`resolveAt_returns`). So every query
returns (`Query.returns`), and so does every change (`Change.returns`).
-/

set_option autoImplicit false

namespace FSharpWorkspace

/-- The projects on `path` are in progress, and no other files, and the table says
what `report` says. -/
structure Workspace.Nests (report : Location → CrackReport) (path : List Identity)
    (w : Workspace Memory) :
    Prop where
  tidy : w.Tidy
  table : ∀ l, w.outside.report l = report l
  busy : ∀ x, w.cache.Busy x ↔ x ∈ places path

def Act.Returns {α : Type} (x : Act Memory α) (w : Workspace Memory) : Prop :=
  ∃ a w', x w = .ok a w'

theorem Act.Returns.bind {α β : Type} {x : Act Memory α} {f : α → Act Memory β} {a : α}
    {w w' : Workspace Memory} (hx : x w = .ok a w') (hf : (f a).Returns w') :
    (x >>= f).Returns w := by
  obtain ⟨b, w'', h⟩ := hf
  exact ⟨b, w'', Act.bind_ok hx h⟩

/-- An action that is never interrupted returns. -/
theorem Act.Returns.of_not_error {α : Type} {x : Act Memory α} {w : Workspace Memory}
    (h : ∀ e w', x w ≠ .error e w') : x.Returns w := by
  cases hx : x w with
  | ok a w' => exact ⟨a, w', hx⟩
  | error e w' => exact absurd hx (h e w')

section

variable {report : Location → CrackReport} {path : List Identity} {w w' : Workspace Memory}

theorem Workspace.Nests.still (hw : w.Nests report path) (h : Still w w') :
    w'.Nests report path where
  tidy := h.tidy
  table l := (h.elapsed.report l (by simp)).trans (hw.table l)
  busy x := (h.busy_iff x).trans (hw.busy x)

/-- A project that is claimed joins the path. -/
theorem Workspace.Nests.claim {id : Identity} {s : Serial} {c : Cache Resolution}
    (hw : w.Nests report path) (hid : id.WellFormed) (hc : w.cache.Claims 0 id.location s id c) :
    Workspace.Nests report (path ++ [id])
      { w with cache := c, outside := w.outside.countCrack id.location } where
  tidy := (hw.tidy.claim hid hc).outside _
  table := hw.table
  busy x := by
    rw [mem_places_concat, ← hw.busy x]
    exact hc.busy_iff x

/-- Between resolutions the path is empty. -/
theorem Workspace.Idle.busy_iff (h : w.Idle) (l : Location) : w.cache.Busy l ↔ l ∈ places [] := by
  simpa [places] using h.not_busy l

/-- A file that is not on the path may join it. -/
theorem nodup_places_concat {id : Identity} (h : (places path).Nodup)
    (hid : id.location ∉ places path) :
    (places (path ++ [id])).Nodup := by
  rw [places_concat, ← List.concat_eq_append]
  exact h.concat hid

theorem resolveScript_returns (env : Surroundings Memory) (id : Identity) (w : Workspace Memory) :
    (Act.resolveScript env id).Returns w := ⟨_, _, resolveScript_eq env id w⟩

/-- Following references returns when following each of them does. -/
theorem foldlM_link_returns {id : Identity}
    {dependency : Identity → Act Memory (Except (List Identity) Resolution)}
    (hdep : ∀ dep (w : Workspace Memory), dep.WellFormed → w.Nests report path →
      ∃ a w', dependency dep w = .ok a w' ∧ w'.Nests report path) (references : List Path)
    (linked : Act.Linked) (hw : w.Nests report path) :
    (references.foldlM (Act.link Memory.surroundings id dependency) linked :
      Act Memory Act.Linked).Returns w := by
  induction references generalizing linked w with
  | nil => exact ⟨linked, w, rfl⟩
  | cons reference references ih =>
      have hlink : ∃ linked₁ w₁,
          Act.link Memory.surroundings id dependency linked reference w = .ok linked₁ w₁ ∧
            w₁.Nests report path := by
        unfold Act.link
        have hproject := referencedProject?_eq surroundings_mild.rooted id reference w
        cases hr : id.referenced? reference with
        | none => exact ⟨linked, w, Act.bind_ok (hr ▸ hproject) rfl, hw⟩
        | some dep =>
            obtain ⟨a, w₁, ha, hw₁⟩ := hdep dep w (Identity.referenced?_wellFormed hr).1 hw
            refine ⟨linked.add id dep a, w₁, Act.bind_ok (hr ▸ hproject) ?_, hw₁⟩
            exact Act.bind_ok ha rfl
      obtain ⟨linked₁, w₁, h₁, hw₁⟩ := hlink
      rw [List.foldlM_cons]
      exact .bind h₁ (ih linked₁ hw₁)

/-- Resolving a project returns when following its references does. -/
theorem resolveProject_returns {id : Identity}
    {dependency : Identity → Act Memory (Except (List Identity) Resolution)}
    (h : (w.outside.report id.location).error = none → ∀ linked,
      ((w.outside.report id.location).projectReferences.foldlM
      (Act.link Memory.surroundings id dependency) linked : Act Memory Act.Linked).Returns
      { w with outside := w.outside.countCrack id.location }) :
    (Act.resolveProject Memory.surroundings id dependency).Returns w := by
  obtain ⟨t, ht⟩ := projectLoadTime_eq Memory.surroundings id
    { w with outside := w.outside.countCrack id.location }
  unfold Act.resolveProject
  refine .bind (a := w.outside.report id.location) rfl (.bind ht ?_)
  cases he : (w.outside.report id.location).error with
  | some error => exact ⟨_, _, rfl⟩
  | none =>
      obtain ⟨linked, w₂, hfold⟩ := h he ⟨["--noframework"], [], [], []⟩
      refine .bind hfold ?_
      refine .bind (mapM_placeFrom surroundings_mild.rooted id _ w₂) ?_
      refine .bind (mapM_placeFrom surroundings_mild.rooted id _ w₂) ?_
      exact .bind (optionMapM_placeFrom surroundings_mild.rooted id _ w₂) ⟨_, _, rfl⟩

/-- Resolving a file returns if the nesting may be as deep as there are projects in the table that
are not on the path yet. -/
theorem resolveAt_returns {known : List Location}
    (hknown : ∀ l, (report l).error = none → l ∈ known) {depth : Nat} {id : Identity}
    (hid : id.WellFormed) (hw : w.Nests report path) (hnodup : (places path).Nodup)
    (hpath : ∀ x ∈ places path, x ∈ known) (hdepth : known.length < depth + path.length) :
    (Act.resolveAt Memory.surroundings depth id path).Returns w := by
  induction depth generalizing id path w with
  | zero =>
      -- a path without repetitions is not longer than the table
      have hle := (List.Nodup.subperm hnodup hpath).length_le
      rw [places, List.length_map] at hle
      omega
  | succ depth ih =>
      rw [Act.resolveAt]
      rcases request_cases hid hw.tidy with ⟨r, hr, -⟩ | ⟨hr, -⟩ | ⟨s, c, hr, hc⟩
      · exact .bind hr ⟨_, _, rfl⟩
      · exact .bind hr ⟨_, _, rfl⟩
      · have hone : (Act.resolveOne Memory.surroundings id fun dep =>
            Act.resolveAt Memory.surroundings depth dep (path ++ [id])).Returns
              { w with cache := c } := by
          unfold Act.resolveOne
          cases hk : id.kind with
          | script => exact resolveScript_returns _ _ _
          | solution => exact ⟨_, _, rfl⟩
          | project =>
              refine resolveProject_returns fun herror linked => ?_
              -- only projects that are cracked without an error follow references,
              -- and join the path
              have hself : id.location ∈ known :=
                hknown _ ((congrArg CrackReport.error (hw.table _)).symm.trans herror)
              have hnew : id.location ∉ places path := fun hm =>
                hc.not_busy hw.tidy.lone ((hw.busy _).mpr hm)
              refine foldlM_link_returns (fun dep w₁ hdep hw₁ => ?_) _ _ (hw.claim hid hc)
              obtain ⟨a, w₂, ha⟩ := ih hdep hw₁ (nodup_places_concat hnodup hnew)
                (by
                  rw [places_concat]
                  intro x hx
                  rcases List.mem_append.mp hx with hx | hx
                  · exact hpath x hx
                  · exact List.mem_singleton.mp hx ▸ hself)
                (by rw [List.length_append, List.length_singleton]; omega)
              have hs := Steps.of_resolveAt surroundings_mild hdep hw₁.tidy ha
              exact ⟨a, w₂, ha, hw₁.still (hs.still hdep hw₁.tidy).1⟩
        obtain ⟨r, w₁, h⟩ := hone
        exact .bind hr (.bind (Act.computing_eq_ok.mpr ⟨w₁, h, rfl⟩) ⟨_, _, rfl⟩)

/-- Between resolutions, resolving a script or project returns its result. -/
theorem resolve_returns {id : Identity} (hid : id.WellFormed) (hw : w.Tidy)
    (hb : ∀ l, ¬ w.cache.Busy l) :
    ∃ r w', Act.resolve Memory.surroundings id w = .ok r w' ∧
      Steps Memory.surroundings (.fetch id []) w (.fetched (.ok r)) w' := by
  have hknown : ∀ l, (w.outside.report l).error = none → l ∈ w.outside.reports.map (·.1) := by
    intro l hl
    unfold Memory.report at hl
    cases hlookup : w.outside.reports.lookup l with
    | none =>
        rw [hlookup] at hl
        cases hl
    | some report =>
        obtain ⟨pre, post, hsplit, -⟩ := List.lookup_eq_some_iff.mp hlookup
        exact List.mem_map.mpr ⟨(l, report), by simp [hsplit], rfl⟩
  have hnests : w.Nests w.outside.report [] := ⟨hw, fun _ => rfl, by simp [places, hb]⟩
  have hdepth : (w.outside.reports.map (·.1)).length <
      Memory.depth w.outside + ([] : List Identity).length := by
    simp only [List.length_map, Memory.depth, List.length_nil]
    omega
  obtain ⟨a, w', ha⟩ :=
    resolveAt_returns hknown hid hnests (by simp [places]) (by simp [places]) hdepth
  have hs := Steps.of_resolveAt surroundings_mild hid hw ha
  cases a with
  | error members =>
      -- the rules refuse only what is in progress
      cases hs with
      | refused hbusy => exact absurd hbusy (hb _)
  | ok r => exact ⟨r, w', Act.bind_ok rfl (Act.bind_ok ha rfl), hs⟩

/-- Between resolutions, options of a script or project are always returned. -/
theorem options_returns {id : Identity} (hid : id.WellFormed) (hk : id.kind.isResolvable = true)
    (hw : w.Tidy) (hb : ∀ l, ¬ w.cache.Busy l) :
    ∃ r w', Act.options Memory.surroundings id w = .ok (.ok r) w' ∧
      Steps Memory.surroundings (.fetch id []) w (.fetched (.ok r)) w' := by
  obtain ⟨r, w', h, hs⟩ := resolve_returns hid hw hb
  refine ⟨r, w', ?_, hs⟩
  unfold Act.options
  rw [if_pos hk]
  exact Act.bind_ok h rfl

/-- Between resolutions, every query returns. -/
theorem Query.returns (q : Query) (hw : w.Quiet) : (q.run Memory.surroundings).Returns w := by
  refine .of_not_error fun e w' h => ?_
  obtain ⟨id, w₁, hid, hfetch, hstop⟩ := q.stops surroundings_mild hw h
  have hw₁ := hw.fetches surroundings_mild hfetch
  obtain ⟨r, w₂, hr, -⟩ := resolve_returns hid hw₁.tidy hw₁.idle.not_busy
  cases hr.symm.trans hstop

/-- Whatever the workspace is told, it returns. -/
theorem Change.returns (c : Change) (hw : w.cache.Lone) :
    (c.run Memory.surroundings).Returns w := by
  obtain ⟨a, xs, w', h, -⟩ := c.run_changesAt surroundings_mild.rooted hw
  exact ⟨a, w', h⟩

end

end FSharpWorkspace
