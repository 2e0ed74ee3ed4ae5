import FSharpWorkspace.Proofs.Held.Resolve
import FSharpWorkspace.Proofs.Workspace.Runs
/-!
# No stale result is held

Runs lead to sound workspaces (`Reached.sound`). So whenever no resolution is running, a result that
is in the map holds the very results that are in the map for its references (`held_eq_cached`), even
if crackers edited the table and told the workspace in the middle of resolutions.
-/

set_option autoImplicit false

namespace FSharpWorkspace

theorem Memory.report_write (m : Memory) (p : Path) (content : String) (l : Location) :
    (m.write p content).report l = m.report l := rfl

theorem Memory.report_remove (m : Memory) (p : Path) (l : Location) :
    (m.remove p).report l = m.report l := rfl

/-- What surrounds a sound workspace may change as long as the table does not. -/
theorem Workspace.Sound.outside_of_eq {w : Workspace Memory} {pending : List Location}
    (hw : w.Sound pending) {m : Memory} (hm : ∀ l, m.report l = w.outside.report l) :
    Workspace.Sound { w with outside := m } pending where
  tidy := hw.tidy.outside m
  keeps l r hp := by
    have hk := hw.keeps l r hp
    exact ⟨hk.place, hk.wellFormed, hk.stamp, hk.grounded, hk.held,
      fun hn => (hk.reported hn).congr (hm _)⟩

theorem Workspace.Sound.fetches {env : Surroundings Memory} (henv : Mild env)
    {w w' : Workspace Memory} (h : Fetches env w w') (hw : w.Sound []) : w'.Sound [] := by
  refine h.keeps (P := fun w => w.Sound []) (fun id r w w' hid hs hw => ?_) hw
  obtain ⟨E, hE⟩ := hs.fetched henv hid hw
  exact hE.sound

theorem Reached.idle {env : Surroundings Memory}
    {allowed : Workspace Memory → Workspace Memory → Prop} (henv : Mild env) {w : Workspace Memory}
    {pending : List Location} (h : Reached env allowed w pending) :
    w.Quiet := by
  induction h with
  | fresh m => exact ⟨.fresh m, .fresh m⟩
  | query q _ hq _ ih => exact ih.fetches henv (q.fetches henv ih hq)
  | edit _ _ _ _ ih => exact ⟨ih.tidy.outside _, ih.idle⟩
  | change c _ hc _ ih =>
      obtain ⟨xs, hx, -⟩ := c.run_changes henv.rooted ih.tidy.lone hc
      exact ⟨ih.tidy.changes hx, ih.idle.elapsed hx.elapsed⟩
  | write _ _ _ ih => exact ⟨ih.tidy.outside _, ih.idle⟩
  | remove _ _ ih => exact ⟨ih.tidy.outside _, ih.idle⟩

/-- Runs lead to sound workspaces. -/
theorem Reached.sound {env : Surroundings Memory}
    {allowed : Workspace Memory → Workspace Memory → Prop} (henv : Mild env) {w : Workspace Memory}
    {pending : List Location} (h : Reached env allowed w pending) :
    w.Sound pending := by
  induction h with
  | fresh m => exact .fresh m
  | query q h hq _ ih => exact ih.fetches henv (q.fetches henv (h.idle henv) hq)
  | edit report _ _ _ ih => exact ih.outside fun x hx => Memory.report_setReport_of_ne report hx
  | change c _ hc hp ih =>
      obtain ⟨xs, hx, -, habout⟩ := c.run_changes henv.rooted ih.tidy.lone hc
      refine (ih.changes hx).mono fun l hl => ?_
      obtain ⟨hl, hn⟩ := List.mem_filter.mp hl
      rcases hp l hl with hl | ha
      · exact hl
      · -- a change that is about a file drops it
        exact absurd (habout l ha) (by simpa using hn)
  | write p content _ ih => exact ih.outside_of_eq fun l => Memory.report_write _ p content l
  | remove p _ ih => exact ih.outside_of_eq fun l => Memory.report_remove _ p l

/-- **No stale result is held.** Whenever no resolution is running, what a result in the map holds
for a reference is the very result that is in the map for the referenced project. In between,
crackers may edit the table in any way and tell the workspace. -/
theorem held_eq_cached (plan : Location → Workspace Memory → List Edit × List Edit)
    (depth : Memory → Nat) {w : Workspace Memory} {pending : List Location}
    (h : ReachedFreely (Memory.editing plan depth) w pending) {l : Location} {r : Resolution}
    (hr : w.cache.peek l = some r) {o : Option Location} {p : Resolution}
    (hp : (o, p) ∈ r.references) : w.cache.peek p.id.location = some p :=
  ((h.sound (editing_mild plan depth)).keeps l r hr).held o p hp

/-- A cracker that rewrites `c.fsproj` in the middle of a resolution of `a.fsproj`,
which references it. -/
def rewriteMidway (l : Location) (_ : Workspace Memory) : List Edit × List Edit :=
  if l = Memory.locate ⟨"b.fsproj"⟩ then ([], [⟨⟨"c.fsproj"⟩, some {}, .changed⟩]) else ([], [])

def askMidway : Act Memory Unit :=
  (Query.options ⟨"a.fsproj"⟩).run (Memory.editing rewriteMidway Memory.depth)

/-- The workspace after `a.fsproj` was asked for twice: its first result is lost, the
second one is kept. -/
def askedMidway : Workspace Memory :=
  askMidway.after
    (askMidway.after (.fresh (.listing [("a.fsproj", ["c.fsproj", "b.fsproj"]), ("b.fsproj", []),
    ("c.fsproj", [])])))

set_option maxRecDepth 10000 in
theorem held_eq_cached_midway : ∃ r p,
    ReachedFreely (Memory.editing rewriteMidway Memory.depth) askedMidway [] ∧
      askedMidway.cache.peek (Memory.locate ⟨"a.fsproj"⟩) = some r ∧ (none, p) ∈ r.references ∧
      askedMidway.cache.peek p.id.location = some p := by
  have hrun : ReachedFreely (Memory.editing rewriteMidway Memory.depth) askedMidway [] :=
    ((Reached.fresh _).ask (.options ⟨"a.fsproj"⟩) (by decide +kernel) trivial).ask
      (.options ⟨"a.fsproj"⟩)
      (by decide +kernel) trivial
  have hany : (askedMidway.cache.peek (Memory.locate ⟨"a.fsproj"⟩)).any
      (fun r => r.references.any fun p => p.1.isNone) = true := by
    decide +kernel
  obtain ⟨r, hr, hp⟩ := (Option.any_eq_true _ _).mp hany
  obtain ⟨⟨o, p⟩, hp, ho⟩ := List.any_eq_true.mp hp
  obtain rfl := Option.isNone_iff_eq_none.mp ho
  exact ⟨r, p, hrun, hr, hp, held_eq_cached rewriteMidway Memory.depth hrun hr hp⟩

end FSharpWorkspace
