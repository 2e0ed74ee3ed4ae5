import FSharpWorkspace.Proofs.Reentry.Moves
import FSharpWorkspace.Proofs.Workspace.Runs
/-!
# Crackers that call back

A cracker that calls back does what anybody may do with a workspace: it asks, and it tells of
changes. So it makes moves that end nothing but what they began (`moving`). In such surroundings
(`Reentrant`) resolving a file makes moves, too: the file is asked for, and if its entry is claimed,
the cracker and the references make moves until the result arrives at that very entry
(`resolveAt_moves`, `resolveAt_lands`). The same is true of every query (`Query.moves`) and of every
change (`Change.moves`), so these may be what a cracker does, and calls back may nest to any depth
(`Reentrant.around`).
-/

set_option autoImplicit false

namespace FSharpWorkspace

/-! ## Moves that end nothing from before -/

def Workspace.Free (w : Workspace Memory) (s : Serial) : Prop := ∀ id, ¬ w.InFlight s id

/-- Moves are made, and what was in progress before stays so, also when the
action is interrupted. -/
def moving : Conduct Memory where
  starts := Workspace.Dated
  goes w w' := Moves w.Free w w'
  stops w _ w' := Moves w.Free w w'

section

variable {w w' : Workspace Memory} {s : Serial} {id : Identity} {α β : Type}

theorem Moves.free (h : Moves w.Free w w') (hw : w.Dated) (hs : w'.Free s) : w.Free s :=
  fun id hf => hs id (h.inFlight hw (fun hn => hn id hf) hf)

theorem moving_composes : moving.Composes where
  refl _ := .refl
  again _ _ hw h := Moves.dated h hw
  trans _ _ _ hw h h' := h.trans (Moves.mono (fun _ => Moves.free h hw) h')
  late _ _ _ _ hw h h' := h.trans (Moves.mono (fun _ => Moves.free h hw) h')

/-- Both ways in which an action ends lead to the workspace after it. -/
theorem Act.Keeps.of_after {x : Act Memory α}
    (h : w.Dated → Moves w.Free w (x.after w)) : x.Keeps moving w where
  goes hw a w' hx := by
    have hm := h hw
    rw [Act.after_eq hx] at hm
    exact hm
  stops hw e w' hx := by
    have hm := h hw
    rw [Act.after_error hx] at hm
    exact hm

theorem Act.Keeps.after {x : Act Memory α} (h : x.Keeps moving w) (hw : w.Dated) :
    Moves w.Free w (x.after w) := by
  cases hx : x w with
  | ok a w' =>
      rw [Act.after_eq hx]
      exact h.goes hw a w' hx
  | error e w' =>
      rw [Act.after_error hx]
      exact h.stops hw e w' hx

theorem Move.keeps_moving {x : Act Memory α} (h : Move w.Free w (x.after w)) : x.Keeps moving w :=
  .of_after fun _ => .single h

theorem throw_moves (e : Interrupt) : (throw e : Act Memory α).Keeps moving w :=
  .of_after fun _ => .refl

theorem request_moves (hid : id.WellFormed) : (Act.request id).Keeps moving w :=
  Move.keeps_moving (.ask hid (Act.request_eq id w))

theorem newStamp_moves : (Act.newStamp (σ := Memory)).Keeps moving w := Move.keeps_moving (.stamp w)

theorem modifyOutside_moves (f : Memory → Memory) : (Act.modifyOutside f).Keeps moving w :=
  Move.keeps_moving (.outside w (f w.outside))

/-! ## Results that are made last -/

/-- The action makes moves, and then a result for `id`. -/
structure Act.Makes (id : Identity) (w : Workspace Memory) (x : Act Memory Resolution) : Prop where
  makes : w.Dated → ∀ r w', x w = .ok r w' →
    ∃ w₁, Moves w.Free w w₁ ∧ r.id = id ∧ r.stamp = w₁.made ∧ w' = { w₁ with made := w₁.made + 1 }
  stops : w.Dated → ∀ e w', x w = .error e w' → Moves w.Free w w'

theorem Act.Makes.bind {x : Act Memory α} {f : α → Act Memory Resolution} (hx : x.Keeps moving w)
    (hf : ∀ a w', x w = .ok a w' → (f a).Makes id w') : (x >>= f).Makes id w where
  makes hw r w'' h := by
    obtain ⟨a, w', ha, hr⟩ := Act.bind_eq_ok.mp h
    have hm := hx.goes hw a w' ha
    obtain ⟨w₁, hm₁, hrest⟩ := (hf a w' ha).makes (Moves.dated hm hw) r w'' hr
    exact ⟨w₁, moving_composes.trans w w' w₁ hw hm hm₁, hrest⟩
  stops hw e w'' h := by
    rcases Act.bind_eq_error.mp h with h | ⟨a, w', ha, hr⟩
    · exact hx.stops hw e w'' h
    · have hm := hx.goes hw a w' ha
      exact moving_composes.late w w' e w'' hw hm ((hf a w' ha).stops (Moves.dated hm hw) e w'' hr)

theorem makes_newStamp {g : Nat → Resolution} (hg : ∀ n, (g n).id = id ∧ (g n).stamp = n) :
    (Act.newStamp >>= fun n => pure (g n)).Makes id w where
  makes _ r w' h := by
    cases h
    exact ⟨w, .refl, (hg w.made).1, (hg w.made).2, rfl⟩
  stops _ e w' h := by cases h

/-- A supplier's result arrives, or its entry is given up. -/
theorem Act.Makes.computing {x : Act Memory Resolution} (hx : x.Makes id w) (hw : w.Dated)
    (s : Serial) :
    (∃ r w₁, Act.computing s x w = .ok r (w₁.arrive s r) ∧ Moves w.Free w w₁ ∧
      r.id = id ∧ r.stamp = w₁.made) ∨
    ∃ e w₁, Act.computing s x w = .error e { w₁ with cache := w₁.cache.abandon s } ∧
      Moves w.Free w w₁ := by
  unfold Act.computing
  cases h : x w with
  | ok r w' =>
      obtain ⟨w₁, hm, hid, hr, rfl⟩ := hx.makes hw r w' h
      exact Or.inl ⟨r, w₁, rfl, hm, hid, hr⟩
  | error e w' => exact Or.inr ⟨e, w', rfl, hx.stops hw e w' h⟩

end

/-! ## Resolving -/

/-- Surroundings in memory whose cracker may call back. It is only called while the
project is in progress. -/
structure Reentrant (env : Surroundings Memory) : Prop extends Rooted env where
  crack : ∀ l w, (∃ s id, w.InFlight s id ∧ id.location = l) → (env.crack l).Keeps moving w

section

variable {env : Surroundings Memory} {w w' : Workspace Memory} {id : Identity}

theorem resolveScript_makes (env : Surroundings Memory) (id : Identity) (w : Workspace Memory) :
    (Act.resolveScript env id).Makes id w := by
  unfold Act.resolveScript
  refine .bind (moving_composes.read (·.outside) fun _ => rfl) fun outside w' _ => ?_
  split
  · exact makes_newStamp fun n => ⟨rfl, rfl⟩
  · exact makes_newStamp fun n => ⟨rfl, rfl⟩

theorem resolveProject_makes (henv : Reentrant env)
    {dependency : Identity → Act Memory (Except (List Identity) Resolution)}
    (hdep : ∀ dep w, dep.WellFormed → (dependency dep).Keeps moving w)
    (hid : ∃ s, w.InFlight s id) :
    (Act.resolveProject env id dependency).Makes id w := by
  obtain ⟨s, hs⟩ := hid
  unfold Act.resolveProject
  refine .bind (henv.crack id.location w ⟨s, id, hs, rfl⟩) fun report w₁ _ => ?_
  refine .bind (moving_composes.read _ fun _ => rfl) fun loadTime w₂ _ => ?_
  split
  · exact makes_newStamp fun n => ⟨rfl, rfl⟩
  · -- the crack comes first, and what follows it makes moves of its own
    refine .bind (moving_composes.foldlM (moving_composes.link henv.toRooted.named hdep) _ _)
      fun linked w₃ _ => ?_
    refine .bind (moving_composes.mapM (moving_composes.placeFrom env id.dir) _)
      fun artifacts w₄ _ => ?_
    refine .bind (moving_composes.mapM (moving_composes.placeFrom env id.dir) _) fun sources w₅ _ =>
      ?_
    refine .bind ?_ fun target w₆ _ => makes_newStamp fun n => ⟨rfl, rfl⟩
    cases report.target with
    | none => exact moving_composes.pure _
    | some p => exact moving_composes.map some (moving_composes.placeFrom env id.dir p w₅)

theorem resolveOne_makes (henv : Reentrant env)
    {dependency : Identity → Act Memory (Except (List Identity) Resolution)}
    (hdep : ∀ dep w, dep.WellFormed → (dependency dep).Keeps moving w)
    (hid : ∃ s, w.InFlight s id) :
    (Act.resolveOne env id dependency).Makes id w := by
  unfold Act.resolveOne
  split
  · exact resolveScript_makes env id w
  · exact resolveProject_makes henv hdep hid
  · exact makes_newStamp fun n => ⟨rfl, rfl⟩

/-- A claim is a move, and it claims an entry that was not in progress. -/
theorem claim_moves (hid : id.WellFormed) {s : Serial} {c : Cache Resolution}
    (hr : Act.request id w = .ok (.claimed s id) { w with cache := c })
    (hc : w.cache.Claims 0 id.location s id c) :
    Move w.Free w { w with cache := c } ∧ w.Free s ∧
      Workspace.InFlight { w with cache := c } s id := by
  refine ⟨.ask hid hr, ?_, _, 0, [], hc.entry, rfl, rfl⟩
  rintro id' ⟨e, owner, marks, he, -, hs⟩
  obtain rfl := hc.before_eq he
  cases hs

/-- Resolving a file through the cache makes moves, and ends only what it began. -/
theorem resolveAt_moves (henv : Reentrant env) (depth : Nat) (path : List Identity)
    (w : Workspace Memory) (hid : id.WellFormed) :
    (Act.resolveAt env depth id path).Keeps moving w := by
  induction depth generalizing id path w with
  | zero => exact throw_moves .nesting
  | succ depth ih =>
      refine .of_after fun hw => ?_
      rw [Act.resolveAt]
      rcases request_cases hid hw.tidy with ⟨r, hr, -⟩ | ⟨hr, -⟩ | ⟨s, c, hr, hc⟩
      · rw [Act.after_bind_ok hr]
        exact .refl
      · rw [Act.after_bind_ok hr]
        exact .refl
      · obtain ⟨hask, hfree, hflight⟩ := claim_moves hid hr hc
        have hone := resolveOne_makes henv (fun dep w hd => ih (path ++ [id]) w hd) ⟨s, hflight⟩
        rw [Act.after_bind_ok hr]
        -- what the supplier ends was not in progress before the claim either
        rcases hone.computing (hask.dated hw) s with ⟨r, w₁, h, hm, -, hstamp⟩ | ⟨e, w₁, h, hm⟩
        · rw [Act.after_bind_ok h]
          exact (moving_composes.trans _ _ _ hw (.single hask) hm).tail (.arrive hfree hstamp)
        · rw [Act.after_bind_error h]
          exact (moving_composes.trans _ _ _ hw (.single hask) hm).tail (.abandon hfree)

/-- A file that is not computed or in progress is in flight from the claim of its entry on, and what
it is resolved to arrives at this entry. -/
theorem resolveAt_lands (henv : Reentrant env) (depth : Nat) (path : List Identity)
    (hid : id.WellFormed) (hw : w.Dated) {s : Serial} {c : Cache Resolution}
    (hc : w.cache.Claims 0 id.location s id c)
    (hr : Act.request id w = .ok (.claimed s id) { w with cache := c })
    {a : Except (List Identity) Resolution}
    (h : Act.resolveAt env (depth + 1) id path w = .ok a w') :
    ∃ r, a = .ok r ∧ r.id = id ∧ Workspace.InFlight { w with cache := c } s id ∧
      Lands s r { w with cache := c } w' := by
  obtain ⟨hask, -, hflight⟩ := claim_moves hid hr hc
  have hone := resolveOne_makes henv
    (fun dep w hd => resolveAt_moves henv depth (path ++ [id]) w hd) ⟨s, hflight⟩
  rw [Act.resolveAt] at h
  obtain ⟨answer, w₀, hreq, hrest⟩ := Act.bind_eq_ok.mp h
  cases hr.symm.trans hreq
  obtain ⟨r, w₂, hcomp, hpure⟩ := Act.bind_eq_ok.mp hrest
  obtain ⟨rfl, rfl⟩ := Act.pure_eq_ok.mp hpure
  have hne : ∀ t, Workspace.Free { w with cache := c } t → t ≠ s := by
    rintro t ht rfl
    exact ht id hflight
  rcases hone.computing (hask.dated hw) s with ⟨r', w₁, h', hm, hrid, hstamp⟩ | ⟨e, w₁, h', -⟩
  · cases hcomp.symm.trans h'
    exact ⟨r, rfl, hrid, hflight, w₁, Moves.mono hne hm, hstamp, .refl⟩
  · cases hcomp.symm.trans h'

theorem resolve_moves (henv : Reentrant env) (w : Workspace Memory) (hid : id.WellFormed) :
    (Act.resolve env id).Keeps moving w := by
  unfold Act.resolve
  refine moving_composes.bind_read (·.outside) (fun _ => rfl) fun _ => ?_
  refine moving_composes.bind (resolveAt_moves henv _ _ w hid) fun a w' _ _ => ?_
  split
  · exact moving_composes.pure _
  · exact moving_composes.bind newStamp_moves fun _ _ _ _ => moving_composes.pure _

/-! ## Queries and changes -/

theorem moving_lawful (henv : Reentrant env) : moving.Lawful env Identity.WellFormed where
  toComposes := moving_composes
  named := henv.toRooted.named
  known _ hw := hw.tidy.known
  resolve _ w hid := resolve_moves henv w hid

theorem Query.moves (henv : Reentrant env) (q : Query) : (q.run env).Keeps moving w :=
  q.keeps henv.toRooted (moving_lawful henv)

theorem Change.moves (henv : Rooted env) (c : Change) : (c.run env).Keeps moving w := by
  refine .of_after fun hw => ?_
  obtain ⟨a, xs, w', h, hx, -⟩ := c.run_changesAt henv hw.tidy.lone
  rw [Act.after_eq h]
  exact hx.moves hw.tidy

/-! ## Calling back -/

/-- The surroundings in which something is done before and after every crack. -/
def Surroundings.around (env : Surroundings Memory) (before after : Location → Act Memory Unit) :
    Surroundings Memory :=
  { env with
    crack := fun l => do
      before l
      let report ← env.crack l
      after l
      return report }

/-- What is done around a crack may be queries and changes in surroundings whose cracker
calls back itself. -/
theorem Reentrant.around (henv : Reentrant env) {before after : Location → Act Memory Unit}
    (hbefore : ∀ l w, (before l).Keeps moving w) (hafter : ∀ l w, (after l).Keeps moving w) :
    Reentrant (env.around before after) where
  locate := henv.locate
  crack l w hl := by
    obtain ⟨s, id, hs, hid⟩ := hl
    refine .of_starts fun hw => moving_composes.bind (hbefore l w) fun _ w₁ _ h₁ => ?_
    have hs₁ := Moves.inFlight ((hbefore l w).goes hw _ _ h₁) hw (fun hn => hn id hs) hs
    refine moving_composes.bind (henv.crack l w₁ ⟨s, id, hs₁, hid⟩) fun _ w₂ _ _ => ?_
    exact moving_composes.bind (hafter l w₂) fun _ _ _ _ => moving_composes.pure _

theorem surroundings_crack_moves (l : Location) (w : Workspace Memory) :
    (Memory.surroundings.crack l).Keeps moving w :=
  moving_composes.bind (modifyOutside_moves (·.countCrack l)) fun _ _ _ _ =>
    moving_composes.read (fun w => w.outside.report l) fun _ => rfl

theorem surroundings_reentrant : Reentrant Memory.surroundings where
  locate _ := rfl
  crack l w _ := surroundings_crack_moves l w

theorem Workspace.Reachable.after {α : Type} (hw : w.Reachable) {x : Act Memory α}
    (hx : x.Keeps moving w) :
    (x.after w).Reachable := by
  obtain ⟨m, hm⟩ := hw
  exact ⟨m, hm.trans (Moves.mono (fun _ _ => trivial) (hx.after (hm.dated (.fresh m))))⟩

end

end FSharpWorkspace
