import FSharpWorkspace.Proofs.Sequential.Total
/-!
# Operations, and how often they crack

What happens to a workspace whose cracker only looks up and counts: questions, changes that it is
told of, and edits of the surroundings, which it may be told of or not (`Operation`). Between
resolutions every operation returns (`Operation.returns`).

A crack is paid for by the result that it leaves in the map, and only an eviction takes that
away again. So from any moment on, a project is cracked at most once more than its result is
evicted (`cracked_once`).
-/

set_option autoImplicit false

namespace FSharpWorkspace

/-! ## Operations -/

/-- Something that is done between resolutions. -/
inductive Operation where
  | ask (q : Query)
  | tell (c : Change)
  /-- From now on cracking the project at `p` reports something else. -/
  | edit (p : Path) (report : CrackReport)
  | write (p : Path) (content : String)
  | remove (p : Path)

def Operation.run : Operation → Act Memory Unit
  | ask q => q.run Memory.surroundings
  | tell c => c.run Memory.surroundings
  | edit p report => Act.modifyOutside (·.setReport (Memory.locate p) report)
  | write p content => Act.modifyOutside (·.write p content)
  | remove p => Act.modifyOutside (·.remove p)

section

variable {w w' : Workspace Memory}

theorem Query.still (q : Query) (hw : w.Quiet)
    (h : q.run Memory.surroundings w = .ok () w') : Still w w' :=
  (q.fetches surroundings_mild hw h).still hw.tidy

theorem Operation.returns (op : Operation) (hw : w.Quiet) : ∃ w', op.run w = .ok () w' := by
  cases op with
  | ask q =>
      obtain ⟨_, w', h⟩ := q.returns hw
      exact ⟨w', h⟩
  | tell c =>
      obtain ⟨_, w', h⟩ := c.returns hw.tidy.lone
      exact ⟨w', h⟩
  | edit p report => exact ⟨_, rfl⟩
  | write p content => exact ⟨_, rfl⟩
  | remove p => exact ⟨_, rfl⟩

theorem Operation.quiet {op : Operation} (hw : w.Quiet) (h : op.run w = .ok () w') : w'.Quiet := by
  cases op with
  | ask q => exact hw.fetches surroundings_mild (q.fetches surroundings_mild hw h)
  | tell c =>
      obtain ⟨xs, hx, -⟩ := c.run_changes surroundings_mild.rooted hw.tidy.lone h
      exact ⟨hw.tidy.changes hx, hw.idle.elapsed hx.elapsed⟩
  | edit p report =>
      cases h
      exact ⟨hw.tidy.outside _, hw.idle⟩
  | write p content =>
      cases h
      exact ⟨hw.tidy.outside _, hw.idle⟩
  | remove p =>
      cases h
      exact ⟨hw.tidy.outside _, hw.idle⟩

theorem Workspace.Quiet.fresh (m : Memory) : (Workspace.fresh m).Quiet := ⟨.fresh m, .fresh m⟩

/-! ## Courses of operations -/

def Workspace.results (l : Location) (w : Workspace Memory) : Nat :=
  if (w.cache.peek l).isSome then 1 else 0

/-- How many results for the file at `l` are evicted between `w` and `w'`: one if there was one,
and there is none. -/
def Workspace.evicted (l : Location) (w w' : Workspace Memory) : Nat := w.results l - w'.results l

/-- The operations lead from `w` to `w'`, and `n` of them evict the result for the file at `l`. -/
inductive Course (l : Location) :
    List Operation → Nat → Workspace Memory → Workspace Memory → Prop where
  | nil (w : Workspace Memory) : Course l [] 0 w w
  | cons {op : Operation} {ops : List Operation} {n : Nat} {w w₁ w' : Workspace Memory} :
      op.run w = .ok () w₁ → Course l ops n w₁ w' → Course l (op :: ops) (w.evicted l w₁ + n) w w'

theorem Course.exists (l : Location) (ops : List Operation) (hw : w.Quiet) :
    ∃ n w', Course l ops n w w' := by
  induction ops generalizing w with
  | nil => exact ⟨0, w, .nil w⟩
  | cons op ops ih =>
      obtain ⟨w₁, h₁⟩ := op.returns hw
      obtain ⟨n, w', h⟩ := ih (Operation.quiet hw h₁)
      exact ⟨_, w', .cons h₁ h⟩

theorem Course.quiet {l : Location} {ops : List Operation} {n : Nat} (h : Course l ops n w w')
    (hw : w.Quiet) :
    w'.Quiet := by
  induction h with
  | nil => exact hw
  | cons h₁ _ ih => exact ih (Operation.quiet hw h₁)

/-! ## At most once -/

theorem Workspace.results_of_some {l : Location} {r : Resolution}
    (h : w.cache.peek l = some r) : w.results l = 1 := by
  simp [Workspace.results, h]

theorem Workspace.results_of_none {l : Location} (h : w.cache.peek l = none) : w.results l = 0 := by
  simp [Workspace.results, h]

/-- A query cracks a project at most once, and only if it had no result. -/
theorem Query.cracks (q : Query) (hw : w.Quiet) (h : q.run Memory.surroundings w = .ok () w')
    (l : Location) :
    w'.outside.cracksOf l = w.outside.cracksOf l ∨
      (w.cache.peek l = none ∧ w'.outside.cracksOf l = w.outside.cracksOf l + 1) := by
  rcases (q.still hw h).once l with heq | ⟨heq, hnone, -⟩
  · exact Or.inl heq
  · exact Or.inr ⟨hnone, heq⟩

/-- A crack leaves a result behind, and no operation but an eviction takes a result away. -/
theorem Operation.accounts {op : Operation} (hw : w.Quiet) (h : op.run w = .ok () w')
    (l : Location) :
    w'.outside.cracksOf l + w.results l ≤ w.outside.cracksOf l + w.evicted l w' + w'.results l := by
  have hkeeps : w'.outside.cracksOf l = w.outside.cracksOf l → w'.outside.cracksOf l + w.results l ≤
      w.outside.cracksOf l + w.evicted l w' + w'.results l := by
    intro heq
    unfold Workspace.evicted
    omega
  cases op with
  | ask q =>
      rcases (q.still hw h).once l with heq | ⟨heq, hnone, -, r, hr, -⟩
      · exact hkeeps heq
      · rw [heq, Workspace.results_of_none hnone, Workspace.results_of_some hr]
        exact Nat.add_le_add_right (Nat.le_add_right _ _) 1
  | tell c =>
      obtain ⟨xs, -, ho, -⟩ := c.run_changes surroundings_mild.rooted hw.tidy.lone h
      exact hkeeps (by rw [ho])
  | edit p report =>
      cases h
      exact hkeeps rfl
  | write p content =>
      cases h
      exact hkeeps rfl
  | remove p =>
      cases h
      exact hkeeps rfl

theorem Course.accounts {l : Location} {ops : List Operation} {n : Nat} (h : Course l ops n w w')
    (hw : w.Quiet) :
    w'.outside.cracksOf l + w.results l ≤ w.outside.cracksOf l + n + w'.results l := by
  induction h with
  | nil => exact Nat.le_refl _
  | cons h₁ _ ih =>
      have hstep := Operation.accounts hw h₁ l
      have hrest := ih (Operation.quiet hw h₁)
      omega

end

/-- **Cracking at most once.** Whatever was done before, from then on a project is cracked at most
once more than its result is evicted, a query cracks it at most once and only if it has no result
when the query starts, and a change cracks nothing. The references may be on circles, lead back to
their own project or lead to projects that fail. -/
theorem cracked_once (m : Memory) (before : List Operation) (l : Location) :
    ∃ k w, Course l before k (.fresh m) w ∧
      (∀ ops, ∃ n w', Course l ops n w w' ∧ w'.outside.cracksOf l ≤ w.outside.cracksOf l + n + 1) ∧
      (∀ q : Query, ∃ w', q.run Memory.surroundings w = .ok () w' ∧
        (w'.outside.cracksOf l = w.outside.cracksOf l ∨
          (w.cache.peek l = none ∧ w'.outside.cracksOf l = w.outside.cracksOf l + 1))) ∧
      ∀ c : Change, ∃ w', c.run Memory.surroundings w = .ok () w' ∧ w'.outside = w.outside := by
  obtain ⟨k, w, hbefore⟩ := Course.exists l before (.fresh m)
  have hw : w.Quiet := hbefore.quiet (.fresh m)
  refine ⟨k, w, hbefore, fun ops => ?_, fun q => ?_, fun c => ?_⟩
  · obtain ⟨n, w', h⟩ := Course.exists l ops hw
    refine ⟨n, w', h, ?_⟩
    have haccounts := h.accounts hw
    have hle : w'.results l ≤ 1 := by
      unfold Workspace.results
      split <;> simp
    omega
  · obtain ⟨w', h⟩ := (Operation.ask q).returns hw
    exact ⟨w', h, q.cracks hw h l⟩
  · obtain ⟨w', h⟩ := (Operation.tell c).returns hw
    obtain ⟨xs, -, ho, -⟩ := c.run_changes surroundings_mild.rooted hw.tidy.lone h
    exact ⟨w', h, ho⟩

end FSharpWorkspace
