import FSharpWorkspace.Memory
import FSharpWorkspace.Proofs.Cache.Cascade
import FSharpWorkspace.Proofs.Places
import FSharpWorkspace.Workspace.Event
/-!
# Changes of the table

An `Edit` rewrites the report on a project and tells the workspace. In the surroundings
`Memory.editing` a cracker makes edits of its own, before and after it looks at the table.

Whatever is told to a workspace drops some results: `Changes xs w w'` says that the files `xs`
were invalidated, that no result left depends on one of them, and that the table is the same
for all other files.
-/

set_option autoImplicit false

namespace FSharpWorkspace

/-! ## Actions in sequence -/

theorem Act.bind_eq_ok {σ α β : Type} {x : Act σ α} {f : α → Act σ β} {w w'' : Workspace σ}
    {b : β} :
    (x >>= f) w = .ok b w'' ↔ ∃ a w', x w = .ok a w' ∧ f a w' = .ok b w'' := by
  show EStateM.bind x f w = _ ↔ _
  unfold EStateM.bind
  cases x w with
  | ok a w' =>
      constructor
      · intro h
        exact ⟨a, w', rfl, h⟩
      · rintro ⟨a', w₁, ha, h⟩
        cases ha
        exact h
  | error e w' => simp

theorem Act.bind_apply {σ α β : Type} {x : Act σ α} {f : α → Act σ β} {w w' : Workspace σ} {a : α}
    (h : x w = .ok a w') : (x >>= f) w = f a w' := by
  show EStateM.bind x f w = f a w'
  unfold EStateM.bind
  rw [h]

theorem Act.bind_ok {σ α β : Type} {x : Act σ α} {f : α → Act σ β} {w w' w'' : Workspace σ} {a : α}
    {b : β} (h : x w = .ok a w') (h' : f a w' = .ok b w'') : (x >>= f) w = .ok b w'' :=
  Act.bind_eq_ok.mpr ⟨a, w', h, h'⟩

theorem Act.bind_eq_error {σ α β : Type} {x : Act σ α} {f : α → Act σ β} {w w'' : Workspace σ}
    {e : Interrupt} :
    (x >>= f) w = .error e w'' ↔ x w = .error e w'' ∨ ∃ a w',
      x w = .ok a w' ∧ f a w' = .error e w'' := by
  show EStateM.bind x f w = _ ↔ _
  unfold EStateM.bind
  cases x w with
  | ok a w' =>
      constructor
      · exact fun h => Or.inr ⟨a, w', rfl, h⟩
      · rintro (h | ⟨a', w₁, ha, h⟩)
        · cases h
        · cases ha
          exact h
  | error e w' => simp

theorem Act.pure_eq_ok {σ α : Type} {a b : α} {w w' : Workspace σ} :
    (pure a : Act σ α) w = .ok b w' ↔ a = b ∧ w = w' := by
  show EStateM.Result.ok a w = .ok b w' ↔ _
  simp

/-! ## Edits -/

/-- A new report on a script or project, if there is one, and the event that tells the workspace. -/
structure Edit where
  path : Path
  report : Option CrackReport
  kind : EventKind

/-- Tells the workspace what happened to a script or project. -/
def Act.tell (kind : EventKind) (id : Identity) : Act Memory (Except Misuse Unit) :=
  match kind with
  | .created => Act.created id
  | .changed => Act.updated id
  | .deleted => Act.deleted id

/-- Makes an edit. A path that names no script or project is left alone. -/
def Edit.apply (edit : Edit) : Act Memory Unit :=
  match Identity.of Memory.locate edit.path with
  | .error _ => pure ()
  | .ok id =>
    if id.kind.isResolvable then do
      match edit.report with
      | some report => Act.modifyOutside (·.setReport id.location report)
      | none => pure ()
      discard (Act.tell edit.kind id)
    else pure ()

/-- Surroundings in memory whose cracker may, before it returns, edit the table: `plan` says
which edits it makes before it looks up the report, and which after. Resolutions may nest as
deep as `depth` says. -/
def Memory.editing (plan : Location → Workspace Memory → List Edit × List Edit)
    (depth : Memory → Nat) :
    Surroundings Memory where
  locate _ p := Memory.locate p
  read m l := m.read l.path
  modified m l := m.written? l.path
  crack l := do
    let edits := plan l (← get)
    edits.1.forM Edit.apply
    Act.modifyOutside (·.countCrack l)
    let report := (← Act.outside).report l
    edits.2.forM Edit.apply
    return report
  depth := depth

/-! ## What changes -/

/-- The files `xs` were invalidated between `w` and `w'`, and nothing else happened to the cache. -/
structure Changes (xs : List Location) (w w' : Workspace Memory) : Prop where
  cache : w'.cache = xs.foldl Cache.invalidate w.cache
  closed : ∀ x ∈ xs, ∀ l r, w'.cache.peek l = some r → r.dependsOn x = false
  made : w'.made = w.made
  report : ∀ l, l ∉ xs → w'.outside.report l = w.outside.report l
  known : (∀ id ∈ w.index.projects, id.WellFormed) → ∀ id ∈ w'.index.projects, id.WellFormed

theorem Changes.lone {xs : List Location} {w w' : Workspace Memory} (h : Changes xs w w')
    (hw : w.cache.Lone) :
    w'.cache.Lone := by
  rw [h.cache]
  exact hw.foldl_invalidate xs

theorem Changes.peek {xs : List Location} {w w' : Workspace Memory} (h : Changes xs w w')
    (hw : w.cache.Lone) (l : Location) (r : Resolution) :
    w'.cache.peek l = some r ↔ w.cache.peek l = some r ∧ l ∉ xs := by
  rw [h.cache]
  exact Cache.peek_foldl_invalidate hw xs l r

theorem Changes.refl (w : Workspace Memory) : Changes [] w w where
  cache := rfl
  closed x hx := by cases hx
  made := rfl
  report _ _ := rfl
  known h := h

theorem Changes.trans {xs ys : List Location} {w w' w'' : Workspace Memory} (hw : w.cache.Lone)
    (h : Changes xs w w') (h' : Changes ys w' w'') : Changes (xs ++ ys) w w'' where
  cache := by rw [h'.cache, h.cache, List.foldl_append]
  closed x hx l r hp := by
    rcases List.mem_append.mp hx with hx | hx
    · exact h.closed x hx l r ((h'.peek (h.lone hw) l r).mp hp).1
    · exact h'.closed x hx l r hp
  made := h'.made.trans h.made
  report l hl := by
    obtain ⟨hx, hy⟩ := not_or.mp (List.mem_append.not.mp hl)
    exact (h'.report l hy).trans (h.report l hx)
  known hk := h'.known (h.known hk)

/-- A change of the index alone. -/
theorem Changes.of_index {w : Workspace Memory} (index : Index)
    (h : (∀ id ∈ w.index.projects, id.WellFormed) → ∀ id ∈ index.projects, id.WellFormed) :
    Changes [] w { w with index } where
  cache := rfl
  closed x hx := by cases hx
  made := rfl
  report _ _ := rfl
  known := h

theorem changed_changes (l : Location) {w : Workspace Memory} (hw : w.cache.Lone) :
    ∃ xs w', Act.changed l w = .ok () w' ∧ Changes xs w w' ∧ l ∈ xs ∧ w'.outside = w.outside := by
  obtain ⟨xs, hxs, -, hmem⟩ := Cache.cascade_eq_foldl Resolution.dependsOn hw l
  refine ⟨xs, { w with cache := w.cache.cascade Resolution.dependsOn l }, rfl,
    ?_, (hmem l).mpr .self, rfl⟩
  refine ⟨hxs, fun x hx l' r hp => ?_, rfl, fun _ _ => rfl, fun h => h⟩
  exact Cache.Reaches.not_depends hw hmem ((hmem x).mp hx) (hxs ▸ hp)

/-- A change of the index, and then the cascade from the file at `l`. -/
theorem index_changed_changes (f : Index → Index) (l : Location) {w : Workspace Memory}
    (hw : w.cache.Lone)
    (hf : (∀ id ∈ w.index.projects, id.WellFormed) → ∀ id ∈ (f w.index).projects, id.WellFormed) :
    ∃ xs w', (do Act.modifyIndex f; Act.changed l : Act Memory Unit) w = .ok () w' ∧
      Changes xs w w' ∧ l ∈ xs ∧
      w'.outside = w.outside := by
  have hi := Changes.of_index (f w.index) hf
  obtain ⟨xs, w', hw', hc, hl, ho⟩ := changed_changes l (hi.lone hw)
  exact ⟨xs, w', hw', by simpa using hi.trans hw hc, hl, ho⟩

/-! ## What the workspace is told -/

theorem Index.insertProject_wellFormed {ix : Index} {id : Identity} (hid : id.WellFormed)
    (h : ∀ x ∈ ix.projects, x.WellFormed) : ∀ x ∈ (ix.insertProject id).projects, x.WellFormed := by
  intro x hx
  rcases Identity.mem_insert hx with rfl | hx
  · exact hid
  · exact h x hx

theorem Index.removeProject_wellFormed {ix : Index} {l : Location}
    (h : ∀ x ∈ ix.projects, x.WellFormed) :
    ∀ x ∈ (ix.removeProject l).projects, x.WellFormed :=
  fun x hx => h x (List.mem_of_mem_filter hx)

theorem ifResolvable_ok {σ : Type} {id : Identity} (h : id.kind.isResolvable = true)
    {action : Act σ Unit} {w w' : Workspace σ} (ha : action w = .ok () w') :
    Act.ifResolvable id action w = .ok (.ok ()) w' := by
  unfold Act.ifResolvable
  rw [if_pos h]
  exact Act.bind_ok ha rfl

theorem discard_ok {σ α : Type} {x : Act σ α} {w w' : Workspace σ} {a : α} (h : x w = .ok a w') :
    (discard x : Act σ Unit) w = .ok () w' := by
  show (EStateM.map (fun _ => ()) x) w = _
  simp [EStateM.map, h]

/-- Telling the workspace of a script or project drops it and what depends on it. -/
theorem tell_changes (kind : EventKind) {id : Identity} (hid : id.WellFormed)
    (hk : id.kind.isResolvable = true) {w : Workspace Memory} (hw : w.cache.Lone) :
    ∃ xs w', Act.tell kind id w = .ok (.ok ()) w' ∧ Changes xs w w' ∧ id.location ∈ xs ∧
      w'.outside = w.outside := by
  cases kind with
  | created =>
      obtain ⟨xs, w', h, hrest⟩ := index_changed_changes (·.insertProject id) id.location hw
        (Index.insertProject_wellFormed hid)
      exact ⟨xs, w', ifResolvable_ok hk h, hrest⟩
  | changed =>
      obtain ⟨xs, w', h, hrest⟩ := index_changed_changes (·.insertProject id) id.location hw
        (Index.insertProject_wellFormed hid)
      exact ⟨xs, w', ifResolvable_ok hk h, hrest⟩
  | deleted =>
      obtain ⟨xs, w', h, hrest⟩ :=
        index_changed_changes (·.removeProject id.location) id.location hw
        Index.removeProject_wellFormed
      exact ⟨xs, w', ifResolvable_ok hk h, hrest⟩

theorem Memory.report_setReport_of_ne {m : Memory} {l x : Location} (report : CrackReport)
    (h : x ≠ l) :
    (m.setReport l report).report x = m.report x := by
  have hx : (x == l) = false := by simpa using h
  unfold Memory.report Memory.setReport
  rw [List.lookup_cons, hx, ← lookup_filter_ne m.reports h]

/-- An edit drops some results, and cracks nothing. -/
theorem Edit.apply_changes (edit : Edit) {w : Workspace Memory} (hw : w.cache.Lone) :
    ∃ xs w', edit.apply w = .ok () w' ∧ Changes xs w w' ∧ w'.outside.cracks = w.outside.cracks := by
  unfold Edit.apply
  cases hid : Identity.of Memory.locate edit.path with
  | error e => exact ⟨[], w, rfl, .refl w, rfl⟩
  | ok id =>
      by_cases hk : id.kind.isResolvable = true
      · have hwf : id.WellFormed := Identity.of_wellFormed hid
        cases hr : edit.report with
        | none =>
            obtain ⟨xs, w', h, hc, -, ho⟩ := tell_changes edit.kind hwf hk hw
            refine ⟨xs, w', ?_, hc, by rw [ho]⟩
            simp only [if_pos hk]
            exact discard_ok h
        | some report =>
            -- the report is new before the workspace is told, but its project is among those
            -- that are dropped
            obtain ⟨xs, w', h, hc, hl, ho⟩ := tell_changes edit.kind hwf hk
              (w := { w with outside := w.outside.setReport id.location report }) hw
            refine ⟨xs, w', ?_, ⟨hc.cache, hc.closed, hc.made, fun l hn => ?_, hc.known⟩, ?_⟩
            · simp only [if_pos hk]
              exact discard_ok h
            · rw [hc.report l hn]
              exact Memory.report_setReport_of_ne report fun he => hn (he ▸ hl)
            · rw [ho]
              rfl
      · refine ⟨[], w, ?_, .refl w, rfl⟩
        simp only [if_neg hk]
        rfl

theorem forM_apply_changes (edits : List Edit) {w : Workspace Memory} (hw : w.cache.Lone) :
    ∃ xs w', edits.forM Edit.apply w = .ok () w' ∧ Changes xs w w' ∧
      w'.outside.cracks = w.outside.cracks := by
  induction edits generalizing w with
  | nil => exact ⟨[], w, rfl, .refl w, rfl⟩
  | cons edit edits ih =>
      obtain ⟨xs, w₁, h₁, hc₁, hn₁⟩ := edit.apply_changes hw
      obtain ⟨ys, w₂, h₂, hc₂, hn₂⟩ := ih (hc₁.lone hw)
      exact ⟨xs ++ ys, w₂, Act.bind_ok h₁ h₂, hc₁.trans hw hc₂, hn₂.trans hn₁⟩

/-! ## Cracking -/

/-- Cracking the project at `l` reported what the table said at some moment; edits came before and
after it. It was counted. -/
structure Cracks (l : Location) (xs ys : List Location) (w : Workspace Memory)
    (report : CrackReport) (w' : Workspace Memory) : Prop where
  moment : ∃ wₘ, Changes xs w wₘ ∧ report = wₘ.outside.report l ∧ Changes ys wₘ w'
  count : ∀ x, w'.outside.cracksOf x = w.outside.cracksOf x + if x = l then 1 else 0

/-- Surroundings in memory in which a spelling is read from the root. -/
structure Rooted (env : Surroundings Memory) : Prop where
  locate : ∀ m, env.locate m = Memory.locate

/-- Surroundings in memory in which a spelling is read from the root and cracking a project does no
more than edit the table. -/
structure Mild (env : Surroundings Memory) : Prop where
  locate : ∀ m, env.locate m = Memory.locate
  crack : ∀ l w report w', w.cache.Lone → env.crack l w = .ok report w' → ∃ xs ys,
    Cracks l xs ys w report w'

theorem Mild.rooted {env : Surroundings Memory} (henv : Mild env) : Rooted env := ⟨henv.locate⟩

theorem countCrack_changes (l : Location) (w : Workspace Memory) :
    Changes [] w { w with outside := w.outside.countCrack l } where
  cache := rfl
  closed x hx := by cases hx
  made := rfl
  report _ _ := rfl
  known h := h

theorem Memory.cracksOf_countCrack (m : Memory) (l x : Location) :
    (m.countCrack l).cracksOf x = m.cracksOf x + if x = l then 1 else 0 := by
  unfold Memory.countCrack
  show (List.lookup x ((l, m.cracksOf l + 1) :: m.cracks.filter (·.1 ≠ l))).getD 0 = _
  rw [List.lookup_cons]
  by_cases hx : x = l
  · subst hx
    simp
  · have hb : (x == l) = false := by simpa using hx
    rw [hb, lookup_filter_ne m.cracks hx, if_neg hx]
    rfl

theorem editing_mild (plan : Location → Workspace Memory → List Edit × List Edit)
    (depth : Memory → Nat) :
    Mild (Memory.editing plan depth) where
  locate _ := rfl
  crack l w report w' hw h := by
    obtain ⟨xs, w₁, h₁, hc₁, hn₁⟩ := forM_apply_changes (plan l w).1 hw
    have hcount := countCrack_changes l w₁
    obtain ⟨ys, w₂, h₂, hc₂, hn₂⟩ := forM_apply_changes (plan l w).2 (hcount.lone (hc₁.lone hw))
    have hall : (Memory.editing plan depth).crack l w = .ok (w₁.outside.report l) w₂ :=
      Act.bind_ok rfl (Act.bind_ok h₁ (Act.bind_ok rfl (Act.bind_ok rfl (Act.bind_ok h₂ rfl))))
    rw [hall] at h
    cases h
    refine ⟨xs, ys, ⟨w₁, hc₁, rfl, by simpa using hcount.trans (hc₁.lone hw) hc₂⟩, fun x => ?_⟩
    have hbefore : w₁.outside.cracksOf x = w.outside.cracksOf x := by
      unfold Memory.cracksOf
      rw [hn₁]
    have hafter : w'.outside.cracksOf x = (w₁.outside.countCrack l).cracksOf x := by
      unfold Memory.cracksOf
      rw [hn₂]
    rw [hafter, Memory.cracksOf_countCrack, hbefore]

/-- The cracker of `Memory.surroundings` makes no edits. -/
theorem surroundings_eq_editing :
    Memory.surroundings = Memory.editing (fun _ _ => ([], [])) Memory.depth := rfl

end FSharpWorkspace
