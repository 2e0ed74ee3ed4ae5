import FSharpWorkspace.Proofs.Workspace.Queries
/-!
# Runs

A run starts from a fresh workspace over some table. Operations follow one after the other: queries,
changes that the workspace is told of, edits of the table, and files that are written or removed. An
edit makes its project pending until the workspace is told of it, and nothing is asked while a
project is pending (`Reached`).

A change drops results and leaves the surroundings alone (`Change.run_changesAt`). An event is a
change of the script, project or solution that it names (`apply_resolvable`, `apply_solution`), or a
restore next to a lock file.
-/

set_option autoImplicit false

namespace FSharpWorkspace

/-! ## Changes that the workspace is told of -/

/-- Something that the workspace is told. -/
inductive Change where
  /-- A script or project was created, rewritten or deleted. -/
  | told (kind : EventKind) (p : Path)
  | event (event : FileEvent)
  | solutionUpdated (p : Path)
  | solutionDeleted (p : Path)
  | restored (lockFile : Path)

def Change.run (env : Surroundings Memory) : Change → Act Memory Unit
  | told kind p => Act.withIdentity p fun id => discard (Act.tell kind id)
  | event e => discard (Act.apply env e)
  | solutionUpdated p => Act.withIdentity p fun id => discard (Act.solutionUpdated env id)
  | solutionDeleted p => Act.withIdentity p fun id => discard (Act.solutionDeleted id)
  | restored lockFile => discard (Act.restored env lockFile)

/-- Whether a change is about the script or project at `l`. -/
def Change.IsAbout (l : Location) : Change → Prop
  | told _ p => ∃ kind, Kind.ofPath? p = some kind ∧ kind.isResolvable = true ∧ Memory.locate p = l
  | event e => e.path.fileName? ≠ some FileEvent.lockFileName ∧
      ∃ kind, Kind.ofPath? e.path = some kind ∧ kind.isResolvable = true ∧ Memory.locate e.path = l
  | _ => False

/-! ## Runs -/

/-- A run in the surroundings `env` leads to a workspace in which the projects `pending` were
edited, but the workspace was not told. Of the queries only those from `w` to `w'` with
`allowed w w'` occur. -/
inductive Reached (env : Surroundings Memory)
    (allowed : Workspace Memory → Workspace Memory → Prop) :
    Workspace Memory → List Location → Prop where
  | fresh (m : Memory) : Reached env allowed (.fresh m) []
  | query {w w' : Workspace Memory} (q : Query) :
      Reached env allowed w [] → q.run env w = .ok () w' → allowed w w' → Reached env allowed w' []
  | edit {w : Workspace Memory} {pending : List Location} {p : Path}
      {id : Identity} (report : CrackReport) :
      Reached env allowed w pending → Identity.of Memory.locate p = .ok id → id.kind = .project →
      Reached env allowed { w with outside := w.outside.setReport id.location report }
        (id.location :: pending)
  | change {w w' : Workspace Memory} {pending pending' : List Location} (c : Change) :
      Reached env allowed w pending → c.run env w = .ok () w' →
      (∀ l ∈ pending, l ∈ pending' ∨ c.IsAbout l) → Reached env allowed w' pending'
  | write {w : Workspace Memory} {pending : List Location} (p : Path) (content : String) :
      Reached env allowed w pending →
        Reached env allowed { w with outside := w.outside.write p content } pending
  | remove {w : Workspace Memory} {pending : List Location} (p : Path) :
      Reached env allowed w pending →
        Reached env allowed { w with outside := w.outside.remove p } pending

/-- A run in which no query is excluded. -/
abbrev ReachedFreely (env : Surroundings Memory) (w : Workspace Memory)
    (pending : List Location) : Prop :=
  Reached env (fun _ _ => True) w pending

/-! ## Where an event goes -/

section

variable {σ : Type} {env : Surroundings σ} {p : Path} {kind : Kind}

theorem Kind.isResolvable_iff : kind.isResolvable = true ↔ kind ≠ .solution := by
  cases kind <;> simp [Kind.isResolvable]

/-- A lock file is neither a script nor a project nor a solution. -/
theorem Kind.ofPath?_lockFile (h : p.fileName? = some FileEvent.lockFileName) :
    Kind.ofPath? p = none := by
  unfold Kind.ofPath? Path.extension?
  rw [h]
  decide

theorem Kind.fileName?_ne_lockFile (hkind : Kind.ofPath? p = some kind) :
    p.fileName? ≠ some FileEvent.lockFileName := by
  intro hlock
  cases (Kind.ofPath?_lockFile hlock).symm.trans hkind

/-- A lock file that is gone restores nothing. -/
theorem apply_lockFile_deleted (hlock : p.fileName? = some FileEvent.lockFileName)
    (w : Workspace σ) :
    Act.apply env ⟨.deleted, p⟩ w = .ok (.ok ()) w := by
  unfold Act.apply
  rw [if_pos hlock]
  rfl

theorem apply_lockFile (hlock : p.fileName? = some FileEvent.lockFileName) {event : EventKind}
    (h : event ≠ .deleted) (w : Workspace σ) :
    Act.apply env ⟨event, p⟩ w = (discard (Act.restored env p) >>= fun _ => pure (.ok ())) w := by
  unfold Act.apply
  rw [if_pos hlock]
  cases event with
  | deleted => exact absurd rfl h
  | created | changed => rfl

/-- An event about any other kind of file is passed over. -/
theorem apply_unknown (hlock : p.fileName? ≠ some FileEvent.lockFileName)
    (hkind : Kind.ofPath? p = none) (event : EventKind) (w : Workspace σ) :
    Act.apply env ⟨event, p⟩ w = .ok (.ok ()) w := by
  unfold Act.apply
  rw [if_neg hlock]
  simp only [hkind]
  rfl

/-- An event about a script or project is a change of it. -/
theorem apply_resolvable (hkind : Kind.ofPath? p = some kind) (hr : kind.isResolvable = true)
    (event : EventKind) (w : Workspace σ) :
    Act.apply env ⟨event, p⟩ w = match event with
      | .created => Act.created ⟨env.locate w.outside p, kind⟩ w
      | .changed => Act.updated ⟨env.locate w.outside p, kind⟩ w
      | .deleted => Act.deleted ⟨env.locate w.outside p, kind⟩ w := by
  unfold Act.apply
  rw [if_neg (Kind.fileName?_ne_lockFile hkind)]
  simp only [hkind]
  cases kind with
  | script => cases event <;> rfl
  | project => cases event <;> rfl
  | solution => cases hr

/-- An event about a solution is a change of it. -/
theorem apply_solution (hkind : Kind.ofPath? p = some .solution) (event : EventKind)
    (w : Workspace σ) :
    Act.apply env ⟨event, p⟩ w = match event with
      | .deleted => Act.solutionDeleted ⟨env.locate w.outside p, .solution⟩ w
      | _ => Act.solutionUpdated env ⟨env.locate w.outside p, .solution⟩ w := by
  unfold Act.apply
  rw [if_neg (Kind.fileName?_ne_lockFile hkind)]
  simp only [hkind]
  cases event <;> rfl

end

/-- In memory, an event about a script or project tells of it. -/
theorem apply_eq_tell {env : Surroundings Memory} (henv : Rooted env) {p : Path} {kind : Kind}
    (hkind : Kind.ofPath? p = some kind) (hr : kind.isResolvable = true) (event : EventKind)
    (w : Workspace Memory) :
    Act.apply env ⟨event, p⟩ w = Act.tell event ⟨Memory.locate p, kind⟩ w := by
  rw [apply_resolvable hkind hr, henv.locate]
  cases event <;> rfl

/-! ## What a change does -/

section

variable {w : Workspace Memory}

/-- The action returns, it invalidates some files, and nothing else happens to the cache or
to the surroundings. -/
def ChangesAt {α : Type} (w : Workspace Memory) (x : Act Memory α)
    (about : Location → Prop) : Prop :=
  w.cache.Lone → ∃ a xs w', x w = .ok a w' ∧ Changes xs w w' ∧
    w'.outside = w.outside ∧ ∀ l, about l → l ∈ xs

theorem ChangesAt.nothing {α : Type} {x : Act Memory α} {a : α} (h : x w = .ok a w) :
    ChangesAt w x fun _ => False :=
  fun _ => ⟨a, [], w, h, .refl w, rfl, fun _ h => h.elim⟩

theorem ChangesAt.mono {α : Type} {x : Act Memory α} {about about' : Location → Prop}
    (h : ChangesAt w x about) (ha : ∀ l, about' l → about l) : ChangesAt w x about' := by
  intro hw
  obtain ⟨a, xs, w', hx, hc, ho, hl⟩ := h hw
  exact ⟨a, xs, w', hx, hc, ho, fun l h => hl l (ha l h)⟩

theorem ChangesAt.discard {α : Type} {x : Act Memory α} {about : Location → Prop}
    (h : ChangesAt w x about) :
    ChangesAt w (discard x : Act Memory Unit) about := by
  intro hw
  obtain ⟨a, xs, w', hx, hrest⟩ := h hw
  exact ⟨(), xs, w', discard_ok hx, hrest⟩

theorem ChangesAt.congr {α : Type} {x y : Act Memory α} {about : Location → Prop}
    (h : ChangesAt w y about) (he : x w = y w) : ChangesAt w x about := by
  intro hw
  rw [he]
  exact h hw

/-- Something may be read before. -/
theorem ChangesAt.preceded {α β : Type} {x : Act Memory α} {f : α → Act Memory β} {a : α}
    {about : Location → Prop} (hx : x w = .ok a w) (h : ChangesAt w (f a) about) :
    ChangesAt w (x >>= f) about :=
  h.congr (Act.bind_apply hx)

theorem ChangesAt.thenReturn {α β : Type} {x : Act Memory α} {about : Location → Prop}
    (h : ChangesAt w x about) (f : α → β) : ChangesAt w (x >>= fun a => pure (f a)) about := by
  intro hw
  obtain ⟨a, xs, w', hx, hrest⟩ := h hw
  exact ⟨f a, xs, w', Act.bind_ok hx rfl, hrest⟩

theorem tell_changesAt (kind : EventKind) {id : Identity} (hid : id.WellFormed)
    (hk : id.kind.isResolvable = true) : ChangesAt w (Act.tell kind id) (id.location = ·) := by
  intro hw
  obtain ⟨xs, w', h, hc, hl, ho⟩ := tell_changes kind hid hk hw
  refine ⟨.ok (), xs, w', h, hc, ho, fun l he => ?_⟩
  subst he
  exact hl

/-- A solution is not a script or project, and telling it to be one changes nothing. -/
theorem tell_solution (kind : EventKind) {id : Identity} (hk : id.kind.isResolvable = false) :
    Act.tell kind id w = .ok (.error (.unresolvable id.location)) w := by
  have h : ∀ action, Act.ifResolvable id action w = .ok (.error (.unresolvable id.location)) w := by
    intro action
    unfold Act.ifResolvable
    rw [if_neg (by simp [hk])]
    rfl
  cases kind <;> exact h _

theorem ifSolution_changesAt {id : Identity} {action : Act Memory Unit}
    (h : ChangesAt w action fun _ => False) :
    ChangesAt w (Act.ifSolution id action) fun _ => False := by
  unfold Act.ifSolution
  split
  · exact h.thenReturn _
  · exact .nothing rfl

/-- Solutions concern the index alone, and in it not the scripts and projects. -/
theorem modifyIndex_changesAt (f : Index → Index) (hf : (f w.index).projects = w.index.projects) :
    ChangesAt w (Act.modifyIndex (σ := Memory) f) fun _ => False := by
  refine fun _ => ⟨(), [], { w with index := f w.index }, rfl,
    .of_index _ fun h => ?_, rfl, fun _ h => h.elim⟩
  rw [hf]
  exact h

theorem solutionUpdated_changesAt (env : Surroundings Memory) (id : Identity) :
    ChangesAt w (Act.solutionUpdated env id) fun _ => False := by
  refine ifSolution_changesAt (.preceded (a := w.outside) rfl ?_)
  cases env.read w.outside id.location with
  | ok text => exact modifyIndex_changesAt _ rfl
  | error fault => exact modifyIndex_changesAt _ rfl

theorem solutionDeleted_changesAt (id : Identity) :
    ChangesAt w (Act.solutionDeleted (σ := Memory) id) fun _ => False :=
  ifSolution_changesAt (modifyIndex_changesAt _ rfl)

theorem forM_changed_changesAt (ids : List Identity) :
    ChangesAt w (ids.forM fun id => Act.changed (σ := Memory) id.location) fun l =>
      ∃ id ∈ ids, id.location = l := by
  intro hw
  induction ids generalizing w with
  | nil => exact ⟨(), [], w, rfl, .refl w, rfl, by simp⟩
  | cons id ids ih =>
      -- each cascade leaves a map in which the next one can start
      obtain ⟨xs, w₁, h₁, hc₁, hid, ho₁⟩ := changed_changes id.location hw
      obtain ⟨a, ys, w₂, h₂, hc₂, ho₂, hids⟩ := ih (hc₁.lone hw)
      refine ⟨a, xs ++ ys, w₂, Act.bind_ok h₁ h₂, hc₁.trans hw hc₂, ho₂.trans ho₁, ?_⟩
      rintro l ⟨id', hid', rfl⟩
      rcases List.mem_cons.mp hid' with rfl | hid'
      · exact List.mem_append_left ys hid
      · exact List.mem_append_right xs (hids _ ⟨id', hid', rfl⟩)

/-- A restore invalidates every project that it counts. -/
theorem restored_changes (env : Surroundings Memory) {lockFile : Path} {dir : Location}
    {owners : List Identity} (hw : w.cache.Lone)
    (hd : Act.restoredDir? (env.locate w.outside lockFile) = some dir)
    (ho : Act.projectsIn dir w = .ok owners w) :
    ∃ xs w', Act.restored env lockFile w = .ok owners.length w' ∧
      Changes xs w w' ∧ w'.outside = w.outside ∧
      ∀ id ∈ owners, id.location ∈ xs := by
  obtain ⟨a, xs, w', h, hx, hout, hids⟩ := forM_changed_changesAt (w := w) owners hw
  refine ⟨xs, w', ?_, hx, hout, fun id hid => hids _ ⟨id, hid, rfl⟩⟩
  unfold Act.restored
  refine Act.bind_ok (a := env.locate w.outside lockFile) rfl ?_
  rw [hd]
  exact Act.bind_ok ho (Act.bind_ok h rfl)

theorem restored_changesAt (env : Surroundings Memory) (lockFile : Path) :
    ChangesAt w (Act.restored env lockFile) fun _ => False := by
  refine .preceded (a := env.locate w.outside lockFile) rfl ?_
  cases Act.restoredDir? (env.locate w.outside lockFile) with
  | none => exact .nothing rfl
  | some dir =>
      refine .preceded (x := Act.projectsIn dir) rfl ?_
      exact ((forM_changed_changesAt _).mono fun _ h => h.elim).thenReturn _

theorem withIdentity_changesAt {p : Path} {action : Identity → Act Memory Unit}
    {about : Location → Prop}
    (h : ∀ id, Identity.of Memory.locate p = .ok id → ChangesAt w (action id) about)
    (hn : ∀ e, Identity.of Memory.locate p = .error e → ∀ l, ¬ about l) :
    ChangesAt w (Act.withIdentity p action) about := by
  unfold Act.withIdentity
  cases hid : Identity.of Memory.locate p with
  | ok id => exact h id hid
  | error e => exact (ChangesAt.nothing rfl).mono fun l hl => hn e hid l hl

theorem Identity.of_eq_ok {p : Path} {kind : Kind} (h : Kind.ofPath? p = some kind) :
    Identity.of Memory.locate p = .ok ⟨Memory.locate p, kind⟩ := by
  simp [Identity.of, h]

theorem told_changesAt (kind : EventKind) (p : Path) :
    ChangesAt w (Act.withIdentity p fun id => discard (Act.tell kind id))
      fun l => (Change.told kind p).IsAbout l := by
  refine withIdentity_changesAt (fun id hid => .discard ?_) fun e he l hl => ?_
  · obtain ⟨hk, hl⟩ := Identity.kind_of_eq_ok hid
    by_cases hr : id.kind.isResolvable = true
    · refine (tell_changesAt kind (Identity.of_wellFormed hid) hr).mono fun l hl' => ?_
      obtain ⟨_, _, _, h⟩ := hl'
      exact hl.symm.trans h
    · refine (ChangesAt.nothing (tell_solution kind (by simpa using hr))).mono fun l hl' => hr ?_
      obtain ⟨k, hk', hr', -⟩ := hl'
      cases hk.symm.trans hk'
      exact hr'
  · obtain ⟨k, hk, -⟩ := hl
    rw [Identity.of_eq_ok hk] at he
    cases he

theorem lockFile_changesAt (env : Surroundings Memory) {p : Path}
    (hlock : p.fileName? = some FileEvent.lockFileName) (event : EventKind) :
    ChangesAt w (Act.apply env ⟨event, p⟩) fun _ => False := by
  by_cases hk : event = .deleted
  · subst hk
    exact .nothing (apply_lockFile_deleted hlock w)
  · exact ((restored_changesAt env p).discard.thenReturn _).congr (apply_lockFile hlock hk w)

theorem solution_changesAt (env : Surroundings Memory) {p : Path}
    (hkind : Kind.ofPath? p = some .solution) (event : EventKind) :
    ChangesAt w (Act.apply env ⟨event, p⟩) fun _ => False := by
  have h : Act.apply env ⟨event, p⟩ w = _ := apply_solution hkind event w
  cases event with
  | deleted => exact (solutionDeleted_changesAt _).congr h
  | created | changed => exact (solutionUpdated_changesAt env _).congr h

theorem apply_changesAt {env : Surroundings Memory} (henv : Rooted env) (event : FileEvent) :
    ChangesAt w (Act.apply env event) fun l => (Change.event event).IsAbout l := by
  obtain ⟨event, p⟩ := event
  by_cases hlock : p.fileName? = some FileEvent.lockFileName
  · -- a lock file is about the projects next to it, and so about no project by its own name
    exact (lockFile_changesAt env hlock event).mono fun l hl => hl.1 hlock
  cases hkind : Kind.ofPath? p with
  | none =>
      refine (ChangesAt.nothing (apply_unknown hlock hkind event w)).mono fun l hl => ?_
      obtain ⟨-, k, hk, -⟩ := hl
      cases hkind.symm.trans hk
  | some kind =>
      by_cases hr : kind.isResolvable = true
      · have hid := Identity.of_wellFormed (Identity.of_eq_ok hkind)
        refine ((tell_changesAt event hid hr).congr (apply_eq_tell henv hkind hr event w)).mono
          fun l hl => ?_
        obtain ⟨-, _, _, _, h⟩ := hl
        exact h
      · -- nor is a solution a project
        obtain rfl : kind = .solution := not_not.mp (mt Kind.isResolvable_iff.mpr hr)
        refine (solution_changesAt env hkind event).mono fun l hl => ?_
        obtain ⟨-, k, hk, hr', -⟩ := hl
        cases hkind.symm.trans hk
        cases hr'

/-- Whatever a workspace is told, it drops some results, and among them that of the
file it is told of. -/
theorem Change.run_changesAt {env : Surroundings Memory} (henv : Rooted env) (c : Change) :
    ChangesAt w (c.run env) fun l => c.IsAbout l := by
  cases c with
  | told kind p => exact told_changesAt kind p
  | event e => exact .discard (apply_changesAt henv e)
  | solutionUpdated p =>
      exact withIdentity_changesAt
        (fun id _ => .discard (solutionUpdated_changesAt env id)) fun _ _ _ h => h
  | solutionDeleted p =>
      exact withIdentity_changesAt
        (fun id _ => .discard (solutionDeleted_changesAt id)) fun _ _ _ h => h
  | restored lockFile => exact .discard (restored_changesAt env lockFile)

theorem Change.run_changes {env : Surroundings Memory} (henv : Rooted env) (c : Change)
    {w' : Workspace Memory} (hw : w.cache.Lone) (h : c.run env w = .ok () w') :
    ∃ xs, Changes xs w w' ∧ w'.outside = w.outside ∧ ∀ l, c.IsAbout l → l ∈ xs := by
  obtain ⟨a, xs, w₁, hx, hrest⟩ := c.run_changesAt henv hw
  cases h.symm.trans hx
  exact ⟨xs, hrest⟩

end

/-! ## Runs that can be evaluated -/

/-- The table in which the first project of each row references the others. -/
def Memory.listing (rows : List (String × List String)) : Memory :=
  { Memory.empty with
    reports :=
      rows.map fun row => (Memory.locate ⟨row.1⟩, { projectReferences := row.2.map (⟨·⟩) }) }

/-- Whether an action returns a value. -/
def Act.returns {α : Type} (x : Act Memory α) (w : Workspace Memory) : Bool :=
  match x w with
  | .ok _ _ => true
  | .error _ _ => false

def Act.after {α : Type} (x : Act Memory α) (w : Workspace Memory) : Workspace Memory :=
  match x w with
  | .ok _ w' => w'
  | .error _ w' => w'

def Act.value? {α : Type} (x : Act Memory α) (w : Workspace Memory) : Option α :=
  match x w with
  | .ok a _ => some a
  | .error _ _ => none

theorem Act.after_eq {α : Type} {x : Act Memory α} {w w' : Workspace Memory} {a : α}
    (h : x w = .ok a w') :
    Act.after x w = w' := by
  unfold Act.after
  rw [h]

theorem Act.after_error {α : Type} {x : Act Memory α} {w w' : Workspace Memory} {e : Interrupt}
    (h : x w = .error e w') : Act.after x w = w' := by
  unfold Act.after
  rw [h]

theorem Act.after_bind_ok {α β : Type} {x : Act Memory α} {f : α → Act Memory β}
    {w w' : Workspace Memory} {a : α} (h : x w = .ok a w') :
    Act.after (x >>= f) w = Act.after (f a) w' := by
  unfold Act.after
  rw [Act.bind_apply h]

theorem Act.after_bind_error {α β : Type} {x : Act Memory α} {f : α → Act Memory β}
    {w w' : Workspace Memory} {e : Interrupt} (h : x w = .error e w') :
    Act.after (x >>= f) w = w' :=
  Act.after_error (Act.bind_eq_error.mpr (Or.inl h))

theorem Act.eq_ok_of_returns {x : Act Memory Unit} {w : Workspace Memory}
    (h : Act.returns x w = true) :
    x w = .ok () (Act.after x w) := by
  unfold Act.returns at h
  unfold Act.after
  cases hx : x w with
  | ok a w' => rfl
  | error e w' =>
      rw [hx] at h
      cases h

theorem Act.eq_ok_of_value? {α : Type} {x : Act Memory α} {w : Workspace Memory} {a : α}
    (h : x.value? w = some a) :
    x w = .ok a (x.after w) := by
  unfold Act.value? at h
  unfold Act.after
  cases hx : x w with
  | ok b w' =>
      rw [hx] at h
      cases h
      rfl
  | error e w' =>
      rw [hx] at h
      cases h

theorem Reached.ask {env : Surroundings Memory}
    {allowed : Workspace Memory → Workspace Memory → Prop} {w : Workspace Memory}
    (h : Reached env allowed w []) (q : Query) (hq : (q.run env).returns w = true)
    (ha : allowed w ((q.run env).after w)) : Reached env allowed ((q.run env).after w) [] :=
  .query q h (Act.eq_ok_of_returns hq) ha

theorem Reached.tell {env : Surroundings Memory}
    {allowed : Workspace Memory → Workspace Memory → Prop} {w : Workspace Memory} {l : Location}
    (h : Reached env allowed w [l]) (c : Change) (hc : (c.run env).returns w = true)
    (hl : c.IsAbout l) : Reached env allowed ((c.run env).after w) [] :=
  .change c h (Act.eq_ok_of_returns hc) fun _ hx => Or.inr (List.mem_singleton.mp hx ▸ hl)

end FSharpWorkspace
