import FSharpWorkspace.Proofs.Workspace.Conduct
import FSharpWorkspace.Proofs.Workspace.Steps
import FSharpWorkspace.Workspace.Query
/-!
# Queries

A query reads, and resolves some files. So whatever resolving one file keeps to, the query keeps to
(`Query.keepsIn`), in any surroundings (`Query.runIn`).

A query between resolutions (`Workspace.Idle`) resolves some files, one after the other (`Fetches`),
and does nothing else to the workspace (`Query.fetches`).
-/

set_option autoImplicit false

namespace FSharpWorkspace

/-! ## Queries and what they do -/

inductive Query where
  | options (p : Path)
  | owner (source : Path)
  | visible (target from_ : Path)
  | openProjects
  | dependencies (p : Path)
  | allProjects

/-- Does something with the identity that a path names, if it names one. -/
def Act.withIdentity (p : Path) (action : Identity → Act Memory Unit) : Act Memory Unit :=
  match Identity.of Memory.locate p with
  | .ok id => action id
  | .error _ => pure ()

/-- Asks the workspace. What matters here is what becomes of the workspace, not the answer. -/
def Query.run (env : Surroundings Memory) : Query → Act Memory Unit
  | options p => Act.withIdentity p fun id => discard (Act.options env id)
  | owner source => discard (Act.owner env source)
  | visible target from_ => discard (Act.isVisible env target from_)
  | openProjects => discard Act.openProjects
  | dependencies p => Act.withIdentity p fun id => discard (Act.dependenciesOf env id)
  | allProjects => discard (Act.allProjects env)

/-- No resolution is running. -/
def Workspace.Idle (w : Workspace Memory) : Prop :=
  ∀ (s : Serial) e owner marks, w.cache.entries[s]? = some e → e.state ≠ .inProgress owner marks

theorem Workspace.Idle.not_busy {w : Workspace Memory} (h : w.Idle)
    (l : Location) : ¬ w.cache.Busy l := by
  rintro ⟨s, e, owner, marks, he, hs⟩
  exact h s e owner marks he.1 hs

theorem Workspace.Idle.fresh (m : Memory) : (Workspace.fresh m).Idle := by
  intro s e owner marks he
  simp [Workspace.fresh, Cache.empty] at he

theorem Workspace.Idle.elapsed {E : List Location} {w w' : Workspace Memory} (hw : w.Idle)
    (h : Elapsed E w w') :
    w'.Idle := by
  intro s e owner marks he hs
  obtain ⟨f, ms, hf, hfs⟩ := h.cache.busy s e owner marks he hs
  exact hw s f owner ms hf hfs

/-- Some files are resolved, one after the other. -/
inductive Fetches (env : Surroundings Memory) : Workspace Memory → Workspace Memory → Prop where
  | refl (w : Workspace Memory) : Fetches env w w
  | cons {w w₁ w' : Workspace Memory} {id : Identity} {r : Resolution} :
      id.WellFormed → Steps env (.fetch id []) w (.fetched (.ok r)) w₁ →
        Fetches env w₁ w' → Fetches env w w'

theorem Fetches.trans {env : Surroundings Memory} {w w₁ w' : Workspace Memory}
    (h : Fetches env w w₁) (h' : Fetches env w₁ w') : Fetches env w w' := by
  induction h with
  | refl => exact h'
  | cons hid hs _ ih => exact .cons hid hs (ih h')

/-- What every resolution of a file keeps is kept by a query. -/
theorem Fetches.keeps {env : Surroundings Memory} {P : Workspace Memory → Prop}
    {w w' : Workspace Memory} (h : Fetches env w w')
    (hstep : ∀ id r w w', id.WellFormed →
      Steps env (.fetch id []) w (.fetched (.ok r)) w' → P w → P w') (hw : P w) : P w' := by
  induction h with
  | refl => exact hw
  | cons hid hs _ ih => exact ih (hstep _ _ _ _ hid hs hw)

/-- Between resolutions, and tidy. -/
structure Workspace.Quiet (w : Workspace Memory) : Prop where
  tidy : w.Tidy
  idle : w.Idle

theorem Workspace.Quiet.steps {env : Surroundings Memory} (henv : Mild env) {id : Identity}
    {r : Resolution} {w w' : Workspace Memory} (hid : id.WellFormed)
    (h : Steps env (.fetch id []) w (.fetched (.ok r)) w') (hw : w.Quiet) : w'.Quiet := by
  obtain ⟨E, hE, hw'⟩ := h.elapsed henv hid hw.tidy
  exact ⟨hw', hw.idle.elapsed hE⟩

theorem Workspace.Quiet.fetches {env : Surroundings Memory} (henv : Mild env)
    {w w' : Workspace Memory} (h : Fetches env w w') (hw : w.Quiet) : w'.Quiet :=
  h.keeps (fun _ _ _ _ hid hs hw => hw.steps henv hid hs) hw

/-! ## Each query -/

/-- Does something with the identity that a path names in the present state, if it names one. -/
def Act.identified {σ : Type} (env : Surroundings σ) (p : Path)
    (action : Identity → Act σ Unit) : Act σ Unit := do
  match ← env.identify p with
  | .ok id => action id
  | .error _ => pure ()

/-- Asks a workspace in any surroundings. -/
def Query.runIn {σ : Type} (env : Surroundings σ) : Query → Act σ Unit
  | options p => Act.identified env p fun id => discard (Act.options env id)
  | owner source => discard (Act.owner env source)
  | visible target from_ => discard (Act.isVisible env target from_)
  | openProjects => discard Act.openProjects
  | dependencies p => Act.identified env p fun id => discard (Act.dependenciesOf env id)
  | allProjects => discard (Act.allProjects env)

/-- A conduct that resolving a file keeps to, if its identity is one of those that `good` says. -/
structure Conduct.Lawful {σ : Type} (k : Conduct σ) (env : Surroundings σ)
    (good : Identity → Prop) : Prop
    extends k.Composes where
  named : ∀ m p id, Identity.of (env.locate m) p = .ok id → good id
  known : ∀ w, k.starts w → ∀ id ∈ w.index.projects, good id
  resolve : ∀ (id : Identity) w, good id → (Act.resolve env id).Keeps k w

section

variable {σ : Type} {k : Conduct σ} {env : Surroundings σ} {good : Identity → Prop}
  {w : Workspace σ}

theorem Conduct.Lawful.options (hk : k.Lawful env good) {id : Identity} (hid : good id) :
    (Act.options env id).Keeps k w := by
  unfold Act.options
  split
  · exact hk.bind (hk.resolve id w hid) fun _ _ _ _ => hk.pure _
  · exact hk.pure _

theorem Conduct.Lawful.mentionsName (hk : k.Lawful env good) (id : Identity) (name : String) :
    (Act.mentionsName env id name).Keeps k w := by
  unfold Act.mentionsName
  refine hk.bind_read (fun w => env.read w.outside id.location) (fun _ => rfl) fun _ => ?_
  split
  · exact hk.pure _
  · exact hk.pure _

theorem Conduct.Lawful.tryCandidates (hk : k.Lawful env good) (file : Location) (name : String)
    (ids : List Identity) (broken : Option Resolution) (hids : ∀ id ∈ ids, good id) :
    (Act.tryCandidates env file name ids broken).Keeps k w := by
  induction ids generalizing broken w with
  | nil => exact hk.pure _
  | cons id rest ih =>
      have hrest := fun id hid => hids id (List.mem_cons_of_mem _ hid)
      unfold Act.tryCandidates
      refine hk.bind (hk.mentionsName id name) fun mentioned w' _ _ => ?_
      split
      · refine hk.bind (hk.resolve id w' (hids id (by simp))) fun r w' _ _ => ?_
        split
        · exact hk.pure _
        · exact ih _ hrest
      · exact ih _ hrest

theorem Act.candidates_subset {c : Cache Resolution} {ix : Index} {id : Identity}
    (h : id ∈ Act.candidates c ix) : id ∈ ix.projects := by
  unfold Act.candidates at h
  rcases List.mem_append.mp h with h | h
  · exact List.mem_of_mem_filter (List.mem_of_mem_filter h)
  · exact List.mem_of_mem_filter (List.mem_of_mem_filter h)

theorem Conduct.Lawful.ownerOf (hk : k.Lawful env good) (file : Location) :
    (Act.ownerOf env file).Keeps k w := by
  unfold Act.ownerOf
  split
  · refine hk.bind_read (fun w => Identity.of (env.locate w.outside) file.path)
      (fun _ => rfl) fun _ => ?_
    split
    · next id hid => exact hk.bind (hk.resolve id w (hk.named _ _ id hid)) fun _ _ _ _ => hk.pure _
    · exact hk.pure _
  · -- the candidates are known projects, whose identities are good
    refine hk.bind_read (·.cache) (fun _ => rfl) fun _ => ?_
    refine hk.bind_read (·.index) (fun _ => rfl) fun hw => ?_
    split
    · exact hk.pure _
    · refine hk.bind (hk.tryCandidates _ _ _ _ fun id hid =>
        hk.known w hw id (Act.candidates_subset hid))
        fun a _ _ _ => ?_
      split
      · exact hk.pure _
      · exact hk.pure _
      · exact hk.pure _

theorem Conduct.Lawful.owner (hk : k.Lawful env good) (source : Path) :
    (Act.owner env source).Keeps k w :=
  hk.bind_read (fun w => env.locate w.outside source) (fun _ => rfl) fun _ => hk.ownerOf _

theorem Conduct.Lawful.isVisible (hk : k.Lawful env good) (target from_ : Path) :
    (Act.isVisible env target from_).Keeps k w := by
  unfold Act.isVisible
  refine hk.bind_read (fun w => env.locate w.outside target) (fun _ => rfl) fun _ => ?_
  refine hk.bind_read (fun w => env.locate w.outside from_) (fun _ => rfl) fun _ => ?_
  refine hk.bind (hk.owner _) fun a _ _ _ => ?_
  split
  · exact hk.pure _
  · exact hk.pure _

theorem Conduct.Lawful.openProjects (hk : k.Lawful env good) :
    (Act.openProjects (σ := σ)).Keeps k w :=
  hk.read _ fun _ => rfl

theorem Conduct.Lawful.dependenciesOf (hk : k.Lawful env good) {id : Identity} (hid : good id) :
    (Act.dependenciesOf env id).Keeps k w := by
  unfold Act.dependenciesOf
  refine hk.bind (hk.options hid) fun a _ _ _ => ?_
  split
  · exact hk.pure _
  · exact hk.pure _

theorem Conduct.Lawful.resolveEach (hk : k.Lawful env good) (ids : List Identity)
    (hids : ∀ id ∈ ids, good id) :
    (Act.resolveEach env ids).Keeps k w := by
  induction ids generalizing w with
  | nil => exact hk.pure _
  | cons id rest ih =>
      unfold Act.resolveEach
      refine hk.bind (hk.options (hids id (by simp))) fun a _ _ _ => ?_
      split
      · exact ih fun id hid => hids id (List.mem_cons_of_mem _ hid)
      · exact hk.pure _

theorem Conduct.Lawful.allProjects (hk : k.Lawful env good) : (Act.allProjects env).Keeps k w := by
  unfold Act.allProjects
  refine hk.bind_read (·.index) (fun _ => rfl) fun hw => ?_
  refine hk.bind (hk.resolveEach _ (hk.known w hw)) fun a _ _ _ => ?_
  split
  · exact hk.bind hk.openProjects fun _ _ _ _ => hk.pure _
  · exact hk.pure _

theorem Conduct.Lawful.identified (hk : k.Lawful env good) {p : Path}
    {action : Identity → Act σ Unit} (h : ∀ id : Identity, good id → (action id).Keeps k w) :
    (Act.identified env p action).Keeps k w := by
  unfold Act.identified
  refine hk.bind_read (fun w => Identity.of (env.locate w.outside) p) (fun _ => rfl) fun _ => ?_
  split
  · next id hid => exact h id (hk.named _ _ id hid)
  · exact hk.pure _

/-- What resolving a file keeps to is kept to by every query. -/
theorem Query.keepsIn (hk : k.Lawful env good) (q : Query) : (q.runIn env).Keeps k w := by
  cases q with
  | options p => exact hk.identified fun id hid => hk.discard (hk.options hid)
  | owner source => exact hk.discard (hk.owner source)
  | visible target from_ => exact hk.discard (hk.isVisible target from_)
  | openProjects => exact hk.discard hk.openProjects
  | dependencies p => exact hk.identified fun id hid => hk.discard (hk.dependenciesOf hid)
  | allProjects => exact hk.discard hk.allProjects

end

section

variable {env : Surroundings Memory}

theorem identify_eq (henv : Rooted env) (p : Path) (w : Workspace Memory) :
    env.identify p w = .ok (Identity.of Memory.locate p) w := by
  show EStateM.Result.ok (Identity.of (env.locate w.outside) p) w = _
  rw [henv.locate]

theorem Act.identified_eq (henv : Rooted env) (p : Path) (action : Identity → Act Memory Unit) :
    Act.identified env p action = Act.withIdentity p action := by
  funext w
  unfold Act.identified Act.withIdentity
  simp only [bind, EStateM.bind, identify_eq henv]

/-- In memory a path names the same identity in every state. -/
theorem Query.runIn_eq (henv : Rooted env) (q : Query) : q.runIn env = q.run env := by
  cases q with
  | options p => exact Act.identified_eq henv p _
  | dependencies p => exact Act.identified_eq henv p _
  | owner source => rfl
  | visible target from_ => rfl
  | openProjects => rfl
  | allProjects => rfl

theorem Rooted.named (henv : Rooted env) (m : Memory) (p : Path) (id : Identity)
    (h : Identity.of (env.locate m) p = .ok id) : id.WellFormed := by
  rw [henv.locate] at h
  exact Identity.of_wellFormed h

theorem Query.keeps {k : Conduct Memory} {w : Workspace Memory} (henv : Rooted env)
    (hk : k.Lawful env Identity.WellFormed) (q : Query) : (q.run env).Keeps k w :=
  q.runIn_eq henv ▸ q.keepsIn hk

end

/-! ## Queries between resolutions -/

/-- From a quiet workspace some files are resolved, and nothing else is done. What is interrupted is
one of the resolutions. -/
def fetching (env : Surroundings Memory) : Conduct Memory where
  starts := Workspace.Quiet
  goes := Fetches env
  stops w e w' := ∃ id w₁, id.WellFormed ∧ Fetches env w w₁ ∧ Act.resolve env id w₁ = .error e w'

section

variable {env : Surroundings Memory} {w w' : Workspace Memory}

/-- Resolving a file between resolutions fetches it: nothing is in progress that could refuse it. -/
theorem resolve_keeps_fetching (henv : Mild env) {id : Identity} (hid : id.WellFormed) :
    (Act.resolve env id).Keeps (fetching env) w where
  goes hw r w' h := by
    unfold Act.resolve at h
    obtain ⟨m, w₀, hm, hrest⟩ := Act.bind_eq_ok.mp h
    cases hm
    obtain ⟨a, w₁, ha, hlast⟩ := Act.bind_eq_ok.mp hrest
    have hs := Steps.of_resolveAt henv hid hw.tidy ha
    cases a with
    | ok r₁ =>
        obtain ⟨-, rfl⟩ := Act.pure_eq_ok.mp hlast
        exact .cons hid hs (.refl _)
    | error members =>
        -- the rules refuse only what is in progress
        cases hs with
        | refused hb => exact absurd hb (hw.idle.not_busy _)
  stops _ e w' h := ⟨id, w, hid, .refl w, h⟩

theorem fetching_lawful (henv : Mild env) : (fetching env).Lawful env Identity.WellFormed where
  named := henv.rooted.named
  known _ hw := hw.tidy.known
  refl := .refl
  again _ _ hw h := hw.fetches henv h
  trans _ _ _ _ h h' := h.trans h'
  late _ _ _ _ _ h hstop := by
    obtain ⟨id, w₁, hid, hrest, hr⟩ := hstop
    exact ⟨id, w₁, hid, h.trans hrest, hr⟩
  resolve _ _ hid := resolve_keeps_fetching henv hid

/-- A query resolves some files, and does nothing else. -/
theorem Query.fetches (henv : Mild env) (q : Query) (hw : w.Quiet) (h : q.run env w = .ok () w') :
    Fetches env w w' :=
  (q.keeps henv.rooted (fetching_lawful henv)).goes hw () w' h

/-- If a query is interrupted, so was one of the resolutions. -/
theorem Query.stops (henv : Mild env) (q : Query) (hw : w.Quiet) {e : Interrupt}
    (h : q.run env w = .error e w') :
    ∃ id w₁, id.WellFormed ∧ Fetches env w w₁ ∧ Act.resolve env id w₁ = .error e w' :=
  (q.keeps henv.rooted (fetching_lawful henv)).stops hw e w' h

end

end FSharpWorkspace
