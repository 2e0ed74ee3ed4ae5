import FSharpWorkspace.Proofs.Workspace.Edits
/-!
# What an action keeps to

A `Conduct` says what an action may do to a workspace, whether it returns or is interrupted. If a
conduct is kept to by doing one thing after the other (`Conduct.Composes`), then what the steps of
an action keep to, the action keeps to.
-/

set_option autoImplicit false

namespace FSharpWorkspace

/-- Where an action may start, where it may lead from there, and how it may be interrupted. -/
structure Conduct (σ : Type) where
  starts : Workspace σ → Prop
  goes : Workspace σ → Workspace σ → Prop
  stops : Workspace σ → Interrupt → Workspace σ → Prop

/-- From the workspace `w` the action does what the conduct `k` says. -/
structure Act.Keeps {σ α : Type} (k : Conduct σ) (w : Workspace σ) (x : Act σ α) : Prop where
  goes : k.starts w → ∀ a w', x w = .ok a w' → k.goes w w'
  stops : k.starts w → ∀ e w', x w = .error e w' → k.stops w e w'

/-- Where an action may lead, another one may start, and both together keep to the conduct. -/
structure Conduct.Composes {σ : Type} (k : Conduct σ) : Prop where
  refl : ∀ w, k.goes w w
  again : ∀ w w', k.starts w → k.goes w w' → k.starts w'
  trans : ∀ w w₁ w', k.starts w → k.goes w w₁ → k.goes w₁ w' → k.goes w w'
  late : ∀ w w₁ e w', k.starts w → k.goes w w₁ → k.stops w₁ e w' → k.stops w e w'

section

variable {σ α β : Type} {k : Conduct σ} {w : Workspace σ}

/-- What an action does matters only where it may start. -/
theorem Act.Keeps.of_starts {x : Act σ α} (h : k.starts w → x.Keeps k w) : x.Keeps k w where
  goes hw := (h hw).goes hw
  stops hw := (h hw).stops hw

/-- An action that only reads. -/
theorem Conduct.Composes.read (hk : k.Composes) {x : Act σ α} (f : Workspace σ → α)
    (h : ∀ w, x w = .ok (f w) w) : x.Keeps k w where
  goes _ a w' hx := by
    rw [h w] at hx
    cases hx
    exact hk.refl w
  stops _ e w' hx := by cases (h w).symm.trans hx

theorem Conduct.Composes.pure (hk : k.Composes) (a : α) : (Pure.pure a : Act σ α).Keeps k w :=
  hk.read (fun _ => a) fun _ => rfl

theorem Conduct.Composes.bind (hk : k.Composes) {x : Act σ α} {f : α → Act σ β} (hx : x.Keeps k w)
    (hf : ∀ a w', k.starts w' → x w = .ok a w' → (f a).Keeps k w') : (x >>= f).Keeps k w where
  goes hw b w'' h := by
    obtain ⟨a, w', ha, hb⟩ := Act.bind_eq_ok.mp h
    have hgoes := hx.goes hw a w' ha
    have hw' := hk.again w w' hw hgoes
    exact hk.trans w w' w'' hw hgoes ((hf a w' hw' ha).goes hw' b w'' hb)
  stops hw e w'' h := by
    rcases Act.bind_eq_error.mp h with h | ⟨a, w', ha, hb⟩
    · exact hx.stops hw e w'' h
    · have hgoes := hx.goes hw a w' ha
      have hw' := hk.again w w' hw hgoes
      exact hk.late w w' e w'' hw hgoes ((hf a w' hw' ha).stops hw' e w'' hb)

/-- After something was only read the workspace is the same. -/
theorem Conduct.Composes.bind_read (hk : k.Composes) {x : Act σ α} {f : α → Act σ β}
    (g : Workspace σ → α) (h : ∀ w, x w = .ok (g w) w) (hf : k.starts w → (f (g w)).Keeps k w) :
    (x >>= f).Keeps k w := by
  refine hk.bind (hk.read g h) fun a w' hw' ha => ?_
  rw [h w] at ha
  cases ha
  exact hf hw'

theorem Conduct.Composes.map (hk : k.Composes) (g : α → β) {x : Act σ α} (hx : x.Keeps k w) :
    (g <$> x : Act σ β).Keeps k w := by
  have hg : (g <$> x : Act σ β) = x >>= fun a => Pure.pure (g a) := by
    funext w
    show EStateM.map g x w = EStateM.bind x (fun a => EStateM.pure (g a)) w
    unfold EStateM.map EStateM.bind
    cases x w <;> rfl
  rw [hg]
  exact hk.bind hx fun _ _ _ _ => hk.pure _

theorem Conduct.Composes.discard (hk : k.Composes) {x : Act σ α} (hx : x.Keeps k w) :
    (Functor.discard x : Act σ Unit).Keeps k w :=
  hk.map _ hx

theorem Conduct.Composes.mapM (hk : k.Composes) {f : α → Act σ β} (h : ∀ a w, (f a).Keeps k w)
    (as : List α) :
    (as.mapM f).Keeps k w := by
  induction as generalizing w with
  | nil => exact hk.pure _
  | cons a as ih =>
      rw [List.mapM_cons]
      exact hk.bind (h a w) fun _ _ _ _ => hk.bind ih fun _ _ _ _ => hk.pure _

theorem Conduct.Composes.forM (hk : k.Composes) {f : α → Act σ Unit} (h : ∀ a w, (f a).Keeps k w)
    (as : List α) :
    (as.forM f).Keeps k w := by
  induction as generalizing w with
  | nil => exact hk.pure _
  | cons a as ih => exact hk.bind (h a w) fun _ _ _ _ => ih

theorem Conduct.Composes.foldlM (hk : k.Composes) {f : β → α → Act σ β}
    (h : ∀ b a w, (f b a).Keeps k w) (b : β) (as : List α) : (as.foldlM f b).Keeps k w := by
  induction as generalizing b w with
  | nil => exact hk.pure _
  | cons a as ih =>
      rw [List.foldlM_cons]
      exact hk.bind (h b a w) fun _ _ _ _ => ih _

/-! ## References -/

theorem Conduct.Composes.placeFrom (hk : k.Composes) (env : Surroundings σ) (dir : Location)
    (relative : Path) (w : Workspace σ) : (env.placeFrom dir relative).Keeps k w :=
  hk.read (fun w => env.locate w.outside (dir.path.join relative)) fun _ => rfl

/-- The project that a reference names is one that a spelling names. -/
theorem referencedProject?_reads (env : Surroundings σ) (id : Identity) (reference : Path)
    (w : Workspace σ) :
    ∃ found, Act.referencedProject? env id reference w = .ok found w ∧
      ∀ dep, found = some dep → ∃ p, Identity.of (env.locate w.outside) p = .ok dep := by
  unfold Act.referencedProject?
  -- both places are read in the present state
  cases hof : Identity.of (env.locate w.outside)
    (env.locate w.outside (id.dir.path.join reference)).path with
  | error e => exact ⟨none, Act.bind_ok rfl (Act.bind_ok rfl (by rw [hof]; rfl)), nofun⟩
  | ok dep =>
      refine ⟨_, Act.bind_ok rfl (Act.bind_ok rfl (by rw [hof]; rfl)),
        fun dep' h => ⟨_, hof.trans ?_⟩⟩
      split at h
      · cases h
        rfl
      · cases h

theorem Conduct.Composes.link (hk : k.Composes) {env : Surroundings σ} {id : Identity}
    {good : Identity → Prop} {dependency : Identity → Act σ (Except (List Identity) Resolution)}
    (hnamed : ∀ m p dep, Identity.of (env.locate m) p = .ok dep → good dep)
    (hdep : ∀ dep w, good dep → (dependency dep).Keeps k w) (linked : Act.Linked) (reference : Path)
    (w : Workspace σ) : (Act.link env id dependency linked reference).Keeps k w := by
  unfold Act.link
  obtain ⟨found, hfound, hspelled⟩ := referencedProject?_reads env id reference w
  refine hk.bind ⟨fun _ a w' h => ?_, fun _ e w' h => ?_⟩ fun a w' _ h => ?_
  · cases hfound.symm.trans h
    exact hk.refl w
  · cases hfound.symm.trans h
  · cases hfound.symm.trans h
    split
    · exact hk.pure _
    · next dep =>
        obtain ⟨p, hp⟩ := hspelled dep rfl
        exact hk.bind (hdep dep w (hnamed _ p dep hp)) fun _ _ _ _ => hk.pure _

end

end FSharpWorkspace
