import FSharpWorkspace.Proofs.Sequential.Known
/-!
# Attempts

Who uses an operation in the wrong way, for a path that names no build file or one of the wrong
kind, is told so. An attempt (`Operation.attempt`) is an operation together with this misuse. What
is wrong with the files themselves is part of an answer, and no misuse. A question that is refused
changes nothing (`Query.attempt_harmless`), for the kind is looked at before anything is resolved.
-/

set_option autoImplicit false

namespace FSharpWorkspace

/-! ## Attempts -/

/-- Does something with the identity that a path names, or refuses the path. -/
def Act.attemptAt (p : Path) (action : Identity → Act Memory (Except Misuse Unit)) :
    Act Memory (Except Misuse Unit) :=
  match Identity.of Memory.locate p with
  | .ok id => action id
  | .error m => return .error m

def Act.verdict {α : Type} (x : Act Memory (Except Misuse α)) : Act Memory (Except Misuse Unit) :=
  Except.map (fun _ => ()) <$> x

def Act.accepted {α : Type} (x : Act Memory α) : Act Memory (Except Misuse Unit) :=
  (fun _ => .ok ()) <$> x

def Query.attempt : Query → Act Memory (Except Misuse Unit)
  | options p => Act.attemptAt p fun id => Act.verdict (Act.options Memory.surroundings id)
  | owner source => Act.accepted (Act.owner Memory.surroundings source)
  | visible target from_ => Act.accepted (Act.isVisible Memory.surroundings target from_)
  | openProjects => Act.accepted Act.openProjects
  | dependencies p =>
    Act.attemptAt p fun id => Act.verdict (Act.dependenciesOf Memory.surroundings id)
  | allProjects => Act.verdict (Act.allProjects Memory.surroundings)

def Change.attempt : Change → Act Memory (Except Misuse Unit)
  | told kind p => Act.attemptAt p (Act.tell kind)
  | event e => Act.apply Memory.surroundings e
  | solutionUpdated p => Act.attemptAt p (Act.solutionUpdated Memory.surroundings)
  | solutionDeleted p => Act.attemptAt p Act.solutionDeleted
  | restored lockFile => Act.accepted (Act.restored Memory.surroundings lockFile)

/-- Does it, and returns the misuse if it is refused. -/
def Operation.attempt : Operation → Act Memory (Except Misuse Unit)
  | ask q => q.attempt
  | tell c => c.attempt
  | op => Act.accepted op.run

section

variable {w w' : Workspace Memory}

theorem discard_map {α β : Type} (f : α → β) (x : Act Memory α) :
    (discard (f <$> x) : Act Memory Unit) = discard x := by
  funext w
  show EStateM.map _ (EStateM.map f x) w = EStateM.map _ x w
  unfold EStateM.map
  cases x w <;> rfl

theorem withIdentity_discard (p : Path) (action : Identity → Act Memory (Except Misuse Unit)) :
    Act.withIdentity p (fun id => discard (action id)) = discard (Act.attemptAt p action) := by
  unfold Act.withIdentity Act.attemptAt
  cases Identity.of Memory.locate p <;> rfl

/-- An operation is an attempt whose misuse nobody looks at. -/
theorem Operation.run_eq (op : Operation) : op.run = discard op.attempt := by
  cases op with
  | ask q =>
      cases q with
      | options p =>
          refine Eq.trans ?_ (withIdentity_discard p _)
          exact congrArg (Act.withIdentity p) (funext fun id => (discard_map _ _).symm)
      | dependencies p =>
          refine Eq.trans ?_ (withIdentity_discard p _)
          exact congrArg (Act.withIdentity p) (funext fun id => (discard_map _ _).symm)
      | owner source => exact (discard_map _ _).symm
      | visible target from_ => exact (discard_map _ _).symm
      | openProjects => exact (discard_map _ _).symm
      | allProjects => exact (discard_map _ _).symm
  | tell c =>
      cases c with
      | told kind p => exact withIdentity_discard p _
      | event e => rfl
      | solutionUpdated p => exact withIdentity_discard p _
      | solutionDeleted p => exact withIdentity_discard p _
      | restored lockFile => exact (discard_map _ _).symm
  | edit p report => rfl
  | write p content => rfl
  | remove p => rfl

theorem discard_eq_ok {α : Type} {x : Act Memory α}
    (h : (discard x : Act Memory Unit) w = .ok () w') :
    ∃ a, x w = .ok a w' := by
  change EStateM.map (fun _ => ()) x w = _ at h
  unfold EStateM.map at h
  cases hx : x w with
  | ok a w₁ =>
      rw [hx] at h
      cases h
      exact ⟨a, rfl⟩
  | error e w₁ =>
      rw [hx] at h
      cases h

/-! ## What is refused -/

theorem Act.map_eq_ok {α β : Type} {f : α → β} {x : Act Memory α} {b : β}
    (h : (f <$> x : Act Memory β) w = .ok b w') : ∃ a, x w = .ok a w' ∧ f a = b := by
  change EStateM.map f x w = _ at h
  unfold EStateM.map at h
  cases hx : x w with
  | ok a w₁ =>
      rw [hx] at h
      cases h
      exact ⟨a, rfl, rfl⟩
  | error e w₁ =>
      rw [hx] at h
      cases h

theorem Act.map_ok {α β : Type} {f : α → β} {x : Act Memory α} {a : α} (h : x w = .ok a w') :
    (f <$> x : Act Memory β) w = .ok (f a) w' := by
  change EStateM.map f x w = _
  unfold EStateM.map
  rw [h]

/-- The action changes nothing when it is refused. -/
def Act.Harmless {α : Type} (w : Workspace Memory) (x : Act Memory (Except Misuse α)) : Prop :=
  ∀ m w', x w = .ok (.error m) w' → w' = w

theorem Act.Harmless.accepted {α : Type} (x : Act Memory α) : (Act.accepted x).Harmless w := by
  intro m w' h
  obtain ⟨a, -, ha⟩ := Act.map_eq_ok h
  cases ha

theorem Act.Harmless.verdict {α : Type} {x : Act Memory (Except Misuse α)} (hx : x.Harmless w) :
    (Act.verdict x).Harmless w := by
  intro m w' h
  obtain ⟨a, ha, hm⟩ := Act.map_eq_ok h
  cases a with
  | ok r => cases hm
  | error e => exact hx e w' ha

theorem Act.Harmless.attemptAt {p : Path} {action : Identity → Act Memory (Except Misuse Unit)}
    (h : ∀ id, Identity.of Memory.locate p = .ok id → (action id).Harmless w) :
    (Act.attemptAt p action).Harmless w := by
  intro m w' hm
  unfold Act.attemptAt at hm
  cases hid : Identity.of Memory.locate p with
  | ok id =>
      rw [hid] at hm
      exact h id hid m w' hm
  | error e =>
      rw [hid] at hm
      exact (Act.pure_eq_ok.mp hm).2.symm

theorem options_harmless (id : Identity) : (Act.options Memory.surroundings id).Harmless w := by
  intro m w' h
  unfold Act.options at h
  split at h
  · obtain ⟨r, w₁, -, hr⟩ := Act.bind_eq_ok.mp h
    cases (Act.pure_eq_ok.mp hr).1
  · exact (Act.pure_eq_ok.mp h).2.symm

theorem dependenciesOf_harmless (id : Identity) :
    (Act.dependenciesOf Memory.surroundings id).Harmless w := by
  intro m w' h
  unfold Act.dependenciesOf at h
  obtain ⟨a, w₁, ha, hm⟩ := Act.bind_eq_ok.mp h
  cases a with
  | ok r => cases (Act.pure_eq_ok.mp hm).1
  | error e =>
      obtain ⟨-, rfl⟩ := Act.pure_eq_ok.mp hm
      exact options_harmless id e w₁ ha

/-- Scripts and projects are never refused. -/
theorem resolveEach_ne_error {ids : List Identity} (h : ∀ id ∈ ids, id.kind.isResolvable = true)
    {m : Misuse} :
    Act.resolveEach Memory.surroundings ids w ≠ .ok (.error m) w' := by
  induction ids generalizing w with
  | nil =>
      intro hm
      cases (Act.pure_eq_ok.mp hm).1
  | cons id rest ih =>
      intro hm
      unfold Act.resolveEach at hm
      obtain ⟨a, w₁, ha, hrest⟩ := Act.bind_eq_ok.mp hm
      cases a with
      | ok r => exact ih (fun x hx => h x (List.mem_cons_of_mem id hx)) hrest
      | error e =>
          unfold Act.options at ha
          rw [if_pos (h id (by simp))] at ha
          obtain ⟨r, w₂, -, hr⟩ := Act.bind_eq_ok.mp ha
          cases (Act.pure_eq_ok.mp hr).1

theorem allProjects_harmless (ho : w.index.InOrder) :
    (Act.allProjects Memory.surroundings).Harmless w := by
  intro m w' h
  unfold Act.allProjects at h
  obtain ⟨ix, w₁, hix, hrest⟩ := Act.bind_eq_ok.mp h
  cases hix
  obtain ⟨a, w₂, ha, hlast⟩ := Act.bind_eq_ok.mp hrest
  cases a with
  | ok u =>
      obtain ⟨rs, w₃, -, hrs⟩ := Act.bind_eq_ok.mp hlast
      cases (Act.pure_eq_ok.mp hrs).1
  | error e => exact absurd ha (resolveEach_ne_error ho.resolvable)

theorem Query.attempt_harmless (q : Query) (ho : w.index.InOrder) : q.attempt.Harmless w := by
  cases q with
  | options p => exact .attemptAt fun id _ => .verdict (options_harmless id)
  | owner source => exact .accepted _
  | visible target from_ => exact .accepted _
  | openProjects => exact .accepted _
  | dependencies p => exact .attemptAt fun id _ => .verdict (dependenciesOf_harmless id)
  | allProjects => exact .verdict (allProjects_harmless ho)

end

end FSharpWorkspace
