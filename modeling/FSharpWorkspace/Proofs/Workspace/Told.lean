import FSharpWorkspace.Proofs.Workspace.Runs
/-!
# What a workspace is told, and a conduct

A change does two things: files become known or unknown, and a cascade starts. So a conduct
that either of them keeps to is kept to by every change (`Change.keepsIn`), in any
surroundings (`Change.runIn`).
-/

set_option autoImplicit false

namespace FSharpWorkspace

def Change.runIn {σ : Type} (env : Surroundings σ) : Change → Act σ Unit
  | told .created p => Act.identified env p fun id => discard (Act.created id)
  | told .changed p => Act.identified env p fun id => discard (Act.updated id)
  | told .deleted p => Act.identified env p fun id => discard (Act.deleted id)
  | event e => discard (Act.apply env e)
  | solutionUpdated p => Act.identified env p fun id => discard (Act.solutionUpdated env id)
  | solutionDeleted p => Act.identified env p fun id => discard (Act.solutionDeleted id)
  | restored lockFile => discard (Act.restored env lockFile)

/-- In memory a path names the same identity in every state. -/
theorem Change.runIn_eq {env : Surroundings Memory} (henv : Rooted env) (c : Change) :
    c.runIn env = c.run env := by
  cases c with
  | told kind p => cases kind <;> exact Act.identified_eq henv p _
  | event e => rfl
  | solutionUpdated p => exact Act.identified_eq henv p _
  | solutionDeleted p => exact Act.identified_eq henv p _
  | restored lockFile => rfl

/-- A conduct that the parts of a change keep to. -/
structure Conduct.Hears {σ : Type} (k : Conduct σ) : Prop extends k.Composes where
  insert : ∀ (id : Identity) w, id.kind.isResolvable = true →
    (Act.modifyIndex (·.insertProject id)).Keeps k w
  remove : ∀ l w, (Act.modifyIndex (·.removeProject l)).Keeps k w
  /-- The known scripts and projects stay the same. -/
  solutions : ∀ (f : Index → Index) w, (∀ ix, (f ix).projects = ix.projects) →
    (Act.modifyIndex f).Keeps k w
  changed : ∀ l w, (Act.changed l).Keeps k w

section

variable {σ : Type} {k : Conduct σ} {w : Workspace σ}

theorem Conduct.Composes.ifResolvable (hk : k.Composes) {id : Identity} {action : Act σ Unit}
    (h : id.kind.isResolvable = true → action.Keeps k w) :
    (Act.ifResolvable id action).Keeps k w := by
  unfold Act.ifResolvable
  split
  · next hr => exact hk.bind (h hr) fun _ _ _ _ => hk.pure _
  · exact hk.pure _

theorem Conduct.Composes.ifSolution (hk : k.Composes) {id : Identity} {action : Act σ Unit}
    (h : action.Keeps k w) : (Act.ifSolution id action).Keeps k w := by
  unfold Act.ifSolution
  split
  · exact hk.bind h fun _ _ _ _ => hk.pure _
  · exact hk.pure _

theorem Conduct.Composes.identified (hk : k.Composes) (env : Surroundings σ) {p : Path}
    {action : Identity → Act σ Unit} (h : ∀ id w, (action id).Keeps k w) :
    (Act.identified env p action).Keeps k w := by
  unfold Act.identified
  refine hk.bind_read (fun w => Identity.of (env.locate w.outside) p) (fun _ => rfl) fun _ => ?_
  split
  · exact h _ w
  · exact hk.pure _

theorem Conduct.Hears.created (hk : k.Hears) (id : Identity) : (Act.created id).Keeps k w :=
  hk.ifResolvable fun hr => hk.bind (hk.insert id w hr) fun _ _ _ _ => hk.changed _ _

theorem Conduct.Hears.updated (hk : k.Hears) (id : Identity) : (Act.updated id).Keeps k w :=
  hk.ifResolvable fun hr => hk.bind (hk.insert id w hr) fun _ _ _ _ => hk.changed _ _

theorem Conduct.Hears.deleted (hk : k.Hears) (id : Identity) : (Act.deleted id).Keeps k w :=
  hk.ifResolvable fun _ => hk.bind (hk.remove id.location w) fun _ _ _ _ => hk.changed _ _

/-- A solution lists projects, and does not make them known. -/
theorem Conduct.Hears.solutionUpdated (hk : k.Hears) (env : Surroundings σ) (id : Identity) :
    (Act.solutionUpdated env id).Keeps k w := by
  refine hk.ifSolution (hk.bind_read (·.outside) (fun _ => rfl) fun _ => ?_)
  split
  · exact hk.solutions _ _ fun _ => rfl
  · exact hk.solutions _ _ fun _ => rfl

theorem Conduct.Hears.solutionDeleted (hk : k.Hears) (id : Identity) :
    (Act.solutionDeleted id).Keeps k w :=
  hk.ifSolution (hk.solutions _ _ fun _ => rfl)

theorem Conduct.Hears.restored (hk : k.Hears) (env : Surroundings σ) (lockFile : Path) :
    (Act.restored env lockFile).Keeps k w := by
  unfold Act.restored
  refine hk.bind_read (fun w => env.locate w.outside lockFile) (fun _ => rfl) fun _ => ?_
  split
  · exact hk.pure _
  · next dir _ =>
      refine hk.bind (hk.read _ fun _ => rfl) fun owners _ _ _ => ?_
      refine hk.bind ?_ fun _ _ _ _ => hk.pure _
      exact hk.forM (fun id _ => hk.changed id.location _) owners

theorem Conduct.Hears.apply (hk : k.Hears) (env : Surroundings σ) (event : FileEvent) :
    (Act.apply env event).Keeps k w := by
  unfold Act.apply
  split
  · -- a lock file that is gone restores nothing
    dsimp only
    split
    · exact hk.bind (hk.discard (hk.restored env event.path)) fun _ _ _ _ => hk.pure _
    · exact hk.pure _
  · split
    · exact hk.pure _
    · next kind _ =>
        refine hk.bind_read (fun w => env.locate w.outside event.path) (fun _ => rfl) fun _ => ?_
        split
        · exact hk.solutionDeleted _
        · exact hk.solutionUpdated env _
        · exact hk.created _
        · exact hk.updated _
        · exact hk.deleted _

/-- What the parts of a change keep to, the change keeps to. -/
theorem Change.keepsIn (hk : k.Hears) (env : Surroundings σ) (c : Change) :
    (c.runIn env).Keeps k w := by
  cases c with
  | told kind p =>
      cases kind with
      | created => exact hk.identified env fun id _ => hk.discard (hk.created id)
      | changed => exact hk.identified env fun id _ => hk.discard (hk.updated id)
      | deleted => exact hk.identified env fun id _ => hk.discard (hk.deleted id)
  | event e => exact hk.discard (hk.apply env e)
  | solutionUpdated p => exact hk.identified env fun id _ => hk.discard (hk.solutionUpdated env id)
  | solutionDeleted p => exact hk.identified env fun id _ => hk.discard (hk.solutionDeleted id)
  | restored lockFile => exact hk.discard (hk.restored env lockFile)

end

end FSharpWorkspace
