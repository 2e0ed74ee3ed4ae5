import FSharpWorkspace.Proofs.Sequential.Declared
import FSharpWorkspace.Proofs.Workspace.Told
/-!
# The known files in order

The index has the known scripts and projects in order of their places, each once (`Index.InOrder`),
so the first match of a search is the one with the least place. A query leaves the index as it is
(`Fetches.index`). A change inserts a file at its place or takes one out, and the order is kept
(`Change.run_ordering`).
-/

set_option autoImplicit false

namespace FSharpWorkspace

/-! ## The order of places -/

instance : Std.TransOrd Location := inferInstanceAs (Std.TransCmp (compareOn Location.names))

def Identity.Before (a b : Identity) : Prop := compare a.location b.location = .lt

theorem Identity.Before.trans {a b c : Identity} (h : a.Before b) (h' : b.Before c) : a.Before c :=
  Std.TransCmp.lt_trans h h'

theorem Identity.before_of_gt {a b : Identity}
    (h : compare a.location b.location = .gt) : b.Before a :=
  Std.OrientedCmp.gt_iff_lt.mp h

theorem Identity.Before.not_before {a b : Identity} (h : a.Before b) : ¬ b.Before a := by
  intro h'
  have hgt : compare b.location a.location = .gt := Std.OrientedCmp.gt_of_lt h
  cases h'.symm.trans hgt

theorem Identity.Before.ne {a b : Identity} (h : a.Before b) : a ≠ b := by
  rintro rfl
  exact h.not_before h

/-- A list in order is in order after an insertion. -/
theorem Identity.pairwise_insert (id : Identity) {ids : List Identity}
    (h : ids.Pairwise Identity.Before) :
    (id.insert ids).Pairwise Identity.Before := by
  induction ids with
  | nil => exact List.pairwise_singleton _ _
  | cons other rest ih =>
      obtain ⟨hother, hrest⟩ := List.pairwise_cons.mp h
      rw [Identity.insert]
      split
      · next hlt =>
          refine List.pairwise_cons.mpr ⟨fun x hx => ?_, h⟩
          rcases List.mem_cons.mp hx with rfl | hx
          · exact hlt
          · exact Identity.Before.trans hlt (hother x hx)
      · exact h
      · next hgt =>
          refine List.pairwise_cons.mpr ⟨fun x hx => ?_, ih hrest⟩
          rcases Identity.mem_insert hx with rfl | hx
          · exact Identity.before_of_gt hgt
          · exact hother x hx

/-! ## The index -/

/-- The known files are scripts and projects, in order of places. -/
structure Index.InOrder (ix : Index) : Prop where
  resolvable : ∀ id ∈ ix.projects, id.kind.isResolvable = true
  ascending : ix.projects.Pairwise Identity.Before

theorem Index.InOrder.empty : Index.empty.InOrder := ⟨by simp [Index.empty], .nil⟩

section

variable {ix : Index}

theorem Index.InOrder.insertProject (h : ix.InOrder) {id : Identity}
    (hk : id.kind.isResolvable = true) :
    (ix.insertProject id).InOrder where
  resolvable x hx := by
    rcases Identity.mem_insert hx with rfl | hx
    · exact hk
    · exact h.resolvable x hx
  ascending := id.pairwise_insert h.ascending

theorem Index.InOrder.removeProject (h : ix.InOrder) (l : Location) :
    (ix.removeProject l).InOrder where
  resolvable x hx := h.resolvable x (List.mem_of_mem_filter hx)
  ascending := h.ascending.filter _

end

/-! ## Changes -/

/-- The order of the index is kept. -/
def ordering : Conduct Memory where
  starts _ := True
  goes w w' := w.index.InOrder → w'.index.InOrder
  stops _ _ _ := True

theorem ordering_composes : ordering.Composes where
  refl _ h := h
  again _ _ _ _ := trivial
  trans _ _ _ _ h h' hw := h' (h hw)
  late _ _ _ _ _ _ _ := trivial

section

variable {w w' : Workspace Memory}

theorem modifyIndex_ordering {f : Index → Index} (hf : ∀ ix : Index, ix.InOrder → (f ix).InOrder) :
    (Act.modifyIndex (σ := Memory) f).Keeps ordering w where
  goes _ _ _ h := by
    cases h
    exact hf w.index
  stops _ _ _ _ := trivial

theorem ordering_hears : ordering.Hears where
  toComposes := ordering_composes
  insert _ _ hr := modifyIndex_ordering fun _ h => h.insertProject hr
  remove l _ := modifyIndex_ordering fun _ h => h.removeProject l
  solutions f _ hf := modifyIndex_ordering fun ix h => ⟨hf ix ▸ h.resolvable, hf ix ▸ h.ascending⟩
  changed _ _ := {
    goes := fun _ _ _ h => by
      cases h
      exact id
    stops := fun _ _ _ _ => trivial }

/-- Whatever a workspace is told, the known files are in order. -/
theorem Change.run_ordering {env : Surroundings Memory} (henv : Rooted env) (c : Change) :
    (c.run env).Keeps ordering w :=
  c.runIn_eq henv ▸ c.keepsIn ordering_hears env

/-! ## Queries -/

theorem Steps.index {t : Errand} {a : Answer}
    (h : Steps Memory.surroundings t w a w') : w'.index = w.index := by
  induction h with
  | ready _ => rfl
  | refused _ => rfl
  | leaf _ _ _ _ => rfl
  | project _ _ hcrack _ _ ih =>
      cases hcrack
      exact ih
  | nil => rfl
  | cons _ _ ih₁ ih₂ => exact ih₂.trans ih₁

/-- What is known is not changed by a question. -/
theorem Fetches.index (h : Fetches Memory.surroundings w w') : w'.index = w.index := by
  induction h with
  | refl => rfl
  | cons _ hs _ ih => exact ih.trans hs.index

/-! ## Operations -/

theorem Operation.inOrder {op : Operation} (hw : w.Quiet) (h : op.run w = .ok () w')
    (ho : w.index.InOrder) :
    w'.index.InOrder := by
  cases op with
  | ask q =>
      rw [(q.fetches surroundings_mild hw h).index]
      exact ho
  | tell c => exact (c.run_ordering surroundings_mild.rooted).goes trivial () w' h ho
  | edit p report =>
      cases h
      exact ho
  | write p content =>
      cases h
      exact ho
  | remove p =>
      cases h
      exact ho

/-- What holds at first, and after one more operation if it held before, holds after a run. A run
always comes to its end. -/
theorem Operation.runAll_tracks {P : List Operation → Workspace Memory → Prop} (m : Memory)
    (ops : List Operation) (hfresh : P [] (.fresh m))
    (hstep : ∀ (ops : List Operation) (op : Operation) (w w' : Workspace Memory),
      runAll ops (.fresh m) = .ok () w →
      w.Quiet → op.run w = .ok () w' → P ops w → P (ops ++ [op]) w') :
    ∃ w, runAll ops (.fresh m) = .ok () w ∧ w.Quiet ∧ P ops w := by
  induction ops using List.reverseRecOn with
  | nil => exact ⟨.fresh m, rfl, .fresh m, hfresh⟩
  | append_singleton ops op ih =>
      obtain ⟨w, hrun, hw, hP⟩ := ih
      obtain ⟨w', hop⟩ := op.returns hw
      exact ⟨w', runAll_concat hrun hop, op.quiet hw hop, hstep ops op w w' hrun hw hop hP⟩

/-- What holds at first and is kept by every operation holds after a run. -/
theorem Operation.runAll_keeps {P : Workspace Memory → Prop} (m : Memory) (ops : List Operation)
    (hfresh : P (.fresh m))
    (hkeeps : ∀ (op : Operation) (w w' : Workspace Memory), w.Quiet →
      op.run w = .ok () w' → P w → P w') :
    ∃ w, runAll ops (.fresh m) = .ok () w ∧ w.Quiet ∧ P w :=
  runAll_tracks (P := fun _ w => P w) m ops hfresh fun _ op w w' _ => hkeeps op w w'

end

end FSharpWorkspace
