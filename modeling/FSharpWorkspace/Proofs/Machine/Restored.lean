import FSharpWorkspace.Proofs.Machine.Deleted
import FSharpWorkspace.Proofs.Machine.Kinds
import FSharpWorkspace.Proofs.Workspace.Restored
/-!
# Restores on a machine

Whatever was done with a workspace on a machine, it holds each file once
(`Machine.Reachable.orderly`). So a restore is the union of the cascades of the projects in its
directory, unless one of them is known as something else (`Machine.restored_union`). On a disk with
links this can be: a script that is a link to a project is known under the place of the project. If
the project was asked for under its own name, the restore passes over it, and its result stays in
the cache (`Machine.restored_overlooks`).
-/

set_option autoImplicit false

namespace FSharpWorkspace.Machine

variable {w w' : Workspace Machine}

/-! ## Known files -/

/-- The order of the index is kept, also by what is interrupted. -/
def ranking : Conduct Machine where
  starts _ := True
  goes w w' := w.index.InOrder → w'.index.InOrder
  stops w _ w' := w.index.InOrder → w'.index.InOrder

theorem ranking_composes : ranking.Composes where
  refl _ h := h
  again _ _ _ _ := trivial
  trans _ _ _ _ h h' hw := h' (h hw)
  late _ _ _ _ _ h h' hw := h' (h hw)

/-- An action that never fails and keeps the order. -/
theorem keeps_ranking {α : Type} {x : Act Machine α} {a : α} (h : x w = .ok a w')
    (horder : w.index.InOrder → w'.index.InOrder) : x.Keeps ranking w where
  goes _ b w'' hx := by
    cases h.symm.trans hx
    exact horder
  stops _ e w'' hx := by cases h.symm.trans hx

theorem ranking_hears : ranking.Hears where
  toComposes := ranking_composes
  insert _ _ hr := keeps_ranking rfl fun h => h.insertProject hr
  remove l _ := keeps_ranking rfl fun h => h.removeProject l
  solutions _ w hf :=
    keeps_ranking rfl fun h => ⟨hf w.index ▸ h.resolvable, hf w.index ▸ h.ascending⟩
  changed _ _ := keeps_ranking rfl id

theorem addRoot_ranking (dir : Path) : (Machine.addRoot dir).Keeps ranking w := by
  unfold Machine.addRoot
  refine ranking_composes.bind_read (·.outside) (fun _ => rfl) fun _ => ?_
  split
  · exact ranking_composes.pure _
  · refine ranking_composes.bind (ranking_composes.forM (fun id w => ?_) _)
      fun _ _ _ _ => ranking_composes.pure _
    unfold Machine.register
    split
    · exact ranking_composes.discard (ranking_hears.solutionUpdated _ id)
    · next hkind =>
        refine ranking_hears.insert id w ?_
        cases hk : id.kind with
        | script => rfl
        | project => rfl
        | solution => exact absurd hk hkind

theorem Operation.inOrder (op : Operation) (hw : w.cache.Filed) (h : op.run.EndsIn w w')
    (ho : w.index.InOrder) :
    w'.index.InOrder := by
  have hranking : ∀ {x : Act Machine Unit}, x.Keeps ranking w →
      x.EndsIn w w' → w'.index.InOrder := by
    rintro x hx (⟨a, h⟩ | ⟨e, h⟩)
    · exact hx.goes trivial a w' h ho
    · exact hx.stops trivial e w' h ho
  cases op with
  | ask q =>
      rw [(query_inquired q hw h).index]
      exact ho
  | tell c => exact hranking (c.keepsIn ranking_hears _) h
  | addRoot dir => exact hranking (ranking_composes.discard (addRoot_ranking dir)) h
  | become m => exact hranking (x := Act.modifyOutside fun _ => m) (keeps_ranking rfl id) h

/-- Whatever was done, the cache and the index hold each file once. -/
theorem Reachable.orderly (h : Reachable w) : w.Orderly := by
  have horder : w.index.InOrder := by
    induction h with
    | fresh m => exact .empty
    | step op hw hop ih => exact op.inOrder hw.filed hop ih
  exact ⟨h.filed.lone, horder.ascending⟩

/-! ## Restores -/

/-- **A restore is the union of cascades, if each file has one kind.** A restore of a file directly
in a directory `obj` counts the projects in the directory above, known or computed, and leaves
exactly the results that are in the cascade of none of them, in whatever order they are changed: it
does so exactly if no file there is computed as a project and known as something else. A restore of
any other file does nothing, and no restore changes the index. -/
theorem restored_union (hw : Reachable w) (lockFile : Path) :
    (∀ dir name, w.outside.locate lockFile = (dir.child "obj").child name →
      (w.RestoresUnion dir (Act.restored surroundings lockFile) ↔ w.OneKindIn dir)) ∧
    ((∀ (dir : Location) (name : String), w.outside.locate lockFile ≠
      (dir.child "obj").child name) →
      Act.restored surroundings lockFile w = .ok 0 w) ∧
    ∃ n w', Act.restored surroundings lockFile w = .ok n w' ∧ w'.index = w.index := by
  have helsewhere : Act.restoredDir? (surroundings.locate w.outside lockFile) = none →
      Act.restored surroundings lockFile w = .ok 0 w := restored_elsewhere
  refine ⟨fun dir name hplace => ?_, fun hnone => helsewhere ?_, ?_⟩
  · exact hw.orderly.restored_union_iff (Act.restoredDir?_eq_some_iff.mpr ⟨name, hplace⟩)
  · refine Option.eq_none_iff_forall_ne_some.mpr fun dir hdir => ?_
    obtain ⟨name, hplace⟩ := Act.restoredDir?_eq_some_iff.mp hdir
    exact hnone dir name hplace
  · cases hdir : Act.restoredDir? (surroundings.locate w.outside lockFile) with
    | none => exact ⟨0, w, helsewhere hdir, rfl⟩
    | some dir =>
        obtain ⟨owners, howners, -⟩ := w.projectsIn_finds dir
        exact ⟨_, _, restored_eq hdir howners, rfl⟩

/-! ## A script that is a link to a project -/

def renamedLock : Path := ⟨"obj/project.assets.json"⟩

theorem locate_renamedLock :
    renamed.locate renamedLock = (Location.root.child "obj").child "project.assets.json" := by
  -- there is no such directory, so the spelling is read by its dots alone
  refine (Disk.locate_of_resolve_error fun l hl => ?_).trans (by decide)
  obtain ⟨k, hleads⟩ := Disk.walk_eq_ok.mp (Disk.walk_of_resolve hl)
  have hpieces : Disk.pieces renamedLock.text = ["obj".toList, "project.assets.json".toList] := by
    decide
  rw [hpieces] at hleads
  have hnone : renamed.disk.item? ((Disk.startOf renamedLock.text renamed.directory).child
      (String.ofList "obj".toList)) = none := by decide
  rcases hleads.lookup (by decide) with ⟨target, htarget⟩ | hinside
  · cases hnone.symm.trans htarget
  · exact absurd hinside.isDirectory (by decide)

theorem identified_ok {p : Path} {id : Identity} {action : Identity → Act Machine Unit}
    (h : Identity.of w.outside.locate p = .ok id) (haction : action id w = .ok () w') :
    Act.identified surroundings p action w = .ok () w' := by
  have hid : surroundings.identify p w = .ok (.ok id) w := congrArg (EStateM.Result.ok · w) h
  exact Act.bind_ok hid haction

/-- A file on the machine `renamed` is created under a spelling of the project, and the
project is asked for. -/
theorem exists_asked {p : Path} {kind : Kind}
    (hp : renamed.disk.resolve renamed.directory p = .ok ⟨["b.fsproj"]⟩)
    (hkind : Kind.ofPath? p = some kind) (hr : kind.isResolvable = true) :
    ∃ w r, Reachable w ∧ w.outside = renamed ∧ w.index.projects = [⟨⟨["b.fsproj"]⟩, kind⟩] ∧
      w.cache.computed = [(⟨⟨["b.fsproj"]⟩, .project⟩, r)] := by
  have hof : ∀ {q : Path} {k : Kind},
    renamed.disk.resolve renamed.directory q = .ok ⟨["b.fsproj"]⟩ →
      Kind.ofPath? q = some k → Identity.of renamed.locate q = .ok ⟨⟨["b.fsproj"]⟩, k⟩ := by
    intro q k hq hk
    rw [Identity.of, hk, locate, Disk.locate_of_resolve hq]
  let known : Workspace Machine := ⟨.empty, ⟨[⟨⟨["b.fsproj"]⟩, kind⟩], []⟩, 0, renamed⟩
  have hcreated : (Operation.tell (.told .created p)).run.EndsIn (.fresh renamed) known := by
    refine Or.inl ⟨(), identified_ok (hof hp hkind) ?_⟩
    exact discard_ok (created_eq ⟨⟨["b.fsproj"]⟩, kind⟩ hr (.fresh renamed))
  obtain ⟨r, w, hoptions, hout, hindex, hcomputed⟩ : ∃ r w,
      Act.options surroundings ⟨⟨["b.fsproj"]⟩, .project⟩ known =
        .ok (.ok r) w ∧ w.outside = renamed ∧
        w.index = known.index ∧ w.cache.computed = [(⟨⟨["b.fsproj"]⟩, .project⟩, r)] :=
          ⟨_, _, rfl, rfl, rfl, rfl⟩
  have hasked : (Operation.ask (.options ⟨"b.fsproj"⟩)).run.EndsIn known w := by
    refine Or.inl ⟨(),
      identified_ok (hof (k := .project) (resolve_renamed _ (by simp)) (by decide)) ?_⟩
    exact discard_ok hoptions
  exact ⟨w, r, .step _ (.step _ (.fresh renamed) hcreated) hasked, hout, by rw [hindex], hcomputed⟩

theorem restored_union_renamed :
    ∃ w, Reachable w ∧ w.outside = renamed ∧ w.HasProject ⟨["b.fsproj"]⟩ ∧
    w.RestoresUnion .root (Act.restored surroundings renamedLock) := by
  obtain ⟨w, r, hw, hout, hknown, -⟩ := exists_asked (resolve_renamed ⟨"./old.fsproj"⟩ (by simp))
    (show Kind.ofPath? ⟨"./old.fsproj"⟩ = some .project by decide) rfl
  have hplace : w.outside.locate renamedLock =
      (Location.root.child "obj").child "project.assets.json" := by
    rw [hout, locate_renamedLock]
  refine ⟨w, hw, hout, ⟨_, rfl, rfl, Or.inl (hknown ▸ List.mem_singleton_self _)⟩, ?_⟩
  refine ((restored_union hw renamedLock).1 .root _ hplace).mpr fun id hid _ _ _ _ _ _ => ?_
  rw [hknown] at hid
  rw [List.mem_singleton.mp hid]

/-- The project was asked for, and its file is known as a script: the restore next to it counts
nothing, and the result of the project stays. -/
theorem restored_overlooks : ∃ w r, Reachable w ∧ w.outside = renamed ∧
    w.outside.locate renamedLock = (Location.root.child "obj").child "project.assets.json" ∧
    (⟨⟨["b.fsproj"]⟩, .project⟩, r) ∈ w.cache.computed ∧
      Act.restored surroundings renamedLock w = .ok 0 w ∧
    ¬ w.RestoresUnion .root (Act.restored surroundings renamedLock) := by
  obtain ⟨w, r, hw, hout, hknown, hcomputed⟩ := exists_asked (resolve_renamed ⟨"a.fsx"⟩ (by simp))
    (show Kind.ofPath? ⟨"a.fsx"⟩ = some .script by decide) rfl
  have hplace : w.outside.locate renamedLock =
      (Location.root.child "obj").child "project.assets.json" := by
    rw [hout, locate_renamedLock]
  have hmem : (⟨⟨["b.fsproj"]⟩, .project⟩, r) ∈ w.cache.computed :=
    hcomputed ▸ List.mem_singleton_self _
  have howners : Act.projectsIn .root w = .ok [] w := by
    have hids : w.cache.computed.map (·.1) = [⟨⟨["b.fsproj"]⟩, .project⟩] := by
      rw [hcomputed]
      rfl
    show EStateM.Result.ok
      ((Identity.sorted (w.index.projects ++ w.cache.computed.map (·.1))).filter _) w = _
    rw [hknown, hids]
    exact congrArg (EStateM.Result.ok · w) (by decide)
  have hrestored : Act.restored surroundings renamedLock w = .ok 0 w :=
    restored_eq (Act.restoredDir?_eq_some_iff.mpr ⟨_, hplace⟩) howners
  refine ⟨w, r, hw, hout, hplace, hmem, hrestored, ?_⟩
  rintro ⟨places, w', hcount, -, hall, -⟩
  -- nothing is counted, but there is a project to count
  have hnone : places = [] := by
    injection hrestored.symm.trans hcount with hlength
    exact List.length_eq_zero_iff.mp hlength.symm
  have hcounted : (⟨["b.fsproj"]⟩ : Location) ∈ places :=
    (hall _).mpr ⟨rfl, _, rfl, rfl, Or.inr ⟨r, hmem⟩⟩
  rw [hnone] at hcounted
  cases hcounted

end FSharpWorkspace.Machine
