import FSharpWorkspace.Proofs.Machine.Filed
import FSharpWorkspace.Proofs.Machine.Walks
/-!
# Deleted files

A deletion makes the file at a place unknown, and takes out its result and those that declare it
(`deleted_gone`). The place is read off the spelling when the file is gone already. A creation reads
it off while the file is there, so it follows the links on the way, and a deletion does not
(`gone_of_deleted`).
-/

set_option autoImplicit false

namespace FSharpWorkspace

/-- Nothing is left of the script or project at `l`: it is not known, it has no result, and no
result declares it. -/
structure Workspace.Gone {σ : Type} (w : Workspace σ) (l : Location) : Prop where
  unknown : w.index.knows l = false
  uncomputed : w.cache.peek l = none
  undeclared : ∀ x r, w.cache.peek x = some r → Identity.isAmong l r.declared = false

/-! ## The index -/

theorem Index.knows_insertProject (ix : Index) (id : Identity) :
    (ix.insertProject id).knows id.location = true := by
  have key : ∀ ids : List Identity, Identity.isAmong id.location (id.insert ids) = true := by
    intro ids
    induction ids with
    | nil => simp [Identity.insert, Identity.isAmong]
    | cons other rest ih =>
        rw [Identity.insert]
        split
        · simp [Identity.isAmong]
        · next heq => simp [Identity.isAmong, Location.eq_of_compare heq]
        · unfold Identity.isAmong at ih ⊢
          rw [List.any_cons, ih, Bool.or_true]
  exact key ix.projects

theorem Index.knows_removeProject (ix : Index) (l x : Location) :
    (ix.removeProject l).knows x = (ix.knows x && decide (x ≠ l)) := by
  unfold Index.knows Index.removeProject Identity.isAmong
  rw [List.any_filter]
  by_cases hx : x = l
  · subst hx
    simp
  · have hsame : ∀ id : Identity,
        (decide (id.location ≠ l) && decide (id.location = x)) = decide (id.location = x) := by
      intro id
      by_cases hid : id.location = x
      · simp [hid, hx]
      · simp [hid]
    rw [show (fun id : Identity => decide (id.location ≠ l) && decide (id.location = x)) = _ from
      funext hsame]
    simp [hx]

/-! ## The cache -/

section

variable {σ : Type} (id : Identity) (hr : id.kind.isResolvable = true) (w : Workspace σ)

include hr

theorem created_eq : Act.created id w = .ok (.ok ())
    { w with
      index := w.index.insertProject id,
      cache := w.cache.cascade Resolution.dependsOn id.location } :=
  ifResolvable_ok hr rfl

theorem deleted_eq : Act.deleted id w = .ok (.ok ())
    { w with
      index := w.index.removeProject id.location
      cache := w.cache.cascade Resolution.dependsOn id.location } :=
  ifResolvable_ok hr rfl

/-- A deletion leaves nothing of the file at its place. -/
theorem deleted_gone (hw : w.cache.Filed) :
    ∃ w', Act.deleted id w = .ok (.ok ()) w' ∧ w'.Gone id.location ∧
      w'.index = w.index.removeProject id.location := by
  obtain ⟨xs, hxs, -, hmem⟩ := Cache.cascade_eq_foldl Resolution.dependsOn hw.lone id.location
  have hnone : (w.cache.cascade Resolution.dependsOn id.location).peek id.location = none := by
    rw [hxs]
    refine Option.eq_none_iff_forall_ne_some.mpr fun r hp => ?_
    exact ((Cache.peek_foldl_invalidate hw.lone xs _ r).mp hp).2 ((hmem _).mpr .self)
  refine ⟨_, deleted_eq id hr w, ⟨?_, hnone, fun x r hp => ?_⟩, rfl⟩
  · rw [Index.knows_removeProject]
    simp
  · -- a result that declares the file depends on it, unless it is its own
    have hdep : r.dependsOn id.location = false :=
      Cache.Reaches.not_depends hw.lone hmem .self (hxs ▸ hp)
    have hplace : r.id.location = x := (hw.cascade id.location).place hp
    have hne : r.id.location ≠ id.location := by
      rw [hplace]
      rintro rfl
      cases hnone.symm.trans hp
    rw [Resolution.dependsOn, if_neg hne, Bool.or_eq_false_iff] at hdep
    exact hdep.1

end

/-! ## Created, asked about, unlinked, deleted -/

def Workspace.withDisk (w : Workspace Machine) (d : Disk) : Workspace Machine :=
  { w with outside := { w.outside with disk := d } }

/-- **A deletion reaches what a creation registered exactly where no link matters.** A script or
project is created under a spelling, questions follow, and then the file that the spelling names is
unlinked. The deletion under the same spelling leaves nothing of it exactly if the place that the
spelling had when the file was created is the one that it has by its dots alone. That is so if there
was no link on the way. -/
theorem gone_of_deleted {p : Path} {kind : Kind} {w w₁ w₂ : Workspace Machine} {d : Disk}
    (hw : Machine.Reachable w) (hkind : Kind.ofPath? p = some kind) (hr : kind.isResolvable = true)
    (hcreated : Act.apply Machine.surroundings ⟨.created, p⟩ w = .ok (.ok ()) w₁)
    (hasked : Machine.Asked w₁ w₂)
    (hunlinked : w₂.outside.disk.remove w₂.outside.directory p = some d) :
    w₁.index.knows (w.outside.locate p) = true ∧
    ∃ w₃, Act.apply Machine.surroundings ⟨.deleted, p⟩ (w₂.withDisk d) = .ok (.ok ()) w₃ ∧
      (w₃.Gone (w.outside.locate p) ↔ w.outside.directory.reach p = w.outside.locate p) ∧
      (w.outside.disk.LinkFree w.outside.directory p → w₃.Gone (w.outside.locate p)) := by
  obtain ⟨name, hname⟩ : ∃ name, p.fileName? = some name := by
    obtain ⟨ext, hext, -⟩ := Option.bind_eq_some_iff.mp hkind
    obtain ⟨name, hname, -⟩ := Option.bind_eq_some_iff.mp hext
    exact ⟨name, hname⟩
  rw [apply_resolvable hkind hr] at hcreated
  have hregistered := created_eq ⟨w.outside.locate p, kind⟩ hr w
  cases hregistered.symm.trans hcreated
  have hknown := Index.knows_insertProject w.index ⟨w.outside.locate p, kind⟩
  refine ⟨hknown, ?_⟩
  have hfiled := hw.filed.cascade (w.outside.locate p)
  have hinquired := hasked.inquired hfiled
  -- the spelling is read anew, and has no more than its dots
  have hplace : Machine.surroundings.locate (w₂.withDisk d).outside p =
      w.outside.directory.reach p := by
    show d.locate w₂.outside.directory p = _
    rw [Disk.locate_of_remove hname hunlinked, hinquired.directory]
  obtain ⟨w₃, hdeleted, hgone, hindex⟩ :=
    deleted_gone ⟨w.outside.directory.reach p, kind⟩ hr (w₂.withDisk d) (hinquired.filed hfiled)
  have hiff : w₃.Gone (w.outside.locate p) ↔ w.outside.directory.reach p = w.outside.locate p := by
    constructor
    · intro hg
      by_contra hne
      -- otherwise the file is still known
      have hstays := hg.unknown
      rw [hindex, Index.knows_removeProject] at hstays
      have hstill : w₂.index.knows (w.outside.locate p) = true := hinquired.index ▸ hknown
      rw [show (w₂.withDisk d).index = w₂.index from rfl, hstill] at hstays
      simp [Ne.symm hne] at hstays
    · intro heq
      exact heq ▸ hgone
  refine ⟨w₃, ?_, hiff, fun hfree => hiff.mpr (Disk.locate_of_linkFree hfree).symm⟩
  rw [apply_resolvable hkind hr, hplace]
  exact hdeleted

/-- A script in the working directory, next to a directory, and no cracker. -/
def Machine.plain : Machine :=
  ⟨⟨[(⟨["ws"]⟩, .directory), (⟨["ws", "sub"]⟩, .directory), (⟨["ws", "a.fsx"]⟩, .file [])]⟩,
    ⟨["ws"]⟩, none, {}⟩

def Machine.dotted : Path := ⟨"sub/../a.fsx"⟩

/-- The way of the spelling to its last piece. -/
theorem Machine.leads_dotted {links k : Nat} {rest : List (List Char)} {l : Location}
    (h : plain.disk.Leads links plain.directory rest k l) :
    plain.disk.Leads links plain.directory ("sub".toList :: "..".toList :: rest) k l :=
  .enterName "sub" .directory (by decide) (by decide) (by decide)
    (by decide) nofun (.up (by decide) h)

theorem Machine.remove_dotted : plain.disk.remove plain.directory dotted =
    some (plain.disk.without ⟨["ws", "a.fsx"]⟩) := by
  have hdir : plain.disk.resolve plain.directory ⟨"sub/../."⟩ = .ok plain.directory :=
    Disk.resolve_of_leads (by decide) (by decide) (by decide)
      (leads_dotted (.stay (by decide) (Or.inr rfl) (.nil _ _)))
  exact Disk.remove_of_name (show dotted.fileName? = some "a.fsx" by decide) (by decide)
    (by decide) hdir (by decide)
    (by decide) (by decide)

theorem Machine.linkFree_dotted : plain.disk.LinkFree plain.directory dotted :=
  ⟨⟨["ws", "a.fsx"]⟩, (leads_dotted (.enterName "a.fsx" (.file []) (by decide) (by decide)
    (by decide) (by decide) nofun (.nil _ _))).walk⟩

theorem gone_of_deleted_dotted : ∃ w₁ w₂ d w₃,
    Act.apply Machine.surroundings ⟨.created, Machine.dotted⟩ (.fresh Machine.plain) =
      .ok (.ok ()) w₁ ∧
    ((Query.options Machine.dotted).runIn Machine.surroundings).EndsIn w₁ w₂ ∧
    w₂.outside.disk.remove w₂.outside.directory Machine.dotted = some d ∧
    Act.apply Machine.surroundings ⟨.deleted, Machine.dotted⟩ (w₂.withDisk d) = .ok (.ok ()) w₃ ∧
    w₃.Gone ⟨["ws", "a.fsx"]⟩ := by
  have hkind : Kind.ofPath? Machine.dotted = some .script := by decide
  obtain ⟨w₁, hcreated, hfiled, hsame⟩ : ∃ w₁,
    Act.apply Machine.surroundings ⟨.created, Machine.dotted⟩
      (.fresh Machine.plain) = .ok (.ok ()) w₁ ∧ w₁.cache.Filed ∧ w₁.outside = Machine.plain :=
    ⟨_, (apply_resolvable hkind rfl .created _).trans (created_eq _ rfl _),
      (Machine.Reachable.fresh Machine.plain).filed.cascade _, rfl⟩
  obtain ⟨w₂, hask⟩ := ((Query.options Machine.dotted).runIn Machine.surroundings).exists_endsIn w₁
  have hasked : Machine.Asked w₁ w₂ := .single ⟨.options Machine.dotted, hask⟩
  -- there is no cracker, so the question changed nothing on the disk
  have houtside : w₂.outside = Machine.plain := by
    rw [(hasked.inquired hfiled).outside (by rw [hsame]; rfl), hsame]
  have hunlinked := Machine.remove_dotted
  rw [← houtside] at hunlinked
  obtain ⟨-, w₃, hdeleted, -, hgone⟩ :=
    gone_of_deleted (.fresh Machine.plain) hkind rfl hcreated hasked hunlinked
  have hplace : Machine.plain.locate Machine.dotted = ⟨["ws", "a.fsx"]⟩ :=
    (Disk.locate_of_linkFree Machine.linkFree_dotted).trans (by decide)
  exact ⟨w₁, w₂, _, w₃, hcreated, hask, hunlinked, hdeleted, hplace ▸ hgone Machine.linkFree_dotted⟩

/-- A project in a directory, and a link to the directory. -/
def Machine.linked : Machine :=
  ⟨⟨[(⟨["real"]⟩, .directory), (⟨["real", "P.fsproj"]⟩, .file []), (⟨["link"]⟩, .link "real")]⟩,
    .root, none, {}⟩

def Machine.through : Path := ⟨"/link/P.fsproj"⟩

/-- The way of the spelling to its last piece. -/
theorem Machine.leads_through {links k : Nat} {rest : List (List Char)} {l : Location}
    (h : linked.disk.Leads links ⟨["real"]⟩ rest k l) :
    linked.disk.Leads (links + 1) .root ([] :: "link".toList :: rest) k l :=
  .stay (by decide) (Or.inl rfl)
    (.followName "link" "real" (by decide) (by decide) (by decide) (by decide)
    (.enterName "real" .directory (by decide) (by decide) (by decide) (by decide) nofun h))

theorem Machine.remove_through : linked.disk.remove linked.directory through =
    some (linked.disk.without ⟨["real", "P.fsproj"]⟩) := by
  have hdir : linked.disk.resolve linked.directory ⟨"/link/."⟩ = .ok ⟨["real"]⟩ :=
    Disk.resolve_of_leads (by decide) (by decide) (by decide)
      (leads_through (.stay (by decide) (Or.inr rfl) (.nil _ _)))
  exact Disk.remove_of_name (show through.fileName? = some "P.fsproj" by decide)
    (by decide) (by decide) hdir
    (by decide) (by decide) (by decide)

theorem Machine.locate_through : linked.locate through = ⟨["real", "P.fsproj"]⟩ :=
  Disk.locate_of_resolve (Disk.resolve_of_leads (by decide) (by decide) (by decide)
    (leads_through (.enterName "P.fsproj" (.file []) (by decide) (by decide) (by decide)
      (by decide) nofun (.nil _ _))))

/-- The project that was created is still known after its file was unlinked and deleted under
the same spelling. -/
theorem known_after_deletion : ∃ w₁ d w₃,
    Act.apply Machine.surroundings ⟨.created, Machine.through⟩ (.fresh Machine.linked) =
      .ok (.ok ()) w₁ ∧
    Machine.linked.disk.item? (Machine.linked.locate Machine.through) = some (.file []) ∧
    w₁.index.knows (Machine.linked.locate Machine.through) = true ∧
    w₁.outside.disk.remove w₁.outside.directory Machine.through = some d ∧
    Act.apply Machine.surroundings ⟨.deleted, Machine.through⟩ (w₁.withDisk d) = .ok (.ok ()) w₃ ∧
    w₃.index.knows (Machine.linked.locate Machine.through) = true := by
  have hkind : Kind.ofPath? Machine.through = some .project := by decide
  have hafter :
    (Machine.linked.disk.without ⟨["real", "P.fsproj"]⟩).locate
    Machine.linked.directory Machine.through =
      ⟨["link", "P.fsproj"]⟩ :=
    (Disk.locate_of_remove (show Machine.through.fileName? = some "P.fsproj" by decide)
      Machine.remove_through).trans
      (by decide)
  have hknown :=
    Index.knows_insertProject Index.empty ⟨Machine.linked.locate Machine.through, .project⟩
  refine ⟨_, _, _, (apply_resolvable hkind rfl .created _).trans (created_eq _ rfl _), ?_, hknown,
    Machine.remove_through, (apply_resolvable hkind rfl .deleted _).trans (deleted_eq _ rfl _), ?_⟩
  · rw [Machine.locate_through]
    decide
  · refine (Index.knows_removeProject _ _ _).trans ?_
    rw [Bool.and_eq_true]
    refine ⟨hknown, decide_eq_true ?_⟩
    -- the deletion is about the place of the link
    show Machine.linked.locate Machine.through ≠
      (Machine.linked.disk.without ⟨["real", "P.fsproj"]⟩).locate
        Machine.linked.directory Machine.through
    rw [Machine.locate_through, hafter]
    decide

end FSharpWorkspace
