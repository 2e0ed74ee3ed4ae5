import FSharpWorkspace.Proofs.Sequential.Coherent
import FSharpWorkspace.Proofs.Sequential.Reach
import FSharpWorkspace.Proofs.Sequential.Stable
/-!
# Visibility

A file sees what comes before it in the project that compiles it, and every source of the projects
that this one reaches. The query asks what results hold. Over a table without circles of references
no reference is refused, so what a result holds is what the table makes its project reach
(`Workspace.Faithful.holds_of_references`), and the sources of a resolved project are those that the
table gives it (`Workspace.Sound.sources_eq`). So the table decides what can be seen
(`visible_iff`), whatever was asked and edited before.
-/

set_option autoImplicit false

namespace FSharpWorkspace

open Relation (ReflTransGen TransGen)
open Resolution (Holds dependencyOrder)

/-! ## Positions -/

theorem Resolution.sourceIndex?_eq_some {r : Resolution} {file : Location} {i : Nat} :
    r.sourceIndex? file = some i ↔ file ∈ r.sources ∧ r.sources.idxOf file = i := by
  have hp : (fun x : Location => decide (x = file)) = (· == file) := by
    funext x
    rw [Bool.eq_iff_iff, decide_eq_true_iff, beq_iff_eq]
  unfold Resolution.sourceIndex?
  rw [List.findIdx?_eq_some_iff_findIdx_eq, hp, ← List.idxOf_lt_length_iff, List.idxOf]
  exact and_congr_left fun h => by rw [h]

theorem Resolution.sourceIndex?_eq_none {r : Resolution} {file : Location} :
    r.sourceIndex? file = none ↔ file ∉ r.sources := by
  unfold Resolution.sourceIndex?
  rw [List.findIdx?_eq_none_iff]
  constructor
  · intro h hfile
    simpa using h file hfile
  · rintro h x hx
    exact decide_eq_false fun hsame => h (hsame ▸ hx)

/-- What is seen from a source of the owner. -/
theorem sees_iff {o : Resolution} {target from_ : Location} (hfrom : from_ ∈ o.sources) :
    Act.sees o target from_ = true ↔
      (target ∈ o.sources ∧ o.sources.idxOf target ≤ o.sources.idxOf from_) ∨
        (target ∉ o.sources ∧ ∃ q ∈ dependencyOrder [o], target ∈ q.sources) := by
  have hfrom' := Resolution.sourceIndex?_eq_some.mpr ⟨hfrom, rfl⟩
  unfold Act.sees
  cases ht : o.sourceIndex? target with
  | some i =>
      obtain ⟨hmem, rfl⟩ := Resolution.sourceIndex?_eq_some.mp ht
      simp [hfrom', hmem]
  | none =>
      have hmem := Resolution.sourceIndex?_eq_none.mp ht
      simp [hmem, Resolution.containsSource]

section

variable {w w' : Workspace Memory} {file : Location} {r o : Resolution} {id dep : Identity}

/-! ## Results over a table without circles -/

/-- A query keeps to the table. -/
theorem Workspace.Faithful.fetches (hw : w.Faithful) (hq : w.Quiet)
    (h : Fetches Memory.surroundings w w') :
    w'.Faithful where
  sound := hw.sound.fetches surroundings_mild h
  traced :=
    h.traced surroundings_mild hw.sound hq.idle hw.traced (.refl hw.sound) (h.still hq.tidy).spares

/-- The sources of a resolved project are those of the table. -/
theorem Workspace.Sound.sources_eq (hw : w.Sound []) (hr : w.cache.peek r.id.location = some r)
    (hk : r.id.kind = .project) : r.sources = w.outside.sourcesOf r.id := by
  obtain ⟨outcomes, hmade⟩ := ((hw.keeps _ r hr).reported (by simp)).made hk
  rw [hmade.sources, Memory.sourcesOf, if_pos hk]

/-- A project that is on no circle holds a result for each reference. -/
theorem Workspace.Faithful.holds_of_references (hw : w.Faithful)
    (hr : w.cache.peek r.id.location = some r)
    (hcircle : ¬ TransGen w.outside.Links r.id.location r.id.location)
    (h : w.outside.References r.id dep) :
    ∃ p, r.Holds p ∧ p.id = dep := by
  obtain ⟨hk, hdep⟩ := h
  obtain ⟨outcomes, hmade⟩ := ((hw.sound.keeps _ r hr).reported (by simp)).made hk
  rw [← hmade.links] at hdep
  obtain ⟨⟨d, a⟩, ha, rfl⟩ := List.mem_map.mp hdep
  -- it remembers no circle, so the reference was not refused
  obtain ⟨p, -, hp, hheld⟩ := hmade.resolved (hw.cycle_eq_nil hr hcircle) ha
  exact ⟨p, ⟨_, hheld⟩, hp⟩

/-- Without circles, what a result holds is what its project reaches. -/
theorem Workspace.Faithful.exists_held_iff (hw : w.Faithful)
    (hacyclic : ∀ l, ¬ TransGen w.outside.Links l l) (hr : w.cache.peek r.id.location = some r) :
    (∃ q, ReflTransGen Holds r q ∧ q.id = id) ↔ ReflTransGen w.outside.References r.id id := by
  constructor
  · rintro ⟨q, hrq, rfl⟩
    exact hw.sound.references_of_held hr hrq
  · intro h
    induction h with
    | refl => exact ⟨r, .refl, rfl⟩
    | tail _ href ih =>
        obtain ⟨p, hrp, rfl⟩ := ih
        have hp := hw.sound.unanimous.under hr hrp
        obtain ⟨q, hpq, rfl⟩ := hw.holds_of_references hp (hacyclic _) href
        exact ⟨q, hrp.tail hpq, rfl⟩

/-- The sources of what a result holds are those of the projects that are reached
and can be cracked. -/
theorem Workspace.Faithful.exists_source_iff (hw : w.Faithful)
    (hacyclic : ∀ l, ¬ TransGen w.outside.Links l l) (hr : w.cache.peek r.id.location = some r)
    (hn : file ∉ r.sources) :
    (∃ q ∈ dependencyOrder [r], file ∈ q.sources) ↔
      ∃ id, ReflTransGen w.outside.References r.id id ∧ id.kind = .project ∧
        (w.outside.report id.location).error = none ∧ file ∈ w.outside.sourcesOf id := by
  have hroots : ∀ q ∈ [r], w.cache.peek q.id.location = some q :=
    fun q hq => (List.mem_singleton.mp hq).symm ▸ hr
  have hl := Resolution.dependencyOrder_lists hw.sound.unanimous hroots
  constructor
  · rintro ⟨q, hq, hfile⟩
    obtain ⟨p, hp, hrq⟩ := (hl.mem_iff q).mp hq
    cases List.mem_singleton.mp hp
    -- the file is no source of `r`, so `q` is a reference of some project
    have hk : q.id.kind = .project := by
      rcases hrq.cases_tail with rfl | ⟨p, hrp, hpq⟩
      · exact absurd hfile hn
      · exact (CrackReport.links_wellFormed
          (hw.sound.references_of_holds (hw.sound.unanimous.under hr hrp) hpq).2).2
    have hsources := hw.sound.sources_eq (hw.sound.unanimous.under hr hrq) hk
    refine ⟨q.id, hw.sound.references_of_held hr hrq, hk, ?_, hsources ▸ hfile⟩
    rw [hsources, Memory.sourcesOf, if_pos hk] at hfile
    cases he : (w.outside.report q.id.location).error with
    | none => rfl
    | some error => simp [he] at hfile
  · rintro ⟨id, hreach, hk, -, hfile⟩
    obtain ⟨q, hrq, rfl⟩ := (hw.exists_held_iff hacyclic hr).mpr hreach
    refine ⟨q, (hl.mem_iff q).mpr ⟨r, by simp, hrq⟩, ?_⟩
    rw [hw.sound.sources_eq (hw.sound.unanimous.under hr hrq) hk]
    exact hfile

/-! ## Runs -/

/-- Each step of a run is an operation, so a run keeps what operations keep. -/
theorem Reached.settled {pending : List Location}
    (h : ReachedFreely Memory.surroundings w pending) : w.Settled := by
  have hop : ∀ (op : Operation) {w w' : Workspace Memory}, op.run w = .ok () w' →
      w.Settled → w'.Settled :=
    fun _ _ _ h hw => Operation.settled hw h
  induction h with
  | fresh m => exact .fresh m
  | query q _ hq _ ih => exact hop (.ask q) hq ih
  | @edit w pending p id report _ hid _ ih =>
      refine hop (.edit p report) ?_ ih
      rw [← (Identity.kind_of_eq_ok hid).2]
      rfl
  | change c _ hc _ ih => exact hop (.tell c) hc ih
  | write p content _ ih => exact hop (.write p content) rfl ih
  | remove p _ ih => exact hop (.remove p) rfl ih

theorem Reached.faithful (h : ReachedFreely Memory.surroundings w []) : w.Faithful :=
  ⟨h.sound surroundings_mild, h.spares.traced surroundings_mild⟩

/-- What is visible from a file depends on its owner. -/
theorem isVisible_eq {target from_ : Path} {answer : Except (List Diagnostic) Resolution}
    (h : Act.ownerOf Memory.surroundings (Memory.locate from_) w = .ok answer w') :
    Act.isVisible Memory.surroundings target from_ w =
      .ok (match answer with
        | .ok o => Act.sees o (Memory.locate target) (Memory.locate from_)
        | .error _ => false) w' := by
  have hplace : Memory.locate (Memory.locate from_).path = Memory.locate from_ :=
    Location.reach_path (Location.reach_proper Location.root_proper from_) Location.root
  have hagain : Act.owner Memory.surroundings (Memory.locate from_).path w = .ok answer w' := by
    rw [← hplace] at h
    exact Act.bind_ok rfl h
  refine Act.bind_ok rfl (Act.bind_ok rfl (Act.bind_ok hagain ?_))
  cases answer <;> rfl

end

/-- **What can be seen.** After any run in which nothing is asked while an edit of the table was not
told, over a table without circles of references: a file is visible from another exactly if the
other one has an owner, and either the file is a source of the owner and comes no later, or it is no
source of the owner, but of a project that the owner reaches along references of the table and that
can be cracked. The sources of an owner that is a project are those of the table. -/
theorem visible_iff {w : Workspace Memory} (h : ReachedFreely Memory.surroundings w [])
    (hacyclic : ∀ l, ¬ TransGen w.outside.Links l l) (target from_ : Path) :
    ∃ visible answer w',
      Act.isVisible Memory.surroundings target from_ w = .ok visible w' ∧
      Act.owner Memory.surroundings from_ w = .ok answer w' ∧
      (visible = true ↔ ∃ o, answer = .ok o ∧
        ((Memory.locate target ∈ o.sources ∧
            o.sources.idxOf (Memory.locate target) ≤ o.sources.idxOf (Memory.locate from_)) ∨
          (Memory.locate target ∉ o.sources ∧
            ∃ id, ReflTransGen w.outside.References o.id id ∧ id.kind = .project ∧
              (w.outside.report id.location).error = none ∧
                Memory.locate target ∈ w.outside.sourcesOf id))) ∧
      ∀ o, answer = .ok o → o.id.kind = .project → o.sources = w.outside.sourcesOf o.id := by
  have hw := h.settled
  have hproper : (Memory.locate from_).Proper := Location.reach_proper Location.root_proper from_
  obtain ⟨answer, w', hof, hanswer⟩ := ownerOf_answers hw.quiet hw.authored hw.inOrder hproper
  have hfetches := ownerOf_fetches hw.quiet hof
  have hw' : w'.Faithful := h.faithful.fetches hw.quiet hfetches
  -- the search counts cracks, and leaves the table as it is
  obtain ⟨cracks, ho⟩ := (hfetches.still hw.quiet.tidy).outside
  refine ⟨_, answer, w', isVisible_eq hof, Act.bind_ok rfl hof, ?_, ?_⟩
  · cases answer with
    | error ds => simp
    | ok o =>
        have hfrom := (hanswer.ok o rfl).1
        have hsources : Memory.locate target ∉ o.sources → _ :=
          hw'.exists_source_iff (by rw [ho]; exact hacyclic)
          (ownerOf_found hw hproper hof).peek
        rw [ho] at hsources
        rw [sees_iff hfrom, and_congr_right hsources]
        constructor
        · exact fun hsees => ⟨o, rfl, hsees⟩
        · rintro ⟨_, hsame, hsees⟩
          cases hsame
          exact hsees
  · rintro o rfl hk
    rw [hw'.sound.sources_eq (ownerOf_found hw hproper hof).peek hk, ho]
    rfl

def Workspace.authored (w : Workspace Memory) (p text : String)
    (report : CrackReport) : Workspace Memory :=
  (Operation.runAll (Operation.authoring p text report)).after w

theorem Reached.author {w : Workspace Memory} (h : ReachedFreely Memory.surroundings w [])
    {p : String} (text : String) (report : CrackReport) (hk : Kind.ofPath? ⟨p⟩ = some .project) :
    ReachedFreely Memory.surroundings (w.authored p text report) [] := by
  have hedited := (h.write ⟨p⟩ text).edit report (Identity.of_eq_ok hk) rfl
  obtain ⟨w', hw'⟩ := (Operation.tell (.told .created ⟨p⟩)).returns (hedited.idle surroundings_mild)
  have hrun : Operation.runAll (Operation.authoring p text report) w = .ok () w' :=
    Act.bind_ok rfl (Act.bind_ok rfl (Act.bind_ok hw' rfl))
  rw [Workspace.authored, Act.after_eq hrun]
  exact hedited.change (.told .created ⟨p⟩) hw' fun _ hl =>
    Or.inr ⟨.project, hk, rfl, (List.mem_singleton.mp hl).symm⟩

/-- A library, and a project that references it. -/
def withLibrary : Workspace Memory :=
  ((Workspace.fresh .empty).authored "/lib.fsproj" "core.fs" { sources := [⟨"core.fs"⟩] }).authored
    "/app.fsproj" "main.fs" { sources := [⟨"main.fs"⟩], projectReferences := [⟨"lib.fsproj"⟩] }

theorem withLibrary_reached : ReachedFreely Memory.surroundings withLibrary [] :=
  ((Reached.fresh _).author _ _ rfl).author _ _ rfl

set_option maxRecDepth 10000 in
/-- The source of the library is visible from the project: the table says so. -/
theorem visible_iff_withLibrary :
    ReachedFreely Memory.surroundings withLibrary [] ∧
      (∀ l, ¬ TransGen withLibrary.outside.Links l l) ∧
      ∃ o w', Act.owner Memory.surroundings ⟨"/main.fs"⟩ withLibrary = .ok (.ok o) w' ∧
        Act.isVisible Memory.surroundings ⟨"/core.fs"⟩ ⟨"/main.fs"⟩ withLibrary = .ok true w' := by
  let app : Identity := ⟨Memory.locate ⟨"/app.fsproj"⟩, .project⟩
  let lib : Identity := ⟨Memory.locate ⟨"/lib.fsproj"⟩, .project⟩
  have hrank : ∀ entry ∈ withLibrary.outside.reports, ∀ dep ∈ entry.2.links ⟨entry.1, .project⟩,
      (if dep.location = app.location then 1 else 0) < if entry.1 = app.location then 1 else 0 := by
    decide +kernel
  have hacyclic : ∀ l, ¬ TransGen withLibrary.outside.Links l l :=
    Memory.no_circle_of_rank (fun l => if l = app.location then 1 else 0) hrank
  have hany : (withLibrary.ownerOf? ⟨"/main.fs"⟩).any (fun o => o.id = app) = true := by
    decide +kernel
  obtain ⟨o, ho, hid⟩ := (Option.any_eq_true _ _).mp hany
  replace hid := of_decide_eq_true hid
  obtain ⟨visible, answer, w', hvisible, howner, hiff, hsources⟩ :=
    visible_iff withLibrary_reached hacyclic ⟨"/core.fs"⟩ ⟨"/main.fs"⟩
  cases howner.symm.trans (Workspace.owner_eq ho)
  have hfar : Memory.locate ⟨"/core.fs"⟩ ∉ o.sources := by
    rw [hsources o rfl (by rw [hid]), hid]
    decide +kernel
  have hlink : withLibrary.outside.References app lib := ⟨rfl, by decide +kernel⟩
  have hsees : visible = true :=
    hiff.mpr ⟨o, rfl,
      Or.inr ⟨hfar, lib, hid ▸ .single hlink, rfl, by decide +kernel, by decide +kernel⟩⟩
  exact ⟨withLibrary_reached, hacyclic, o, _, howner, hsees ▸ hvisible⟩

end FSharpWorkspace
