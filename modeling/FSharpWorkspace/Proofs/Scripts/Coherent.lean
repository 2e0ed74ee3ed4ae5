import FSharpWorkspace.Proofs.Scripts.Sources
import FSharpWorkspace.Proofs.Sequential.Operations
/-!
# Coherence of scripts

Scripts are written and removed, and the workspace is told of it before the next question (`Told`).
Then the sources of every cached script read as they did when its result was made (`Told.kept`),
because a change of one of them drops it.

A file that was missing is no source, and the change that creates it drops nothing. So the options
of a script are what a fresh workspace returns exactly if no such file is there now
(`options_script_eq_fresh_iff`).
-/

set_option autoImplicit false

namespace FSharpWorkspace

/-! ## Runs -/

def scriptAt (p : Path) : List Location :=
  if Kind.ofPath? p = some .script then [Memory.locate p] else []

/-- The scripts that an operation adds, overwrites or removes. -/
def Operation.touches : Operation → List Location
  | write p _ => scriptAt p
  | remove p => scriptAt p
  | _ => []

/-- Whether an operation tells the workspace of the script or project at `l`. -/
def Operation.IsAbout (l : Location) : Operation → Prop
  | tell c => c.IsAbout l
  | _ => False

/-- Operations lead to a workspace that was not told yet of what happened to the scripts `pending`.
Nothing is asked while there are such scripts. -/
inductive Told : Workspace Memory → List Location → Prop where
  | fresh (m : Memory) : Told (.fresh m) []
  | step {w w' : Workspace Memory} {pending pending' : List Location} (op : Operation) :
      Told w pending → op.run w = .ok () w' → (∀ q, op = .ask q → pending = []) →
      (∀ l ∈ op.touches ++ pending, l ∈ pending' ∨ op.IsAbout l) → Told w' pending'

/-! ## Files that are written and removed -/

namespace Memory

variable {m : Memory} {p : Path} {x : Location}

/-- Only one place is named by a spelling. -/
theorem mem_scriptAt_of_same (hx : x.Proper) (hk : Kind.ofPath? x.path = some .script)
    (h : p.same x.path = true) :
    x ∈ scriptAt p := by
  have hc : p.components = x.path.components := by simpa [Path.same] using h
  have hkind : Kind.ofPath? p = some .script := by
    rw [← hk]
    unfold Kind.ofPath? Path.extension? Path.fileName?
    rw [hc]
  have hplace : locate p = x := by
    rw [locate, Location.reach, hc]
    exact Location.reach_path hx Location.root
  simp [scriptAt, hkind, hplace]

/-- A file that has another spelling is found among the others. -/
theorem file?_filter_of_not_same (h : p.same x.path = false) :
    (m.files.filter (!·.path.same p)).find? (·.path.same x.path) = m.file? x.path := by
  rw [List.find?_filter]
  unfold file?
  congr 1
  funext f
  -- a file with the spelling of `x` has not that of `p`
  cases hf : f.path.same x.path with
  | false => simp
  | true =>
      have hfx : f.path.components = x.path.components := by simpa [Path.same] using hf
      have hne : f.path.same p = false := by
        unfold Path.same at h ⊢
        rw [hfx, beq_eq_false_iff_ne]
        exact (beq_eq_false_iff_ne.mp h).symm
      simp [hne]

theorem textAt_write (content : String) (h : p.same x.path = false) :
    (m.write p content).textAt x = m.textAt x := by
  unfold textAt read
  have hfile : (m.write p content).file? x.path = m.file? x.path := by
    unfold write file?
    rw [List.find?_cons]
    simp only [h]
    exact file?_filter_of_not_same h
  rw [hfile]

theorem textAt_remove (h : p.same x.path = false) : (m.remove p).textAt x = m.textAt x := by
  unfold textAt read
  have hfile : (m.remove p).file? x.path = m.file? x.path := file?_filter_of_not_same h
  rw [hfile]

/-- An operation rewrites no script but those that it touches. -/
theorem textAt_run {op : Operation} {w w' : Workspace Memory} (hw : w.Quiet)
    (h : op.run w = .ok () w') (hx : x.Proper) (hk : Kind.ofPath? x.path = some .script)
    (hn : x ∉ op.touches) :
    w'.outside.textAt x = w.outside.textAt x := by
  have hother : ∀ p, x ∉ scriptAt p → p.same x.path = false := by
    intro p hp
    by_contra hs
    exact hp (mem_scriptAt_of_same hx hk (by simpa using hs))
  cases op with
  | ask q =>
      obtain ⟨cracks, ho⟩ := (q.still hw h).outside
      rw [ho]
      rfl
  | tell c =>
      obtain ⟨xs, -, ho, -⟩ := c.run_changes surroundings_mild.rooted hw.tidy.lone h
      rw [ho]
  | edit p report =>
      cases h
      rfl
  | write p content =>
      cases h
      exact textAt_write content (hother p hn)
  | remove p =>
      cases h
      exact textAt_remove (hother p hn)

end Memory

/-! ## Results of scripts -/

/-- The result `r` for the file at `l` was made in some memory, and its sources still are as they
were there, except for the scripts `pending`. -/
structure Workspace.Reflects (w : Workspace Memory) (pending : List Location) (l : Location)
    (r : Resolution) :
    Prop where
  place : r.id.location = l
  wellFormed : r.id.WellFormed
  script : r.id.kind = .script → ∃ m, r = Memory.surroundings.scriptResult m r.id r.stamp ∧
    ∀ x ∈ l :: r.sources, x.Proper → Kind.ofPath? x.path = some .script → x ∉ pending →
      w.outside.textAt x = m.textAt x

section

variable {w w' : Workspace Memory} {pending pending' : List Location} {l : Location}
  {r : Resolution}

/-- A result that is new reflects the memory. -/
theorem Resolution.MadeIn.reflects (h : r.MadeIn w.outside l) : w.Reflects pending l r where
  place := h.place
  wellFormed := h.wellFormed
  script hk := ⟨w.outside, h.script hk, fun _ _ _ _ _ => rfl⟩

/-- A result reflects the memory as long as the scripts that are touched are pending. -/
theorem Workspace.Reflects.mono {touched : List Location} (h : w.Reflects pending l r)
    (htext : ∀ x : Location, x.Proper → Kind.ofPath? x.path = some .script → x ∉ touched →
      w'.outside.textAt x = w.outside.textAt x)
    (hp : ∀ x ∈ l :: r.sources, x ∈ touched ++ pending → x ∈ pending') :
    w'.Reflects pending' l r where
  place := h.place
  wellFormed := h.wellFormed
  script hk := by
    obtain ⟨m, hr, hreads⟩ := h.script hk
    refine ⟨m, hr, fun x hx hproper hkind hn => ?_⟩
    obtain ⟨ht, hpend⟩ := not_or.mp (List.mem_append.not.mp fun hm => hn (hp x hx hm))
    exact (htext x hproper hkind ht).trans (hreads x hx hproper hkind hpend)

/-- An operation that tells the workspace of some scripts drops what they are sources of. -/
theorem Workspace.Reflects.step {op : Operation} (hw : w.Quiet)
    (hwas : ∀ l r, w.cache.peek l = some r → w.Reflects pending l r) (h : op.run w = .ok () w')
    (hask : ∀ q, op = .ask q → pending = [])
    (hp : ∀ l ∈ op.touches ++ pending, l ∈ pending' ∨ op.IsAbout l)
    (hr : w'.cache.peek l = some r) :
    w'.Reflects pending' l r := by
  have htext : ∀ x : Location, x.Proper → Kind.ofPath? x.path = some .script → x ∉ op.touches →
      w'.outside.textAt x = w.outside.textAt x := fun x => Memory.textAt_run hw h
  -- an operation that tells nothing leaves pending whatever was
  have hsilent : (∀ x, ¬ op.IsAbout x) → w.cache.peek l = some r → w'.Reflects pending' l r :=
    fun hn hp₀ => (hwas l r hp₀).mono htext fun x _ hx => (hp x hx).resolve_right (hn x)
  cases op with
  | ask q =>
      have hstill := q.still hw h
      rcases hstill.found l r hr with hr₀ | hmade
      · exact hsilent (fun _ h => h) hr₀
      · obtain ⟨cracks, ho⟩ := hstill.outside
        refine Resolution.MadeIn.reflects ?_
        rw [ho]
        exact Resolution.madeIn_cracks.mpr hmade
  | tell c =>
      obtain ⟨xs, hx, -, habout⟩ := c.run_changes surroundings_mild.rooted hw.tidy.lone h
      obtain ⟨hr₀, hl⟩ := (hx.peek hw.tidy.lone l r).mp hr
      refine (hwas l r hr₀).mono htext fun x hx' hpend => (hp x hpend).resolve_right fun ha => ?_
      have hxs := habout x ha
      have hne : r.id.location ≠ x := by
        rw [(hwas l r hr₀).place]
        rintro rfl
        exact hl hxs
      -- a source of the result, which depends on it
      have hsource : x ∈ r.sources := by
        rcases List.mem_cons.mp hx' with rfl | hx'
        · exact absurd hxs hl
        · exact hx'
      have hdep := hx.closed x hxs l r hr
      simp [Resolution.dependsOn, hne, Resolution.containsSource, hsource] at hdep
  | edit p report =>
      cases h
      exact hsilent (fun _ h => h) hr
  | write p content =>
      cases h
      exact hsilent (fun _ h => h) hr
  | remove p =>
      cases h
      exact hsilent (fun _ h => h) hr

theorem Told.quiet (h : Told w pending) : w.Quiet := by
  induction h with
  | fresh m => exact .fresh m
  | step op _ hrun _ _ ih => exact Operation.quiet ih hrun

/-- Whatever was done, the results in the map reflect the memory. -/
theorem Told.kept (h : Told w pending) {l : Location} {r : Resolution}
    (hr : w.cache.peek l = some r) :
    w.Reflects pending l r := by
  induction h generalizing l r with
  | fresh m => simp at hr
  | step op h hrun hask hp ih =>
      exact Workspace.Reflects.step h.quiet (fun l r hr => ih hr) hrun hask hp hr

/-! ## Coherence -/

/-- Options of a script are returned, and reflect the memory. -/
theorem Told.options (h : Told w []) {id : Identity} (hid : id.WellFormed)
    (hk : id.kind.isResolvable = true) :
    ∃ r w', Act.options Memory.surroundings id w = .ok (.ok r) w' ∧ r.id = id ∧
      w.Reflects [] id.location r := by
  have hw := h.quiet
  obtain ⟨r, w', ho, hs⟩ := options_returns hid hk hw.tidy hw.idle.not_busy
  obtain ⟨hstill, hpeek⟩ := hs.still hid hw.tidy
  have hreflects : w.Reflects [] id.location r := by
    rcases hstill.found _ _ hpeek with hr | hmade
    · exact h.kept hr
    · exact hmade.reflects
  exact ⟨r, w', ho, hreflects.wellFormed.eq hid hreflects.place, hreflects⟩

/-- A fresh workspace makes the result of a script. -/
theorem options_fresh {id : Identity} (hid : id.WellFormed) (hk : id.kind = .script) (m : Memory) :
    ∃ r w', Act.options Memory.surroundings id (.fresh m) = .ok (.ok r) w' ∧
      r = Memory.surroundings.scriptResult m id r.stamp := by
  have hresolvable : id.kind.isResolvable = true := by
    rw [hk]
    rfl
  obtain ⟨r, w', ho, hs⟩ :=
    options_returns hid hresolvable (Workspace.Tidy.fresh m) (Workspace.Idle.fresh m).not_busy
  obtain ⟨hstill, hpeek⟩ := hs.still hid (.fresh m)
  have hmade : r.MadeIn m id.location := (hstill.found _ _ hpeek).resolve_left (by simp)
  have hrid : r.id = id := hmade.wellFormed.eq hid hmade.place
  have hscript := hmade.script (by rw [hrid, hk])
  rw [hrid] at hscript
  exact ⟨r, w', ho, hscript⟩

end

/-- **Coherence of scripts.** After any run in which the workspace is told of every script that is
written or removed before the next question, the options of a script that leads to scripts only are
those that a fresh workspace returns exactly if every file that one of the sources loads and that is
there is itself one of the sources. -/
theorem options_script_eq_fresh_iff {w : Workspace Memory} (h : Told w []) {p : Path}
    {id : Identity} (hid : Identity.of Memory.locate p = .ok id) (hk : id.kind = .script)
    (hscripts : ∀ x, w.outside.LeadsTo id.location x → Kind.ofPath? x.path = some .script) :
    ∃ r w' r₀ w₀, Act.options Memory.surroundings id w = .ok (.ok r) w' ∧
      Act.options Memory.surroundings id (.fresh w.outside) = .ok (.ok r₀) w₀ ∧
      (r.bare = r₀.bare ↔
        ∀ s ∈ r.sources, ∀ x ∈ w.outside.loads s, w.outside.Readable x → x ∈ r.sources) := by
  have hwf : id.WellFormed := Identity.of_wellFormed hid
  have hresolvable : id.kind.isResolvable = true := by
    rw [hk]
    rfl
  obtain ⟨r, w', ho, hrid, hreflects⟩ := h.options hwf hresolvable
  obtain ⟨r₀, w₀, ho₀, hr₀⟩ := options_fresh hwf hk w.outside
  obtain ⟨m, hr, hreads⟩ := hreflects.script (by rw [hrid, hk])
  rw [hrid] at hr
  refine ⟨r, w', r₀, w₀, ho, ho₀, ?_⟩
  rw [hr] at hreads ⊢
  rw [hr₀]
  refine bare_scriptResult_iff hwf.proper fun x hx hlead => ?_
  exact hreads x hx (hlead.proper hwf.proper) (hscripts x hlead) (by simp)

/-! ## A file that comes into being -/

/-- A script is written, and the workspace is told. -/
def Workspace.rewrite (w : Workspace Memory) (p content : String) : Workspace Memory :=
  (Operation.tell (.told .created ⟨p⟩)).run.after ((Operation.write ⟨p⟩ content).run.after w)

theorem Told.rewrite {w : Workspace Memory} (h : Told w []) {p : String} (content : String)
    (hp : Kind.ofPath? ⟨p⟩ = some .script) : Told (w.rewrite p content) [] := by
  have hwritten : Told ((Operation.write ⟨p⟩ content).run.after w) [Memory.locate ⟨p⟩] := by
    refine .step (.write ⟨p⟩ content) h rfl nofun fun l hl => Or.inl ?_
    simpa [Operation.touches, scriptAt, hp] using hl
  obtain ⟨w', hrun⟩ := (Operation.tell (.told .created ⟨p⟩)).returns hwritten.quiet
  rw [Workspace.rewrite, Act.after_eq hrun]
  refine .step _ hwritten hrun nofun fun l hl => Or.inr ⟨.script, hp, rfl, ?_⟩
  exact (List.mem_singleton.mp hl).symm

/-- The workspace that knows `/a.fsx`, asked for its options when the file `/b.fsx` that it
loads was missing. -/
def askedWhileMissing : Workspace Memory :=
  (Operation.ask (.options ⟨"/a.fsx"⟩)).run.after
    ((Workspace.fresh .empty).rewrite "/a.fsx" "#load \"b.fsx\"")

def writtenAfterwards : Workspace Memory := askedWhileMissing.rewrite "/b.fsx" "let b = 1"

theorem writtenAfterwards_told : Told writtenAfterwards [] := by
  have hwritten : Told ((Workspace.fresh .empty).rewrite "/a.fsx" "#load \"b.fsx\"") [] :=
    (Told.fresh .empty).rewrite _ (by decide +kernel)
  have hasked : Told askedWhileMissing [] :=
    .step (.ask (.options ⟨"/a.fsx"⟩)) hwritten (Act.eq_ok_of_returns (by decide +kernel))
      (fun _ _ => rfl)
      (by simp [Operation.touches])
  exact hasked.rewrite _ (by decide +kernel)

/-- What loads nothing but files of a list leads to nothing else. -/
theorem Memory.LeadsTo.mem_of_closed {m : Memory} {files : List Location} {l x : Location}
    (h : m.LeadsTo l x) (hl : l ∈ files)
    (hclosed : ∀ y ∈ files, ∀ z ∈ m.loads y, z ∈ files) : x ∈ files := by
  induction h with
  | refl => exact hl
  | tail _ hz ih => exact hclosed _ ih _ hz

theorem writtenAfterwards_scripts {x : Location}
    (h : writtenAfterwards.outside.LeadsTo (Memory.locate ⟨"/a.fsx"⟩) x) :
    Kind.ofPath? x.path = some .script := by
  have hkinds : ∀ y ∈ [Memory.locate ⟨"/a.fsx"⟩, Memory.locate ⟨"/b.fsx"⟩],
      Kind.ofPath? y.path = some .script := by
    decide +kernel
  exact hkinds x (h.mem_of_closed (by decide +kernel) (by decide +kernel))

theorem options_script_eq_fresh_iff_writtenAfterwards :
    Told writtenAfterwards [] ∧
      ∃ r w' r₀ w₀,
        Act.options Memory.surroundings ⟨Memory.locate ⟨"/a.fsx"⟩,
          .script⟩ writtenAfterwards = .ok (.ok r) w' ∧
        Act.options Memory.surroundings ⟨Memory.locate ⟨"/a.fsx"⟩,
          .script⟩ (.fresh writtenAfterwards.outside) =
          .ok (.ok r₀) w₀ ∧
        (r.bare = r₀.bare ↔ ∀ s ∈ r.sources, ∀ x ∈ writtenAfterwards.outside.loads s,
          writtenAfterwards.outside.Readable x → x ∈ r.sources) :=
  ⟨writtenAfterwards_told,
    options_script_eq_fresh_iff writtenAfterwards_told (p := ⟨"/a.fsx"⟩) rfl rfl fun _ =>
      writtenAfterwards_scripts⟩

/-- The sources of a file, if its options are returned. -/
def Act.sourcesOf (id : Identity) (w : Workspace Memory) : List Location :=
  match Act.options Memory.surroundings id w with
  | .ok (.ok r) _ => r.sources
  | _ => []

/-- A file that comes into being is not noticed: the options returned are not those of
a fresh workspace. -/
theorem options_script_stale :
    ∃ w id r w' r₀ w₀, Told w [] ∧ id.kind = .script ∧
      (∀ x, w.outside.LeadsTo id.location x → Kind.ofPath? x.path = some .script) ∧
      Act.options Memory.surroundings id w = .ok (.ok r) w' ∧
      Act.options Memory.surroundings id (.fresh w.outside) =
        .ok (.ok r₀) w₀ ∧ r.bare ≠ r₀.bare := by
  have hid : (⟨Memory.locate ⟨"/a.fsx"⟩, .script⟩ : Identity).WellFormed :=
    Identity.of_wellFormed (p := ⟨"/a.fsx"⟩) rfl
  obtain ⟨r, w', ho, -⟩ := writtenAfterwards_told.options hid rfl
  obtain ⟨r₀, w₀, ho₀, -⟩ := options_fresh hid rfl writtenAfterwards.outside
  refine ⟨writtenAfterwards, _, r, w', r₀, w₀, writtenAfterwards_told, rfl,
    fun _ => writtenAfterwards_scripts, ho, ho₀,
    fun heq => ?_⟩
  have hsources : Act.sourcesOf ⟨Memory.locate ⟨"/a.fsx"⟩, .script⟩ writtenAfterwards ≠
      Act.sourcesOf ⟨Memory.locate ⟨"/a.fsx"⟩, .script⟩ (.fresh writtenAfterwards.outside) := by
    decide +kernel
  unfold Act.sourcesOf at hsources
  rw [ho, ho₀] at hsources
  refine hsources ?_
  show r.sources = r₀.sources
  rw [← Resolution.bare_sources r, heq, Resolution.bare_sources]

end FSharpWorkspace
