import FSharpWorkspace.Proofs.Scripts.Sources
import Mathlib.Data.List.Forall2
/-!
# The load order of a script

A walk loads a file when it is done with all that the file loads. While it follows the directives of
a file, every readable file that it has entered is loaded already or leads to that file
(`Search.pending`). So a file stands behind the readable files that it loads, except those that lead
back to it (`Ordered`), and each file that cannot be read is told of once (`Told`).

`Memory.checkScript_loadOrder` says this of the check of a script whose text is given. The walk
never reads the script itself, so it goes as if the script had that text in memory.
-/

set_option autoImplicit false

namespace FSharpWorkspace

open Relation (ReflTransGen)

namespace LoadWalk

section

variable (place : Location → Path → Location) (read : Location → Except ReadFault String)

/-- The file at the first place loads the one at the second, directly or through other
files, or is that file. -/
abbrev LeadsTo : Location → Location → Prop := ReflTransGen fun a b => b ∈ loads place read a

def Readable (l : Location) : Prop := ∃ text, read l = .ok text

/-- Every file stands behind the readable files that it loads, except those that lead back to it. -/
def Ordered (files : List Location) : Prop :=
  ∀ before u after, files = before ++ u :: after →
    ∀ v ∈ loads place read u, Readable read v → ¬ LeadsTo place read v u → v ∈ before

/-- The failure says that a file to which `root` leads names the file at `x`, and why that
one cannot be read. -/
def Tells (root : Location) (f : LoadFailure) (x : Location) : Prop :=
  ∃ u text, LeadsTo place read root u ∧ read u = .ok text ∧ f.loader = u.path ∧
    f.name ∈ loadDirectives text ∧
    place u.dir ⟨f.name⟩ = x ∧ read x = .error f.fault

/-- There is one failure for each of `files` that cannot be read. -/
def Told (root : Location) (files : Location → Prop) (failures : List LoadFailure) : Prop :=
  ∃ missing : List Location, missing.Nodup ∧ (∀ x, x ∈ missing ↔ files x ∧ ¬ Readable read x) ∧
    List.Forall₂ (Tells place read root) failures missing

/-- The sources of the script at `root` in load order, and what could not be loaded. -/
structure LoadOrder (root : Location) (sources : List Location)
    (failures : List LoadFailure) : Prop where
  nodup : sources.Nodup
  mem_iff : ∀ x, x ∈ sources ↔ LeadsTo place read root x ∧ Readable read x
  last : sources.getLast? = some root
  ordered : Ordered place read sources
  told : Told place read root (LeadsTo place read root) failures

/-- How far a walk has come that began at `root` and follows the directives of the file at `u`. -/
structure Search (root u : Location) (walk : LoadWalk) : Prop where
  leads : LeadsTo place read root u
  subset : walk.loaded ⊆ walk.entered
  nodup : walk.loaded.Nodup
  pending : ∀ x ∈ walk.entered, Readable read x → x ∈ walk.loaded ∨ LeadsTo place read x u
  ordered : Ordered place read walk.loaded
  told : Told place read root (· ∈ walk.entered) walk.failures

end

variable {place : Location → Path → Location} {read : Location → Except ReadFault String}
  {root u there : Location} {text name : String} {fault : ReadFault} {walk walk₁ walk' : LoadWalk}

theorem mem_loads (hread : read u = .ok text) (hname : name ∈ loadDirectives text)
    (hplace : place u.dir ⟨name⟩ = there) : there ∈ loads place read u := by
  unfold loads
  rw [hread]
  exact List.mem_map.mpr ⟨name, hname, hplace⟩

theorem not_readable_of_error (h : read there = .error fault) : ¬ Readable read there := by
  rintro ⟨text, ht⟩
  cases h.symm.trans ht

/-! ## One more file -/

theorem Ordered.concat {files : List Location} (h : Ordered place read files)
    (hlast : ∀ v ∈ loads place read u, Readable read v → ¬ LeadsTo place read v u → v ∈ files) :
    Ordered place read (files ++ [u]) := by
  intro before w after heq
  -- either the file is the new one, or it stood among the others before
  rcases List.eq_nil_or_concat after with rfl | ⟨after, z, rfl⟩
  · obtain ⟨rfl, hw⟩ := List.append_inj' heq rfl
    obtain rfl : u = w := by simpa using hw
    exact hlast
  · have heq' : files ++ [u] = (before ++ w :: after) ++ [z] := by simpa using heq
    exact h before w after (List.append_inj' heq' rfl).1

theorem Told.congr {files files' : Location → Prop} {failures : List LoadFailure}
    (h : Told place read root files failures)
    (hfiles : ∀ x, ¬ Readable read x → (files' x ↔ files x)) :
    Told place read root files' failures := by
  obtain ⟨missing, hnodup, hmem, htell⟩ := h
  exact ⟨missing, hnodup, fun x => (hmem x).trans (and_congr_left fun hx => (hfiles x hx).symm),
    htell⟩

theorem Told.concat {files files' : Location → Prop} {failures : List LoadFailure} {f : LoadFailure}
    (h : Told place read root files failures) (hf : Tells place read root f there)
    (hnew : ¬ files there) (hthere : ¬ Readable read there)
    (hfiles : ∀ x, files' x ↔ x = there ∨ files x) :
    Told place read root files' (failures ++ [f]) := by
  obtain ⟨missing, hnodup, hmem, htell⟩ := h
  have hnot : there ∉ missing := fun hm => hnew ((hmem there).mp hm).1
  refine ⟨missing ++ [there], ?_, fun x => ?_, List.rel_append htell (.cons hf .nil)⟩
  · exact hnodup.append (List.nodup_singleton _) (List.disjoint_singleton.mpr hnot)
  · rw [List.mem_append, List.mem_singleton, hmem, hfiles, or_and_right, or_comm]
    exact or_congr_left ⟨fun hx => ⟨hx, hx ▸ hthere⟩, And.left⟩

/-! ## What a walk keeps to -/

/-- A file that cannot be read is told of. -/
theorem Search.fail (h : Search place read root u walk) (hread : read u = .ok text)
    (hname : name ∈ loadDirectives text) (hplace : place u.dir ⟨name⟩ = there)
    (hnew : there ∉ walk.entered) (hfault : read there = .error fault) :
    Search place read root u ((walk.enter there).fail ⟨u.path, name, fault⟩) where
  leads := h.leads
  subset := List.subset_cons_of_subset _ h.subset
  nodup := h.nodup
  pending x hx hr := by
    rcases List.mem_cons.mp hx with rfl | hx
    · exact absurd hr (not_readable_of_error hfault)
    · exact h.pending x hx hr
  ordered := h.ordered
  told := by
    refine h.told.concat ⟨u, text, h.leads, hread, rfl, hname, hplace,
      hfault⟩ hnew (not_readable_of_error hfault) ?_
    exact fun x => List.mem_cons

/-- The directives of a file that can be read are followed. All that was pending leads to it. -/
theorem Search.enter (h : Search place read root u walk) (hload : there ∈ loads place read u)
    (hthere : Readable read there) : Search place read root there (walk.enter there) where
  leads := h.leads.tail hload
  subset := List.subset_cons_of_subset _ h.subset
  nodup := h.nodup
  pending x hx hr := by
    rcases List.mem_cons.mp hx with rfl | hx
    · exact Or.inr .refl
    · exact (h.pending x hx hr).imp_right fun hu => hu.tail hload
  ordered := h.ordered
  told := h.told.congr fun x hx => List.mem_cons.trans (or_iff_right fun hxt => hx (hxt ▸ hthere))

/-- A file is loaded when all that it loads has been entered. -/
theorem Search.load (h : Search place read root u walk) (h₁ : Search place read root there walk₁)
    (hnew : there ∉ walk.entered) (hread : read there = .ok text)
    (hinner : Follows place read there.path there.dir (loadDirectives text)
      (walk.enter there) walk₁) :
    Search place read root u (walk₁.load there) where
  leads := h.leads
  subset := by
    refine List.append_subset.mpr ⟨h₁.subset, fun x hx => hinner.subset ?_⟩
    rw [List.mem_singleton.mp hx]
    exact List.mem_cons_self
  nodup := by
    refine h₁.nodup.append (List.nodup_singleton _) (List.disjoint_singleton.mpr fun hm => ?_)
    -- it was entered before all that was loaded since, and is entered only once
    rcases hinner.mem_loaded.mp hm with hm | ⟨-, hn, -⟩
    · exact hnew (h.subset hm)
    · exact hn List.mem_cons_self
  pending x hx hr := by
    show x ∈ walk₁.loaded ++ [there] ∨ _
    rw [List.mem_append, List.mem_singleton, hinner.mem_loaded]
    by_cases hxt : x = there
    · exact Or.inl (Or.inr hxt)
    · by_cases hxe : x ∈ walk.entered
      · exact (h.pending x hxe hr).imp_left fun hm => Or.inl (Or.inl hm)
      · exact Or.inl (Or.inl (Or.inr ⟨hx, fun hm => (List.mem_cons.mp hm).elim hxt hxe, hr⟩))
  ordered := by
    refine h₁.ordered.concat fun v hv hr hback => ?_
    -- a file that is still pending leads to this one, so only files that lead back
    -- are not loaded yet
    have hentered : v ∈ walk₁.entered := by
      simp only [loads, hread, List.mem_map] at hv
      obtain ⟨n, hn, rfl⟩ := hv
      exact hinner.closed.1 n hn
    exact (h₁.pending v hentered hr).resolve_right hback
  told := h₁.told

/-- What a step keeps to, the whole walk keeps to. -/
theorem Follows.search {loader : Path} {dir : Location} {names : List String}
    (hwalk : Follows place read loader dir names walk walk') (h : Search place read root u walk)
    (hloader : loader = u.path) (hdir : dir = u.dir) (hread : read u = .ok text)
    (hnames : names ⊆ loadDirectives text) :
    Search place read root u walk' := by
  -- on the way down the walk follows the directives of the file that it entered, and then goes on
  -- with the others
  induction hwalk generalizing u text with
  | nil => exact h
  | seen _ _ ih => exact ih h hloader hdir hread (List.subset_of_cons_subset hnames)
  | failed hplace hnew hfault _ ih =>
      subst hloader hdir
      have hname := hnames List.mem_cons_self
      exact ih (h.fail hread hname hplace hnew hfault) rfl rfl hread
        (List.subset_of_cons_subset hnames)
  | loaded hplace hnew hthere hinner _ ih₁ ih =>
      subst hloader hdir
      have hload := mem_loads hread (hnames List.mem_cons_self) hplace
      have h₁ := ih₁ (h.enter hload ⟨_, hthere⟩) rfl rfl hthere (List.Subset.refl _)
      exact ih (h.load h₁ hnew hthere hinner) rfl rfl hread (List.subset_of_cons_subset hnames)

/-- A walk along all that a script loads finds its load order. -/
theorem Follows.loadOrder (hread : read root = .ok text)
    (hwalk : Follows place read root.path root.dir (loadDirectives text) ⟨[root], [], []⟩ walk') :
    LoadOrder place read root (walk'.loaded ++ [root]) walk'.failures := by
  have hloads : loads place read root = (loadDirectives text).map fun name =>
      place root.dir ⟨name⟩ := by
    unfold loads
    rw [hread]
  have hentered : ∀ x, x ∈ walk'.entered ↔ LeadsTo place read root x :=
    fun x => hwalk.mem_entered_iff hloads
  have hloaded : ∀ x, x ∈ walk'.loaded ↔ LeadsTo place read root x ∧
      x ≠ root ∧ Readable read x := by
    intro x
    rw [hwalk.mem_loaded, hentered]
    simp [Readable]
  have hstart : Search place read root root ⟨[root], [], []⟩ :=
    { leads := .refl
      subset := List.nil_subset _
      nodup := List.nodup_nil
      pending := fun x hx _ => Or.inr (List.mem_singleton.mp hx ▸ .refl)
      ordered := fun before u after heq => absurd heq (by simp)
      told := ⟨[], List.nodup_nil,
        fun x => ⟨nofun, fun ⟨hx, hr⟩ => absurd ⟨text, hread⟩ (List.mem_singleton.mp hx ▸ hr)⟩,
        .nil⟩ }
  have hsearch := hwalk.search hstart rfl rfl hread (List.Subset.refl _)
  -- the script itself is entered first and never loaded by the walk: it stands behind all
  -- that was loaded
  refine ⟨?_, fun x => ?_, List.getLast?_concat, ?_,
    hsearch.told.congr fun x _ => (hentered x).symm⟩
  · have hroot : root ∉ walk'.loaded := fun hm => ((hloaded root).mp hm).2.1 rfl
    exact hsearch.nodup.append (List.nodup_singleton _) (List.disjoint_singleton.mpr hroot)
  · rw [List.mem_append, List.mem_singleton, hloaded]
    constructor
    · rintro (⟨hx, -, hr⟩ | rfl)
      · exact ⟨hx, hr⟩
      · exact ⟨.refl, text, hread⟩
    · rintro ⟨hx, hr⟩
      by_cases hxr : x = root
      · exact Or.inr hxr
      · exact Or.inl ⟨hx, hxr, hr⟩
  · refine hsearch.ordered.concat fun v hv hr hback => (hloaded v).mpr ⟨.single hv, ?_, hr⟩
    rintro rfl
    exact hback .refl

end LoadWalk

/-! ## Scripts in memory -/

namespace Memory

variable {l : Location}

/-- What there is to read if the file at `l` has the text `source`. -/
def textWith (m : Memory) (l : Location) (source : String) (x : Location) :
    Except ReadFault String :=
  if x = l then .ok source else m.textAt x

theorem locate_parent (hl : l.Proper) : locate (l.path.parent?.getD l.path) = l.dir := by
  by_cases hroot : l.names = []
  · obtain rfl : l = ⟨[]⟩ := by
      cases l
      simp_all
    decide
  · have hdir : l.dir.Proper := fun n hn => hl n (List.dropLast_subset _ hn)
    rw [Location.parent?_path hl hroot]
    exact Location.reach_path hdir Location.root

theorem checkScript_eq (m : Memory) (hl : l.Proper) (source : String) :
    m.checkScript l.path source = m.walkOf ⟨l, .script⟩ source := by
  unfold checkScript
  rw [locate_parent hl]
  rfl

/-- **Load order.** The check of a script ends as the walk without a bound on its depth does. Its
sources are in load order: without repetition, they are the readable files to which the script
leads, the script last, and each behind the readable files that it loads, except those that lead
back to it. There is one failure for each file to which the script leads and that cannot be read. -/
theorem checkScript_loadOrder (m : Memory) (hl : l.Proper) (source : String) :
    LoadWalk.Follows placeIn m.textAt l.path l.dir (loadDirectives source) ⟨[l], [], []⟩
        (m.checkScript l.path source) ∧
      LoadWalk.LoadOrder placeIn (m.textWith l source) l
        ((m.checkScript l.path source).loaded ++ [l])
        (m.checkScript l.path source).failures := by
  have hwalk := @walkOf_follows ⟨l, .script⟩ m source hl
  rw [← checkScript_eq m hl] at hwalk
  have hsame : ∀ x ∈ (m.checkScript l.path source).entered,
      x ∉ [l] → m.textWith l source x = m.textAt x :=
    fun x _ hx => if_neg (by simpa using hx)
  exact ⟨hwalk, (hwalk.congr hsame).loadOrder (if_pos rfl)⟩

/-- Files that load themselves, each other and the script, and one that is not there. -/
def tangled : Memory :=
  ((empty.write ⟨"/ws/a.fsx"⟩ "#load \"b.fsx\" \"lib.fsx\"").write ⟨"/ws/b.fsx"⟩
      "#load \"gone.fsx\"\n#load \"a.fsx\" \"b.fsx\" \"run.fsx\" \"lib.fsx\"").write
    ⟨"/ws/lib.fsx"⟩ ""

theorem checkScript_loadOrder_tangled :
    let l : Location := ⟨["ws", "run.fsx"]⟩
    let source := "#load \"a.fsx\"\n#load \"lib/../gone.fsx\""
    let walk := tangled.checkScript l.path source
    l.Proper ∧
      LoadWalk.Follows placeIn tangled.textAt l.path l.dir
        (loadDirectives source) ⟨[l], [], []⟩ walk ∧
      LoadWalk.LoadOrder placeIn (tangled.textWith l source) l (walk.loaded ++ [l]) walk.failures ∧
      (walk.loaded ++ [l]).map Location.text = ["/ws/lib.fsx", "/ws/b.fsx",
        "/ws/a.fsx", "/ws/run.fsx"] ∧
      walk.failures.map LoadFailure.message =
        ["/ws/b.fsx: cannot load `gone.fsx`: File not found: /ws/gone.fsx"] := by
  have hproper : Location.Proper ⟨["ws", "run.fsx"]⟩ := by simp [Location.Proper, IsProper]
  have h := tangled.checkScript_loadOrder hproper "#load \"a.fsx\"\n#load \"lib/../gone.fsx\""
  exact ⟨hproper, h.1, h.2, by decide +kernel⟩

end Memory

end FSharpWorkspace
