import FSharpWorkspace.Proofs.Sequential.Declared
import Mathlib.Data.List.Dedup
/-!
# Resolving ends

Resolutions of projects nest as deep as references lead to projects that are neither resolved nor in
progress. A larger depth than that makes no difference (`resolveAt_extends`), and the number of
projects in the table is such a depth. So what a query returns is due to the references alone,
circles and unknown projects among them, and not to the bound.

A `Moment` of a resolution is what the workspace is between two of its steps, together with the
calls that are under way then. At each of them the entries in progress belong to these calls
(`Moment.midway`), and no file has two (`Workspace.Nests.nodup_inProgress`). Every call but the last
follows references, so its project is in the table.
-/

set_option autoImplicit false

namespace FSharpWorkspace

/-! ## The depth does not matter -/

section

variable {σ α β : Type}

def Act.Extends (y x : Act σ α) : Prop := ∀ w a w', x w = .ok a w' → y w = .ok a w'

theorem Act.Extends.refl (x : Act σ α) : x.Extends x := fun _ _ _ h => h

theorem Act.Extends.bind {x y : Act σ α} {f g : α → Act σ β} (h : y.Extends x)
    (hf : ∀ a, (g a).Extends (f a)) :
    (y >>= g).Extends (x >>= f) := by
  intro w b w' hx
  obtain ⟨a, w₁, ha, hb⟩ := Act.bind_eq_ok.mp hx
  exact Act.bind_ok (h _ _ _ ha) (hf a _ _ _ hb)

theorem Act.Extends.foldlM {f g : β → α → Act σ β} (h : ∀ b a, (g b a).Extends (f b a))
    (xs : List α) (b : β) :
    (xs.foldlM g b : Act σ β).Extends (xs.foldlM f b) := by
  induction xs generalizing b with
  | nil => exact .refl _
  | cons x xs ih =>
      rw [List.foldlM_cons, List.foldlM_cons]
      exact .bind (h b x) ih

theorem Act.Extends.computing {x y : Act σ Resolution} (h : y.Extends x) (s : Serial) :
    (Act.computing s y).Extends (Act.computing s x) := by
  intro w a w' hx
  unfold Act.computing at hx ⊢
  cases hw : x w with
  | ok b w₁ =>
      rw [hw] at hx
      rw [h _ _ _ hw]
      exact hx
  | error e w₁ =>
      rw [hw] at hx
      cases hx

variable {env : Surroundings σ}
  {dependency dependency' : Identity → Act σ (Except (List Identity) Resolution)}

theorem link_extends (id : Identity) (h : ∀ dep, (dependency' dep).Extends (dependency dep))
    (linked : Act.Linked) (reference : Path) :
    (Act.link env id dependency' linked reference).Extends
      (Act.link env id dependency linked reference) := by
  refine .bind (.refl _) fun dep? => ?_
  cases dep? with
  | none => exact .refl _
  | some dep => exact .bind (h dep) fun _ => .refl _

theorem resolveProject_extends (id : Identity)
    (h : ∀ dep, (dependency' dep).Extends (dependency dep)) :
    (Act.resolveProject env id dependency').Extends (Act.resolveProject env id dependency) := by
  refine .bind (.refl _) fun report => .bind (.refl _) fun loadTime => ?_
  cases report.error with
  | some error => exact .refl _
  | none => exact .bind (.foldlM (link_extends id h) _ _) fun _ => .refl _

theorem resolveOne_extends (id : Identity) (h : ∀ dep, (dependency' dep).Extends (dependency dep)) :
    (Act.resolveOne env id dependency').Extends (Act.resolveOne env id dependency) := by
  unfold Act.resolveOne
  cases id.kind with
  | script => exact .refl _
  | solution => exact .refl _
  | project => exact resolveProject_extends id h

/-- What is returned within some depth is returned within any larger one. -/
theorem resolveAt_extends (env : Surroundings σ) {depth depth' : Nat} (hdepth : depth ≤ depth')
    (id : Identity) (path : List Identity) :
    (Act.resolveAt env depth' id path).Extends (Act.resolveAt env depth id path) := by
  induction depth generalizing depth' id path with
  | zero =>
      intro w a w' h
      cases h
  | succ depth ih =>
      obtain ⟨d, rfl⟩ := Nat.exists_eq_add_of_le' (Nat.lt_of_lt_of_le (Nat.succ_pos depth) hdepth)
      rw [Act.resolveAt, Act.resolveAt]
      refine .bind (.refl _) fun answer => ?_
      cases answer with
      | ready r => exact .refl _
      | refused closing => exact .refl _
      | blocked s => exact .refl _
      | claimed s id' =>
          refine .bind (.computing (resolveOne_extends id' fun dep => ?_) s) fun _ => .refl _
          exact ih (Nat.le_of_succ_le_succ hdepth) dep _

end

/-! ## What is in progress -/

/-- The identities whose entries are in progress, in the map or not. -/
def Cache.inProgress {ν : Type} (c : Cache ν) : List Identity :=
  (c.entries.filter (·.state.owner?.isSome)).map (·.id)

theorem EntryState.isSome_owner?_iff {ν : Type} (state : EntryState ν) :
    state.owner?.isSome = true ↔ ∃ owner marks, state = .inProgress owner marks := by
  cases state <;> simp [EntryState.owner?]

/-- Every entry in progress is in the map. -/
def Cache.Attached {ν : Type} (c : Cache ν) : Prop :=
  ∀ (s : Serial) e owner marks, c.entries[s]? = some e →
    e.state = .inProgress owner marks → e.listed = true

section

variable {ν : Type} {c c' : Cache ν}

theorem Cache.Attached.claim {me : Thread} {l : Location} {s : Serial} {id : Identity}
    (h : c.Attached) (hc : c.Claims me l s id c') : c'.Attached := by
  intro t e owner marks he hs
  by_cases ht : t = s
  · subst ht
    obtain rfl := Option.some.inj (hc.entry.symm.trans he)
    rfl
  · exact h t e owner marks ((hc.others t ht).symm.trans he) hs

theorem Cache.Attached.evolves {fresh : ν → Prop} (h : c.Attached)
    (he : c.Evolves fresh [] c') : c'.Attached := by
  intro s e owner marks hs hstate
  obtain ⟨f, marks', hf, hfstate⟩ := he.busy s e owner marks hs hstate
  obtain ⟨g, hg, -, hlisted⟩ := he.entry s f hf
  obtain rfl := Option.some.inj (hg.symm.trans hs)
  exact hlisted.mpr ⟨h s f owner marks' hf hfstate, by simp⟩

theorem Cache.Attached.mem_inProgress (h : c.Attached) (l : Location) :
    l ∈ places c.inProgress ↔ c.Busy l := by
  unfold places Cache.inProgress Cache.Busy
  simp only [List.mem_map, List.mem_filter, EntryState.isSome_owner?_iff]
  constructor
  · rintro ⟨-, ⟨e, ⟨he, owner, marks, hs⟩, rfl⟩, rfl⟩
    obtain ⟨s, he⟩ := List.mem_iff_getElem?.mp he
    exact ⟨s, e, owner, marks, ⟨he, h s e owner marks he hs, rfl⟩, hs⟩
  · rintro ⟨s, e, owner, marks, ⟨he, -, rfl⟩, hs⟩
    exact ⟨e.id, ⟨e, ⟨List.mem_of_getElem? he, owner, marks, hs⟩, rfl⟩, rfl⟩

/-- The map holds one entry for each file, so no file is in progress twice. -/
theorem Cache.Attached.nodup_inProgress (h : c.Attached) (hc : c.Lone) :
    (places c.inProgress).Nodup := by
  unfold places Cache.inProgress
  rw [List.map_map, List.Nodup, List.pairwise_map, List.pairwise_filter, List.pairwise_iff_getElem]
  intro i j hi hj hij hsi hsj hl
  obtain ⟨owner, marks, hsi⟩ := (EntryState.isSome_owner?_iff _).mp hsi
  obtain ⟨owner', marks', hsj⟩ := (EntryState.isSome_owner?_iff _).mp hsj
  have hei : c.entries[i]? = some c.entries[i] := List.getElem?_eq_getElem hi
  have hej : c.entries[j]? = some c.entries[j] := List.getElem?_eq_getElem hj
  have heq := hc _ i _ j _ ⟨hei, h _ _ _ _ hei hsi, rfl⟩ ⟨hej, h _ _ _ _ hej hsj, hl.symm⟩
  exact absurd heq (Nat.ne_of_lt hij)

end

/-! ## Moments -/

/-- At some moment while `Act.resolveAt env depth id path` runs, begun in the workspace `w`, the
calls of it under way are those for `calls`, from the outermost on, and the workspace is `w'`. -/
inductive Moment (env : Surroundings Memory) :
    Nat → Identity → List Identity → Workspace Memory → List Identity →
      Workspace Memory → Prop where
  | called {depth : Nat} {id : Identity} {path : List Identity} {w : Workspace Memory} :
      Moment env depth id path w (path ++ [id]) w
  | claimed {depth : Nat} {id id' : Identity} {path : List Identity} {s : Serial}
      {w w₁ : Workspace Memory} :
      Act.request id w = .ok (.claimed s id') w₁ →
      Moment env (depth + 1) id path w (path ++ [id]) w₁
  | cracked {depth : Nat} {id id' : Identity} {path : List Identity}
      {s : Serial} {report : CrackReport}
      {w w₁ w₂ : Workspace Memory} :
      Act.request id w = .ok (.claimed s id') w₁ → id'.kind = .project →
      env.crack id'.location w₁ = .ok report w₂ →
      Moment env (depth + 1) id path w (path ++ [id]) w₂
  /-- Some references were followed. -/
  | linked {depth : Nat} {id id' : Identity} {path : List Identity}
      {s : Serial} {report : CrackReport}
      {before after : List Path} {linked : Act.Linked} {w w₁ w₂ w₃ : Workspace Memory} :
      Act.request id w = .ok (.claimed s id') w₁ → id'.kind = .project →
      env.crack id'.location w₁ = .ok report w₂ → report.error = none →
      report.projectReferences = before ++ after →
      before.foldlM (Act.link env id' fun dep =>
        Act.resolveAt env depth dep (path ++ [id'])) Act.Linked.start w₂ =
        .ok linked w₃ →
      Moment env (depth + 1) id path w (path ++ [id]) w₃
  /-- Another reference is being followed. -/
  | within {depth : Nat} {id id' dep : Identity} {path calls : List Identity}
      {s : Serial} {report : CrackReport}
      {before after : List Path} {reference : Path} {linked : Act.Linked}
      {w w₁ w₂ w₃ w₄ w' : Workspace Memory} :
      Act.request id w = .ok (.claimed s id') w₁ → id'.kind = .project →
      env.crack id'.location w₁ = .ok report w₂ → report.error = none →
      report.projectReferences = before ++ reference :: after →
      before.foldlM (Act.link env id' fun dep =>
        Act.resolveAt env depth dep (path ++ [id'])) Act.Linked.start w₂ =
        .ok linked w₃ →
      Act.referencedProject? env id' reference w₃ = .ok (some dep) w₄ →
      Moment env depth dep (path ++ [id']) w₄ calls w' →
      Moment env (depth + 1) id path w calls w'
  /-- The result is made and did not arrive yet. -/
  | made {depth : Nat} {id id' : Identity} {path : List Identity} {s : Serial} {r : Resolution}
      {w w₁ w₂ : Workspace Memory} :
      Act.request id w = .ok (.claimed s id') w₁ →
      Act.resolveOne env id' (fun dep => Act.resolveAt env depth dep (path ++ [id'])) w₁ =
        .ok r w₂ →
      Moment env (depth + 1) id path w (path ++ [id]) w₂
  | returned {depth : Nat} {id : Identity} {path : List Identity}
      {a : Except (List Identity) Resolution}
      {w w' : Workspace Memory} :
      Act.resolveAt env depth id path w = .ok a w' → Moment env depth id path w (path ++ [id]) w'

/-- The calls for `path` follow references, and within the last of them `id` was asked for. The
entries in progress are those of `running`. -/
structure Workspace.Midway (report : Location → CrackReport) (known : List Location)
    (path : List Identity) (id : Identity) (running : List Identity)
    (w : Workspace Memory) : Prop where
  nests : w.Nests report running
  attached : w.cache.Attached
  running : running = path ∨ running = path ++ [id]
  nodup : (places path).Nodup
  known : ∀ l ∈ places path, l ∈ known

section

variable {report : Location → CrackReport} {known : List Location} {path running : List Identity}
  {id : Identity} {w w' : Workspace Memory}

/-- Stamps have no part in what is in progress. -/
theorem Workspace.Midway.stamped (h : w.Midway report known path id running) (made : Nat) :
    Workspace.Midway report known path id running { w with made } where
  nests := ⟨⟨h.nests.tidy.lone, h.nests.tidy.owned, h.nests.tidy.entries, h.nests.tidy.known⟩,
    h.nests.table, h.nests.busy⟩
  attached := h.attached
  running := h.running
  nodup := h.nodup
  known := h.known

theorem Workspace.Midway.still (h : w.Midway report known path id running) (hs : Still w w') :
    w'.Midway report known path id running :=
  { h with
    nests := h.nests.still hs
    attached := h.attached.evolves hs.elapsed.cache }

/-- A file that is asked for and claimed is not on the path yet. -/
theorem Workspace.Midway.claim {s : Serial} {id' : Identity}
    (h : w.Midway report known path id path) (hid : id.WellFormed)
    (hreq : Act.request id w = .ok (.claimed s id') w') :
    id' = id ∧ id.location ∉ places path ∧ w'.Midway report known path id (path ++ [id]) := by
  rcases request_cases hid h.nests.tidy with ⟨r, hr, -⟩ | ⟨hr, -⟩ | ⟨t, c, hr, hc⟩
  · cases hr.symm.trans hreq
  · cases hr.symm.trans hreq
  · cases hr.symm.trans hreq
    refine ⟨rfl, fun hm => hc.not_busy h.nests.tidy.lone ((h.nests.busy _).mpr hm), ?_⟩
    exact {
      nests := ⟨h.nests.tidy.claim hid hc, h.nests.table, (h.nests.claim hid hc).busy⟩
      attached := h.attached.claim hc
      running := Or.inr rfl
      nodup := h.nodup
      known := h.known }

/-- A crack is counted, and reports what the table says. -/
theorem Workspace.Midway.crack {l : Location} {cracked : CrackReport}
    (h : w.Midway report known path id running)
    (hcrack : Memory.surroundings.crack l w = .ok cracked w') :
    cracked = report l ∧ w'.Midway report known path id running := by
  cases hcrack
  exact ⟨h.nests.table l, { h with nests := ⟨h.nests.tidy.outside _, h.nests.table, h.nests.busy⟩ }⟩

/-- A project that follows references asks for another one. -/
theorem Workspace.Midway.within (h : w.Midway report known path id (path ++ [id]))
    (hknown : ∀ l, (report l).error = none → l ∈ known) (herror : (report id.location).error = none)
    (hnew : id.location ∉ places path) (dep : Identity) :
    w.Midway report known (path ++ [id]) dep (path ++ [id]) where
  nests := h.nests
  attached := h.attached
  running := Or.inl rfl
  nodup := nodup_places_concat h.nodup hnew
  known l hl := by
    rcases mem_places_concat.mp hl with hl | rfl
    · exact h.known l hl
    · exact hknown _ herror

/-- Following some references changes nothing of what is in progress. -/
theorem Workspace.Midway.linked {depth : Nat} {references : List Path} {linked linked' : Act.Linked}
    (h : w.Midway report known path id running)
    (hfold : references.foldlM (Act.link Memory.surroundings id fun dep =>
      Act.resolveAt Memory.surroundings depth dep (path ++ [id])) linked w = .ok linked' w')
    (hid : id.WellFormed) : w'.Midway report known path id running := by
  have hsteps :
    Steps Memory.surroundings
    (.follow id (path ++ [id]) (references.filterMap id.referenced?) linked) w
      (.followed linked') w' :=
    Steps.of_foldlM surroundings_mild
      (fun _ _ _ _ hd hw => Steps.of_resolveAt surroundings_mild hd hw) h.nests.tidy
      hfold
  refine h.still (hsteps.still ⟨hid, fun dep hdep => ?_⟩ h.nests.tidy).1
  obtain ⟨reference, -, hr⟩ := List.mem_filterMap.mp hdep
  exact Identity.referenced?_wellFormed hr

/-- Nor does making a result, while it did not arrive. -/
theorem Workspace.Midway.made {depth : Nat} {r : Resolution}
    (h : w.Midway report known path id running)
    (hone : Act.resolveOne Memory.surroundings id
      (fun dep => Act.resolveAt Memory.surroundings depth dep (path ++ [id])) w = .ok r w')
    (hid : id.WellFormed) : w'.Midway report known path id running := by
  unfold Act.resolveOne at hone
  cases hk : id.kind with
  | script =>
      rw [hk] at hone
      cases (resolveScript_eq _ id w).symm.trans hone
      exact h.stamped _
  | solution =>
      rw [hk] at hone
      cases hone
      exact h.stamped _
  | project =>
      rw [hk] at hone
      obtain ⟨report, w₁, w₂, loadTime, linked, hcrack, hsteps, -, rfl⟩ :=
        resolveProject_steps surroundings_mild
        (fun _ _ _ _ hd hw => Steps.of_resolveAt surroundings_mild hd hw) h.nests.tidy hone
      obtain ⟨-, hcracked⟩ := h.crack hcrack
      exact (hcracked.still (hsteps.still (.links hid _ _ _) hcracked.nests.tidy).1).stamped _

/-- At every moment of a resolution, what is in progress belongs to the calls that are under way. -/
theorem Moment.midway {depth : Nat} {calls : List Identity}
    (h : Moment Memory.surroundings depth id path w calls w')
    (hknown : ∀ l, (report l).error = none → l ∈ known) (hid : id.WellFormed)
    (hw : w.Midway report known path id path) :
    ∃ path' id' running, calls = path' ++ [id'] ∧ w'.Midway report known path' id' running := by
  induction h with
  | called => exact ⟨_, _, _, rfl, hw⟩
  | claimed hreq =>
      obtain ⟨rfl, -, hclaimed⟩ := hw.claim hid hreq
      exact ⟨_, _, _, rfl, hclaimed⟩
  | cracked hreq _ hcrack =>
      obtain ⟨rfl, -, hclaimed⟩ := hw.claim hid hreq
      exact ⟨_, _, _, rfl, (hclaimed.crack hcrack).2⟩
  | linked hreq _ hcrack _ _ hfold =>
      obtain ⟨rfl, -, hclaimed⟩ := hw.claim hid hreq
      exact ⟨_, _, _, rfl, (hclaimed.crack hcrack).2.linked hfold hid⟩
  | within hreq _ hcrack herror _ hfold hdep _ ih =>
      obtain ⟨rfl, hnew, hclaimed⟩ := hw.claim hid hreq
      obtain ⟨rfl, hcracked⟩ := hclaimed.crack hcrack
      rw [referencedProject?_eq surroundings_mild.rooted] at hdep
      obtain ⟨hproject, rfl⟩ := Act.pure_eq_ok.mp hdep
      exact ih (Identity.referenced?_wellFormed hproject).1
        ((hcracked.linked hfold hid).within hknown herror hnew _)
  | made hreq hone =>
      obtain ⟨rfl, -, hclaimed⟩ := hw.claim hid hreq
      exact ⟨_, _, _, rfl, hclaimed.made hone hid⟩
  | returned hret =>
      have hs := Steps.of_resolveAt surroundings_mild hid hw.nests.tidy hret
      exact ⟨_, _, _, rfl, hw.still (hs.still hid hw.nests.tidy).1⟩

/-- Between resolutions nothing is in progress. -/
theorem Workspace.Quiet.midway (hw : w.Quiet) (id : Identity) :
    w.Midway w.outside.report known [] id [] where
  nests := ⟨hw.tidy, fun _ => rfl, hw.idle.busy_iff⟩
  attached s e owner marks he hs := absurd hs (hw.idle s e owner marks he)
  running := Or.inl rfl
  nodup := .nil
  known _ hl := absurd hl List.not_mem_nil

/-- Every call but the last is for a project that the table knows, and these are in progress. -/
theorem Workspace.Midway.bounds (h : w.Midway report known path id running) :
    (places w.cache.inProgress).Nodup ∧
      (∀ l ∈ places w.cache.inProgress, l ∈ places (path ++ [id])) ∧
      (∀ l ∈ places path, l ∈ places w.cache.inProgress) ∧
        (path ++ [id]).length ≤ known.length + 1 := by
  have hmem : ∀ l, l ∈ places w.cache.inProgress ↔ l ∈ places running := fun l =>
    (h.attached.mem_inProgress l).trans (h.nests.busy l)
  refine ⟨h.attached.nodup_inProgress h.nests.tidy.lone, fun l hl => ?_, fun l hl => ?_, ?_⟩
  · rw [hmem] at hl
    rcases h.running with rfl | rfl
    · exact mem_places_concat.mpr (Or.inl hl)
    · exact hl
  · rw [hmem]
    rcases h.running with rfl | rfl
    · exact hl
    · exact mem_places_concat.mpr (Or.inl hl)
  · have hle := (List.Nodup.subperm h.nodup h.known).length_le
    rw [places, List.length_map] at hle
    rw [List.length_append, List.length_singleton]
    omega

end

/-! ## The bound -/

def Memory.known (m : Memory) : List Location := (m.reports.map (·.1)).dedup

theorem Memory.mem_known_of_report {m : Memory} {l : Location}
    (h : (m.report l).error = none) : l ∈ m.known := by
  unfold Memory.report at h
  cases hlookup : m.reports.lookup l with
  | none =>
      rw [hlookup] at h
      cases h
  | some report =>
      obtain ⟨before, after, hsplit, -⟩ := List.lookup_eq_some_iff.mp hlookup
      exact List.mem_dedup.mpr (List.mem_map.mpr ⟨(l, report), by simp [hsplit], rfl⟩)

theorem Memory.known_length_lt_depth (m : Memory) : m.known.length < m.depth := by
  have hle : m.known.length ≤ m.reports.length :=
    calc m.known.length
        ≤ (m.reports.map (·.1)).length := (List.dedup_sublist _).length_le
      _ = m.reports.length := List.length_map _
  unfold Memory.depth
  omega

/-- Between resolutions, a file is resolved with the same outcome within every depth above the
size of the table. -/
theorem Workspace.Quiet.resolves {w : Workspace Memory} (hw : w.Quiet) {id : Identity}
    (hid : id.WellFormed) :
    ∃ r w', ∀ depth, w.outside.known.length < depth →
      Act.resolveAt Memory.surroundings depth id [] w = .ok (.ok r) w' := by
  have hnests : w.Nests w.outside.report [] := ⟨hw.tidy, fun _ => rfl, hw.idle.busy_iff⟩
  obtain ⟨a, w', h⟩ := resolveAt_returns (fun _ => Memory.mem_known_of_report) hid hnests .nil
    (fun _ hl => absurd hl List.not_mem_nil) (Nat.lt_succ_self _)
  cases a with
  | error members =>
      -- the rules refuse only what is in progress
      cases Steps.of_resolveAt surroundings_mild hid hw.tidy h with
      | refused hbusy => exact absurd hbusy (hw.idle.not_busy _)
  | ok r => exact ⟨r, w', fun depth hdepth => resolveAt_extends _ hdepth id [] _ _ _ h⟩

/-- **Resolving ends.** After any operations, on any table, options of a script or project are
returned, and they are what resolving it returns within any depth above the number of projects in
the table. At every moment of a resolution no file is in progress twice, the files in progress are
those of the calls under way, perhaps without the last, and there is at most one call more than
there are projects in the table. -/
theorem options_ends (m : Memory) (ops : List Operation) :
    ∃ w, Operation.runAll ops (.fresh m) = .ok () w ∧
      ∀ id : Identity, id.WellFormed → id.kind.isResolvable = true →
        (∃ r w', Act.options Memory.surroundings id w = .ok (.ok r) w' ∧
          ∀ depth, w.outside.known.length < depth →
            Act.resolveAt Memory.surroundings depth id [] w = .ok (.ok r) w') ∧
        ∀ depth calls w', Moment Memory.surroundings depth id [] w calls w' →
          (places w'.cache.inProgress).Nodup ∧
            w'.cache.inProgress.length ≤ w.outside.known.length + 1 ∧
          (∀ l ∈ places w'.cache.inProgress, l ∈ places calls) ∧
          (∀ l ∈ places calls.dropLast, l ∈ places w'.cache.inProgress) ∧
          calls.length ≤ w.outside.known.length + 1 := by
  obtain ⟨w, hrun, hw, -⟩ := Operation.runAll_declaring m ops
  refine ⟨w, hrun, fun id hid hk => ⟨?_, fun depth calls w' h => ?_⟩⟩
  · obtain ⟨r, w', hr⟩ := hw.resolves hid
    refine ⟨r, w', ?_, hr⟩
    unfold Act.options Act.resolve
    rw [if_pos hk]
    have hat := hr _ (Memory.known_length_lt_depth w.outside)
    exact Act.bind_ok (Act.bind_ok (a := w.outside) rfl (Act.bind_ok hat rfl)) rfl
  · obtain ⟨path, last, running, rfl, hmid⟩ :=
      h.midway (fun _ => Memory.mem_known_of_report) hid (hw.midway id)
    obtain ⟨hnodup, hcalls, hpath, hlength⟩ := hmid.bounds
    refine ⟨hnodup, ?_, hcalls, ?_, hlength⟩
    · have hle := (List.Nodup.subperm hnodup hcalls).length_le
      rw [places, places, List.length_map, List.length_map] at hle
      exact hle.trans hlength
    · rw [List.dropLast_concat]
      exact hpath

/-- A project that references itself, and one that the table does not know. -/
def loopAndUnknown : Memory := Memory.listing [("a.fsproj", ["a.fsproj", "b.fsproj"])]

/-- The first reference was refused, and the supplier for the second one has started. -/
theorem loopAndUnknown_moment : ∃ calls w',
    Moment Memory.surroundings 2 ⟨Memory.locate ⟨"a.fsproj"⟩,
      .project⟩ [] (.fresh loopAndUnknown) calls w' ∧
      w'.cache.inProgress.length = 2 :=
  ⟨_, _, .within rfl rfl rfl rfl (rfl : _ = [(⟨"a.fsproj"⟩ : Path)] ++ ⟨"b.fsproj"⟩ :: [])
    rfl rfl (.claimed rfl), rfl⟩

theorem options_ends_loopAndUnknown : loopAndUnknown.known.length = 1 ∧
    ∃ r w' calls w₁,
      Act.options Memory.surroundings ⟨Memory.locate ⟨"a.fsproj"⟩,
        .project⟩ (.fresh loopAndUnknown) = .ok (.ok r) w' ∧
      Moment Memory.surroundings 2 ⟨Memory.locate ⟨"a.fsproj"⟩,
        .project⟩ [] (.fresh loopAndUnknown) calls w₁ ∧
      w₁.cache.inProgress.length = 2 ∧ (places w₁.cache.inProgress).Nodup ∧
      calls.length ≤ loopAndUnknown.known.length + 1 := by
  obtain ⟨w, hrun, h⟩ := options_ends loopAndUnknown []
  obtain ⟨-, rfl⟩ := Act.pure_eq_ok.mp hrun
  obtain ⟨⟨r, w', hr, -⟩, hmoments⟩ :=
    h ⟨Memory.locate ⟨"a.fsproj"⟩, .project⟩ (Identity.of_wellFormed (p := ⟨"a.fsproj"⟩) rfl) rfl
  obtain ⟨calls, w₁, hmoment, hlength⟩ := loopAndUnknown_moment
  obtain ⟨hnodup, -, -, -, hcalls⟩ := hmoments _ _ _ hmoment
  exact ⟨by decide +kernel, r, w', calls, w₁, hr, hmoment, hlength, hnodup, hcalls⟩

end FSharpWorkspace
