import FSharpWorkspace.Proofs.Sequential.Charted
/-!
# Which circles are told of

Over a table that never changes, a resolved project on a circle is not always told of it: a result
remembers one circle only, and tells of no other. The table may have overlapping circles, and it
depends on the order of references and queries which of them is found through a project
(`unmarked_on_circle`). What does hold is `options_marked`.

For a project that ties its tangle, the argument follows the first resolution that enters the tangle
after it. Each project on this way is told of a circle by the first of its references that belongs
to the tangle, and as nothing of the tangle was resolved before, this circle goes back at least as
far as the project that ties it (`foundRule`).
-/

set_option autoImplicit false

namespace FSharpWorkspace

open Relation (ReflTransGen TransGen)

/-! ## The circles that answers tell of -/

/-- The members of the circle that an answer tells of. -/
def Answer.members : Except (List Identity) Resolution → List Identity
  | .ok r => r.cycle
  | .error members => members

def Workspace.Unresolved (m : Memory) (l : Location) (w : Workspace Memory) : Prop :=
  ∀ x, m.Tangled l x → w.cache.peek x = none

/-- What comes of resolving the file `id` while the projects on `path` are being resolved. -/
structure Found (m : Memory) (id : Identity) (path : List Identity) (w : Workspace Memory)
    (a : Except (List Identity) Resolution) (w' : Workspace Memory) : Prop where
  searching : w'.Searching m path
  refused : ∀ members, a = .error members → ∀ z, path.getLast? = some z →
    Encircled m.Links z.location members
  /-- In a tangle in which nothing was resolved, the answer tells of a circle through everything on
  the path from the project that ties the tangle on. -/
  tied : ∀ l pre post, m.Ties l → m.Tangled l id.location →
    places path = pre ++ l :: post → w.Unresolved m l →
    ∀ y ∈ l :: post, y ∈ places (Answer.members a)

/-- What comes of following the references `deps` of `id`, which is at the end of `path`. -/
structure FoundAll (m : Memory) (id : Identity) (path deps : List Identity) (w : Workspace Memory)
    (outcomes : Outcomes) (w' : Workspace Memory) : Prop where
  searching : w'.Searching m path
  refused : ∀ dep members, (dep, .error members) ∈ outcomes → Encircled m.Links id.location members
  tied : ∀ l pre post, m.Ties l → m.Tangled l id.location →
    places path = pre ++ l :: post → w.Unresolved m l →
    (∃ dep ∈ deps, m.Tangled l dep.location) → ∀ linked : Act.Linked, linked.cycle = [] →
    ∀ y ∈ l :: post, y ∈ places (linked.addAll id outcomes).cycle

theorem Act.Linked.add_cycle_of_mem {id dep : Identity} {linked : Act.Linked}
    (h : linked.cycle = []) {a : Except (List Identity) Resolution}
    (hid : id.location ∈ places (Answer.members a)) :
    (linked.add id dep a).cycle = Answer.members a := by
  rw [Act.Linked.add_cycle id dep h]
  cases a with
  | ok r => exact if_pos hid
  | error members => rfl

section

variable {m : Memory} {path deps : List Identity} {w w₁ w' : Workspace Memory} {id dep : Identity}
  {l : Location} {a : Except (List Identity) Resolution} {outcomes : Outcomes}

/-- A reference that leaves the tangle tells of no circle. -/
theorem Found.silent (h : Found m dep path w a w₁) (hw : w.Searching m path)
    (hf : Fetched [] dep w a w₁) (hlast : path.getLast? = some id) (hid : m.Tangled l id.location)
    (hlink : m.Links id.location dep.location) (hdep : ¬ m.Tangled l dep.location)
    {linked : Act.Linked} (hc : linked.cycle = []) :
    (linked.add id dep a).cycle = [] := by
  rw [Act.Linked.add_cycle id dep hc]
  cases a with
  | error members =>
      exfalso
      have hmem := (hw.busy _).mp (hf.refused members rfl).1
      have hback := reach_getLast hw.chain hmem (places_getLast? hlast)
      exact hdep (hid.trans_circle (.single hlink) hback)
  | ok r =>
      refine if_neg fun hmem => ?_
      have hne : r.cycle ≠ [] := by
        intro hnil
        rw [hnil] at hmem
        cases hmem
      have henc := h.searching.ringed _ r hf.peek hne
      exact hdep (hid.trans_circle (.single hlink)
        (henc.ring.transGen henc.mem hmem).to_reflTransGen)

/-- A reference that leaves the tangle resolves nothing of it. -/
theorem Workspace.Searching.unresolved (hw : w.Searching m path) (hf : Fetched [] dep w a w₁)
    (hid : m.Tangled l id.location) (hlink : m.Links id.location dep.location)
    (hdep : ¬ m.Tangled l dep.location) (h : w.Unresolved m l) : w₁.Unresolved m l := by
  intro x hx
  refine Option.eq_none_iff_forall_ne_some.mpr fun u hu => ?_
  rcases hw.reached hf hu with hp | hreach
  · cases (h x hx).symm.trans hp
  · exact hdep (hid.between (.single hlink) (hreach.trans hx.2))

/-- One reference after the other. -/
theorem FoundAll.cons (hw : w.Searching m path) (hlast : path.getLast? = some id)
    (hlink : m.Links id.location dep.location) (hf : Fetched [] dep w a w₁)
    (h : Found m dep path w a w₁) (h' : FoundAll m id path deps w₁ outcomes w') :
    FoundAll m id path (dep :: deps) w ((dep, a) :: outcomes) w' where
  searching := h'.searching
  refused d members hd := by
    rcases List.mem_cons.mp hd with he | hd
    · cases he
      exact h.refused members rfl id hlast
    · exact h'.refused d members hd
  tied l pre post hl hid hpath hnone hsome linked hc y hy := by
    rw [Act.Linked.addAll_cons]
    by_cases hdep : m.Tangled l dep.location
    · -- the first reference in the tangle decides
      have hall := h.tied l pre post hl hdep hpath hnone
      have hself : id.location ∈ l :: post := by
        have hend := places_getLast? hlast
        rw [hpath, List.getLast?_append_of_ne_nil _ (by simp)] at hend
        exact List.mem_of_getLast? hend
      have hadd : (linked.add id dep a).cycle = Answer.members a :=
        Act.Linked.add_cycle_of_mem hc (hall _ hself)
      have hne : (linked.add id dep a).cycle ≠ [] := by
        rw [hadd]
        intro hnil
        have hl := hall _ hself
        rw [hnil] at hl
        cases hl
      rw [Act.Linked.addAll_cycle_of_ne_nil id outcomes hne, hadd]
      exact hall y hy
    · obtain ⟨d, hd, htd⟩ := hsome
      have hd' : d ∈ deps := by
        rcases List.mem_cons.mp hd with rfl | hd
        · exact absurd htd hdep
        · exact hd
      exact h'.tied l pre post hl hid hpath (hw.unresolved hf hid hlink hdep hnone) ⟨d, hd', htd⟩ _
        (h.silent hw hf hlast hid hlink hdep hc) y hy

/-! ## The rule -/

/-- A project whose references were followed with nothing of its tangle resolved remembers a circle
through everything on the path from the project that ties the tangle on. -/
theorem FoundAll.mem_cycle {r : Resolution}
    (h : FoundAll m r.id path ((m.report r.id.location).links r.id) w outcomes w')
    (hmade : (m.report r.id.location).Made outcomes r) (hk : r.id.kind = .project)
    {pre post : List Location} (hl : m.Ties l) (ht : m.Tangled l r.id.location)
    (hpath : places path = pre ++ l :: post) (hnone : w.Unresolved m l) :
    ∀ y ∈ l :: post, y ∈ places r.cycle := by
  obtain ⟨y, hlink, hty⟩ := hl.next ht
  obtain ⟨dep, hdep, rfl⟩ := List.mem_map.mp ((Memory.links_iff hk).mp hlink)
  rw [hmade.cycle]
  exact h.tied l pre post hl ht hpath hnone ⟨dep, hdep, hty⟩ _ rfl

/-- A project is told of a circle by a reference that was refused, or by one that is
on this very circle. -/
theorem CrackReport.Made.because {report : CrackReport} {r : Resolution}
    (hmade : report.Made outcomes r) (hf : Followed [] (report.links r.id) w outcomes w')
    (hc : r.cycle ≠ []) :
    (∃ x, r.Cuts x) ∨ ∃ o p, (o, p) ∈ r.references ∧ r.id.location ∈ places p.cycle := by
  generalize hm : r.cycle = members at *
  have htells := hm ▸ hmade.tells (hm ▸ hc)
  cases htells with
  | @refused dep _ hmem =>
      refine Or.inl ⟨dep.location, ⟨dep, ?_, rfl⟩, fun o p hp hplace => ?_⟩
      · rw [hmade.declared, ← hmade.links]
        exact List.mem_map.mpr ⟨_, hmem, rfl⟩
      · -- what is held was not in progress, and what was refused was
        rw [hmade.references] at hp
        have hidle := (hf.flight.trail [] p (.root hp (by simp))).idle
        rw [hplace] at hidle
        exact hidle (hf.refused dep members hmem).1
  | @named dep p hmem hl =>
      refine Or.inr ⟨p.target, p, ?_, hl⟩
      rw [hmade.references]
      exact Outcomes.mem_held.mpr ⟨rfl, dep, hmem⟩

theorem foundRule (m : Memory) : ResolveRule (· = [])
    (fun E id path w a w' => E = [] ∧
      (w.Searching m path → (places (path ++ [id])).IsChain m.Links → Found m id path w a w'))
    (fun E id path deps w outcomes w' => E = [] ∧
      (path.getLast? = some id → w.Searching m path →
        (∀ dep ∈ deps, m.Links id.location dep.location) →
        FoundAll m id path deps w outcomes w')) where
  ready hw hid hp := by
    refine ⟨rfl, fun hs _ => ⟨hs, nofun, fun l pre post hl ht _ hnone => ?_⟩⟩
    cases (hnone _ ht).symm.trans hp
  refused hw hid hb := by
    refine ⟨rfl, fun hs hchain => ?_⟩
    have hmem := (hs.busy _).mp hb
    refine ⟨hs, fun members hm z hz => ?_, fun l pre post hl ht hpath _ => ?_⟩
    · cases hm
      exact circle_encircled hz hmem hchain
    · exact hl.mem_circle hpath hs.nodup hmem ht hchain
  leaf hw hid hk harr hr := by
    refine ⟨rfl, fun hs hchain => ?_⟩
    obtain rfl := hr.id
    have hs₁ := hs.claim hid harr.claim hchain
    have hproject : ∀ l, m.Ties l → ¬ m.Tangled l _ := fun l hl ht => hk (hl.project ht hid rfl)
    refine ⟨hs.arrive hs₁ harr (absurd hr.cycle) (absurd hr.cycle) ?_, nofun, ?_⟩
    · exact fun hl => absurd ⟨.refl, .refl⟩ (hproject _ hl)
    · exact fun l pre post hl ht => absurd ht (hproject l hl)
  project := by
    intro E xs ys id path w w₁ w₂ s c report outcomes r hw hid hk hxs hys hx hf hq harr hmade hrid
    subst hxs hys hrid
    obtain ⟨rfl, hq⟩ := hq
    refine ⟨rfl, fun hs hchain => ?_⟩
    obtain ⟨hs₁, rfl, hcache⟩ := (hs.claim hid harr.claim hchain).cracks hx
    have hall :=
      hq (by simp) hs₁ fun dep hdep => (Memory.links_iff hk).mpr (List.mem_map.mpr ⟨dep, hdep, rfl⟩)
    -- the claim and the crack resolve nothing
    have hunresolved : ∀ l, w.Unresolved m l → w₁.Unresolved m l := by
      intro l hnone x hx
      rw [hcache]
      exact (harr.claim.peek hw.tidy.lone x).trans (hnone x hx)
    refine ⟨hs.arrive hall.searching harr ?_ (hmade.because hf) ?_, nofun, ?_⟩
    · intro hne
      refine hmade.encircled (fun dep hd => hall.refused dep _ hd) (fun o p hp hc _ => ?_) hne
      rw [← hc] at hne ⊢
      exact hall.searching.ringed _ p (harr.kept.held hp) hne
    · -- when the project that ties the tangle was claimed, nothing of the tangle was resolved
      intro hl hnil
      have hnew : ¬ w.Touched r.id.location := by
        rintro (hb | ⟨u, hu⟩)
        · exact harr.claim.not_busy hw.tidy.lone hb
        · cases (harr.claim.peek_eq_none hw.tidy.lone).symm.trans hu
      have hmem := hall.mem_cycle hmade hk hl ⟨.refl, .refl⟩ (places_concat path r.id)
        (hunresolved _ fun x hx => hs.untouched hl hnew hx) r.id.location (by simp)
      rw [hnil] at hmem
      cases hmem
    · intro l pre post hl ht hpath hnone y hy
      have hend : places (path ++ [r.id]) = pre ++ l :: (post ++ [r.id.location]) := by
        rw [places_concat, hpath]
        simp
      exact hall.mem_cycle hmade hk hl ht hend (hunresolved l hnone) y
        (List.mem_cons.mpr ((List.mem_cons.mp hy).imp_right (List.mem_append_left _)))
  nil hw := by
    refine ⟨rfl, fun _ hs _ => ⟨hs, nofun, fun l pre post _ _ _ _ hsome => ?_⟩⟩
    obtain ⟨dep, hdep, -⟩ := hsome
    cases hdep
  cons := by
    intro E E' id path dep deps w w₁ w' a outcomes hw hid _ hf hP hf' hQ
    obtain ⟨rfl, hP⟩ := hP
    obtain ⟨rfl, hQ⟩ := hQ
    refine ⟨rfl, fun hlast hs hlinks => ?_⟩
    have hlink := hlinks dep List.mem_cons_self
    have hfound := hP hs (isChain_places_concat hlast hs.chain hlink)
    exact .cons hs hlast hlink hf hfound
      (hQ hlast hfound.searching fun d hd => hlinks d (List.mem_cons_of_mem _ hd))

/-! ## Sequences of queries -/

/-- Options are returned, and leave circles charted. -/
theorem Workspace.Searching.options (hw : w.Searching m []) (p : Path) :
    ∃ w', (Query.options p).run Memory.surroundings w = .ok () w' ∧ w'.Searching m [] := by
  have hb : ∀ x, ¬ w.cache.Busy x := fun x hx => by simpa [places] using (hw.busy x).mp hx
  show ∃ w', Act.withIdentity p (fun id => discard (Act.options Memory.surroundings id)) w =
    .ok () w' ∧ _
  unfold Act.withIdentity
  cases hid : Identity.of Memory.locate p with
  | error e => exact ⟨w, rfl, hw⟩
  | ok id =>
      by_cases hk : id.kind.isResolvable = true
      · have hwf := Identity.of_wellFormed hid
        obtain ⟨r, w', h, hs⟩ := options_returns hwf hk hw.tidy hb
        obtain ⟨E, -, -, hfound⟩ := hs.brings surroundings_cracksWithin (foundRule m) hwf hw.sound
        exact ⟨w', discard_ok h, (hfound hw (List.isChain_singleton _)).searching⟩
      · have hnone : Act.options Memory.surroundings id w =
            .ok (.error (.unresolvable id.location)) w := by
          unfold Act.options
          rw [if_neg hk]
          rfl
        exact ⟨w, discard_ok hnone, hw⟩

def Query.optionsOfAll (ps : List Path) : Act Memory Unit :=
  ps.forM fun p => (Query.options p).run Memory.surroundings

theorem Workspace.Searching.optionsOfAll (hw : w.Searching m []) (ps : List Path) :
    ∃ w', Query.optionsOfAll ps w = .ok () w' ∧ w'.Searching m [] := by
  induction ps generalizing w with
  | nil => exact ⟨w, rfl, hw⟩
  | cons p ps ih =>
      obtain ⟨w₁, h₁, hw₁⟩ := hw.options p
      obtain ⟨w', h', hw'⟩ := ih hw₁
      exact ⟨w', Act.bind_ok h₁ h', hw'⟩

theorem Workspace.Searching.fresh (m : Memory) : (Workspace.fresh m).Searching m [] where
  toResolving :=
    ⟨⟨.fresh m, fun _ => rfl, (Workspace.Idle.fresh m).busy_iff⟩, .fresh m⟩
  toCharted := .fresh
  nodup := List.nodup_nil
  chain := List.isChain_nil

/-! ## What is told -/

theorem Workspace.Searching.isMarked_iff_cycle (hw : w.Searching m path) {n : Location}
    {r : Resolution} (hr : w.cache.peek n = some r) : r.IsMarked ↔ r.cycle ≠ [] :=
  ((hw.sound.keeps n r hr).reported (by simp)).isMarked_iff

/-- A project is told of a circle if and only if one of its references was refused, or was resolved
and is on a circle through the project. -/
theorem Workspace.Searching.isMarked_iff (hw : w.Searching m path) {n : Location} {r : Resolution}
    (hr : w.cache.peek n = some r) :
    r.IsMarked ↔ (∃ x, r.Cuts x) ∨ ∃ o p, (o, p) ∈ r.references ∧ n ∈ places p.cycle := by
  rw [hw.isMarked_iff_cycle hr]
  refine ⟨hw.because n r hr, fun h => ?_⟩
  have hkeeps := hw.sound.keeps n r hr
  have hreported := hkeeps.reported (by simp)
  by_cases hk : r.id.kind = .project
  · obtain ⟨outcomes, hmade⟩ := hreported.made hk
    rcases h with ⟨x, hx⟩ | ⟨o, p, hp, hn⟩
    · obtain ⟨dep, members, -, hmem⟩ := hmade.refused_of_cuts hx
      exact hmade.cycle_ne_nil (.refused hmem)
    · rw [hmade.references] at hp
      obtain ⟨-, dep, hmem⟩ := Outcomes.mem_held.mp hp
      exact hmade.cycle_ne_nil (.named hmem (hkeeps.place.symm ▸ hn))
  · unfold Resolution.Reported at hreported
    rw [if_neg hk] at hreported
    rcases h with ⟨x, ⟨dep, hdep, -⟩, -⟩ | ⟨o, p, hp, -⟩
    · rw [hreported.declared] at hdep
      cases hdep
    · rw [hreported.references] at hp
      cases hp

/-- Along references that were not refused stamps fall, so some project on each circle
is told of a circle. -/
theorem Workspace.Searching.some_marked (hw : w.Searching m path) {l : Location}
    {members : List Identity} (hc : Encircled m.Links l members)
    (hall : ∀ n ∈ places members, ∃ r, w.cache.peek n = some r) :
    ∃ n ∈ places members, ∃ r, w.cache.peek n = some r ∧ r.IsMarked := by
  by_contra hnone
  have hfall :
    Encircled (fun n n' => (w.cache.peek n).elim 0 (·.stamp) > (w.cache.peek n').elim 0 (·.stamp)) l
      members := by
    refine hc.imp fun n hn n' hn' hlink => ?_
    obtain ⟨r, hr⟩ := hall n hn
    have hkeeps := hw.sound.keeps n r hr
    obtain ⟨y, -, hyn⟩ := TransGen.tail'_iff.mp (hc.ring.transGen hn hn)
    have hk := hyn.project hkeeps.wellFormed hkeeps.place
    obtain ⟨dep, hdep, hplace⟩ := List.mem_map.mp (hw.declares hr hk hlink)
    have hheld : ∃ o p, (o, p) ∈ r.references ∧ p.id.location = n' := by
      by_contra hcut
      refine hnone ⟨n, hn, r, hr, (hw.isMarked_iff hr).mpr (Or.inl ⟨n', ⟨dep, hdep, hplace⟩, ?_⟩)⟩
      exact fun o p hp hpn => hcut ⟨o, p, hp, hpn⟩
    obtain ⟨o, p, hp, rfl⟩ := hheld
    rw [hr, hkeeps.held o p hp]
    exact (hkeeps.grounded.mayHold hp).stamp
  have hself :=
    (hfall.ring.transGen hfall.mem hfall.mem).lift (fun n => (w.cache.peek n).elim 0 (·.stamp))
    (p := (· > ·)) fun _ _ h => h
  rw [Relation.transGen_eq_self] at hself
  exact Nat.lt_irrefl _ hself

end

/-- **Which circles are told of.** The options of some files are asked for, one after the other in
any order, and the table never changes. Then

* a project that ties its tangle is told of a circle, so in a tangle that is one single
  circle every project is;
* any project is told of a circle if and only if one of its references was refused, or was resolved
  and remembers a circle through the project;
* on every circle of resolved projects there is one that is told of a circle. -/
theorem options_marked (m : Memory) (ps : List Path) :
    ∃ w, Query.optionsOfAll ps (.fresh m) = .ok () w ∧
      (∀ l r, w.cache.peek l = some r → m.Ties l → r.IsMarked) ∧
      (∀ l r, w.cache.peek l = some r →
        (r.IsMarked ↔ (∃ x, r.Cuts x) ∨ ∃ o p, (o, p) ∈ r.references ∧ l ∈ places p.cycle)) ∧
      ∀ l members, Encircled m.Links l members →
        (∀ n ∈ places members, ∃ r, w.cache.peek n = some r) →
        ∃ n ∈ places members, ∃ r, w.cache.peek n = some r ∧ r.IsMarked := by
  obtain ⟨w, h, hw⟩ := (Workspace.Searching.fresh m).optionsOfAll ps
  refine ⟨w, h, ?_, fun l r hr => hw.isMarked_iff hr, fun l members => hw.some_marked⟩
  exact fun l r hr hl => (hw.isMarked_iff_cycle hr).mpr (hw.told l r hr hl)

/-- Two circles that share `y.fsproj`. -/
def sharedProject : Memory :=
  .listing [("a.fsproj", ["y.fsproj"]), ("b.fsproj", ["y.fsproj"]),
    ("y.fsproj", ["a.fsproj", "b.fsproj"])]

theorem sharedProject_links :
    sharedProject.Links (Memory.locate ⟨"b.fsproj"⟩) (Memory.locate ⟨"y.fsproj"⟩) ∧
      sharedProject.Links (Memory.locate ⟨"y.fsproj"⟩) (Memory.locate ⟨"b.fsproj"⟩) :=
  ⟨⟨⟨Memory.locate ⟨"y.fsproj"⟩, .project⟩, by decide +kernel, rfl⟩,
    ⟨⟨Memory.locate ⟨"b.fsproj"⟩, .project⟩, by decide +kernel, rfl⟩⟩

set_option maxRecDepth 10000 in
/-- The shared project ties the tangle, so it is told of a circle, here if
`b.fsproj` is asked for. -/
theorem options_marked_sharedProject :
    sharedProject.Ties (Memory.locate ⟨"y.fsproj"⟩) ∧ ∃ w r,
      Query.optionsOfAll [⟨"b.fsproj"⟩] (.fresh sharedProject) = .ok () w ∧
        w.cache.peek (Memory.locate ⟨"y.fsproj"⟩) = some r ∧ r.IsMarked := by
  have hall : ∀ entry ∈ sharedProject.reports, ∀ dep ∈ entry.2.links ⟨entry.1, .project⟩,
      entry.1 = Memory.locate ⟨"y.fsproj"⟩ ∨ dep.location = Memory.locate ⟨"y.fsproj"⟩ := by
    decide +kernel
  have hties : sharedProject.Ties (Memory.locate ⟨"y.fsproj"⟩) := by
    refine ⟨.tail (.single sharedProject_links.2) sharedProject_links.1, fun x _ hx => ?_⟩
    obtain ⟨z, ⟨hlink, hxy, hzy⟩, -⟩ := TransGen.head'_iff.mp hx
    obtain ⟨entry, hentry, rfl, dep, hdep, rfl⟩ := hlink.entry
    exact (hall entry hentry dep hdep).elim hxy hzy
  have hany : (((Query.optionsOfAll [⟨"b.fsproj"⟩]).after (.fresh sharedProject)).cache.peek
      (Memory.locate ⟨"y.fsproj"⟩)).isSome = true := by
    decide +kernel
  obtain ⟨r, hr⟩ := Option.isSome_iff_exists.mp hany
  obtain ⟨w, h, hmarked, -⟩ := options_marked sharedProject [⟨"b.fsproj"⟩]
  have hreturns : (Query.optionsOfAll [⟨"b.fsproj"⟩]).returns (.fresh sharedProject) = true := by
    decide +kernel
  obtain ⟨-, hw⟩ := EStateM.Result.ok.inj ((Act.eq_ok_of_returns hreturns).symm.trans h)
  rw [hw] at hr
  exact ⟨hties, w, r, h, hr, hmarked _ r hr hties⟩

/-! ## A circle that is not told of -/

set_option maxRecDepth 10000 in
/-- If `b.fsproj` is asked for first, `y.fsproj` remembers its circle with `a.fsproj`, and
`b.fsproj` is not told of the one that it is on. -/
theorem unmarked_on_circle : ∃ r,
    (∀ entry ∈ sharedProject.reports, entry.2.error = none) ∧
      (Query.optionsOfAll [⟨"b.fsproj"⟩]).returns (.fresh sharedProject) = true ∧
      ((Query.optionsOfAll [⟨"b.fsproj"⟩]).after (.fresh sharedProject)).cache.peek
        (Memory.locate ⟨"b.fsproj"⟩) =
        some r ∧
      Relation.TransGen sharedProject.Links (Memory.locate ⟨"b.fsproj"⟩)
        (Memory.locate ⟨"b.fsproj"⟩) ∧
      ¬ r.IsMarked := by
  have hany : (((Query.optionsOfAll [⟨"b.fsproj"⟩]).after (.fresh sharedProject)).cache.peek
      (Memory.locate ⟨"b.fsproj"⟩)).any
        (fun r => r.diagnostics.all (·.kind ≠ .cyclicReference)) = true := by
    decide +kernel
  obtain ⟨r, hr, hd⟩ := (Option.any_eq_true _ _).mp hany
  have hcircle := Relation.TransGen.tail (.single sharedProject_links.1) sharedProject_links.2
  refine ⟨r, by decide +kernel, by decide +kernel, hr, hcircle, ?_⟩
  rintro ⟨d, hmem, hk⟩
  exact of_decide_eq_true (List.all_eq_true.mp hd d hmem) hk

end FSharpWorkspace
