import FSharpWorkspace.Proofs.Sequential.Reach
import Mathlib.Order.WellFounded
/-!
# Projects that are entered first

A project on a circle that is asked for first ends last: while it is in progress, the references
of other projects of the circle to it are refused, and these projects are resolved without it.
Their results are never made again while nothing changes. So what is listed for a project
outside the circle depends on where it enters the circle (`dependencies_unlisted`), and hence on
what was asked before.

What is listed can be told from the results that are there. Results are numbered as they are made.
Those that were made while a project was in progress are held by its result, and none that was made
before declares one of these (`Workspace.Bracketed`). So among the projects of a tangle, the one
that was made last holds all the others (`Workspace.Heads.holds`), and everything that is reached is
listed if with any project of a tangle this one is listed (`Workspace.Entered.lists_iff`).
-/

set_option autoImplicit false

namespace FSharpWorkspace

open Relation (ReflTransGen TransGen)
open Resolution (Holds Lists)

/-! ## Brackets -/

/-- The project with the result `r` was in progress from number `b` on. What was made in this time
is held by `r`, and nothing that was made before declares it. -/
structure Workspace.Bracket (w : Workspace Memory) (b : Nat) (r : Resolution) : Prop where
  opened : b ≤ r.stamp
  within : ∀ l u, w.cache.peek l = some u → b ≤ u.stamp → u.stamp ≤ r.stamp → ReflTransGen Holds r u
  before : ∀ l u, w.cache.peek l = some u → u.stamp < b → ∀ dep ∈ u.declared, ∀ q,
    w.cache.peek dep.location = some q → q.stamp < b ∨ r.stamp < q.stamp

def Workspace.Bracketed (w : Workspace Memory) : Prop :=
  ∀ l r, w.cache.peek l = some r → ∃ b, w.Bracket b r

section

variable {m : Memory} {path : List Identity} {told : (Location → CrackReport) → Prop}
  {w w₁ w' : Workspace Memory} {id : Identity} {r u q : Resolution} {b : Nat}

theorem Workspace.Bracketed.of_none (h : ∀ l, w.cache.peek l = none) : w.Bracketed := by
  intro l r hr
  cases (h l).symm.trans hr

theorem Workspace.Bracketed.congr (h : w.Bracketed)
    (hpeek : ∀ l, w'.cache.peek l = w.cache.peek l) :
    w'.Bracketed := by
  intro l r hr
  obtain ⟨b, hb⟩ := h l r ((hpeek l).symm.trans hr)
  refine ⟨b, hb.opened, fun n u hu => hb.within n u ((hpeek n).symm.trans hu),
    fun n u hu hlt dep hdep q hq => ?_⟩
  exact hb.before n u ((hpeek n).symm.trans hu) hlt dep hdep q ((hpeek _).symm.trans hq)

/-- A later result lies outside of all brackets that are there. -/
theorem Workspace.Bracket.later (h : w.Bracket b u) (hnew : u.stamp < r.stamp)
    (hpeek : ∀ l q, w'.cache.peek l = some q → q = r ∨ w.cache.peek l = some q) :
    w'.Bracket b u where
  opened := h.opened
  within l q hq hb hle := by
    rcases hpeek l q hq with rfl | hold
    · exact absurd hnew (Nat.not_lt.mpr hle)
    · exact h.within l q hold hb hle
  before l v hv hlt dep hdep q hq := by
    rcases hpeek l v hv with rfl | hold
    · exact absurd (Nat.lt_of_lt_of_le hlt h.opened) (Nat.lt_asymm hnew)
    · rcases hpeek _ q hq with rfl | hq
      · exact Or.inr hnew
      · exact h.before l v hold hlt dep hdep q hq

/-- The bracket of a result opens when its file is asked for. -/
theorem Fetched.bracket (hf : Fetched [] id w (.ok r) w') (hw : w.Sound []) (hd : w.Declaring told)
    (hnew : w.made ≤ r.stamp) : w'.Bracket w.made r where
  opened := hnew
  within l u hu hle _ := hf.holds_of_new hu hle
  before l u hu hlt dep hdep q hq := by
    have hcache := hf.flight.elapsed.cache
    have hold : w.cache.peek l = some u :=
      (hf.peek_cases hw hu).resolve_right fun hnew => Nat.not_lt.mpr hnew.1 hlt
    -- what it declares had a result by then, or was in progress and still is
    rcases hd.covered l u hold dep hdep with ⟨v, hv⟩ | hb
    · cases (hcache.peek hw.tidy.lone hf.sound.tidy.lone hv (by simp)).symm.trans hq
      exact Or.inl (hw.keeps _ _ hv).stamp
    · cases ((hcache.stays_busy hb (by simp)).peek_eq_none hf.sound.tidy.lone).symm.trans hq

/-- The result of a file in flight is the only one that its arrival adds, and the latest. -/
theorem Workspace.Bracketed.arrive {s : Serial} {c : Cache Resolution} (hb : w₁.Bracketed)
    (hw : w.Sound []) (hw₁ : w₁.Sound []) (hd : w.Declaring told)
    (hc : w.cache.Claims 0 id.location s id c) (hel : Elapsed [] { w with cache := c } w₁)
    (hs : r.stamp = w₁.made) (hf : Fetched [] id w (.ok r) (w₁.arrive s r)) :
    (w₁.arrive s r).Bracketed := by
  have hpeek : ∀ l q, (w₁.arrive s r).cache.peek l = some q → q = r ∨ w₁.cache.peek l = some q :=
    fun l q hq => (hel.peek_arrive_cases hc hw₁.tidy hq).imp_left (·.2)
  intro l u hu
  rcases hpeek l u hu with rfl | hold
  · refine ⟨w.made, hf.bracket hw hd ?_⟩
    rw [hs]
    exact hel.made
  · obtain ⟨b, hb⟩ := hb l u hold
    refine ⟨b, hb.later ?_ hpeek⟩
    rw [hs]
    exact (hw₁.keeps l u hold).stamp

/-- Resolving keeps results bracketed. -/
theorem Steps.bracketed {t : Errand} {a : Answer} (h : Steps Memory.surroundings t w a w')
    (ht : t.WellFormed) (hw : w.Sound []) (hd : w.Declaring fun _ => True)
    (hb : w.Bracketed) : w'.Bracketed := by
  induction h with
  | ready _ => exact hb
  | refused _ => exact hb
  | @leaf id path w s c r hk hc hr hscript =>
      have hpeek : ∀ n, c.peek n = w.cache.peek n := hc.peek hw.tidy.lone
      have hf := (Steps.leaf hk hc hr hscript : Steps _ (.fetch id path) _ _ _).fetched_still ht hw
      exact (hb.congr hpeek).arrive hw (hw.claim ht hc) hd hc (.refl _) hr.stamp hf
  | @project id path w w₁ w₂ s c report loadTime linked r hk hc hcrack hfollow hr ih =>
      have hf := (Steps.project hk hc hcrack hfollow hr).fetched_still ht hw
      cases hcrack
      have hpeek : ∀ n, c.peek n = w.cache.peek n := hc.peek hw.tidy.lone
      have hw₀ :=
        (hw.claim ht hc).outside_of_eq (m := w.outside.countCrack id.location) fun _ => rfl
      have hwf :=
        Errand.WellFormed.links ht (path ++ [id]) (w.outside.report id.location) Act.Linked.start
      obtain ⟨E, outcomes, hfollowed, -, hE⟩ :=
        hfollow.brings surroundings_cracksWithin nothingRule hwf hw₀
      obtain rfl := hE
      have hb₂ := ih hwf hw₀ ((hd.claim hw.tidy hc).outside _) (hb.congr hpeek)
      have hel : Elapsed [] { w with cache := c } w₂ :=
        (countCrack_changes id.location { w with cache := c }).elapsed.trans
          hfollowed.flight.elapsed
      have hs : r.stamp = w₂.made := by rw [hr, CrackReport.result_stamp]
      exact hb₂.arrive hw hfollowed.sound hd hc hel hs hf
  | nil => exact hb
  | @cons id dep path deps linked linked' answer w w₁ w₂ hfetch hfollow ih₁ ih₂ =>
      have hdep := (ht.2 dep (by simp)).1
      have hf := hfetch.fetched_still hdep hw
      obtain ⟨hd₁, -⟩ := hfetch.declaring hdep hw.tidy hd trivial
      exact ih₂ ⟨ht.1, fun d hmem => ht.2 d (by simp [hmem])⟩ hf.sound hd₁ (ih₁ hdep hw hd hb)

/-! ## The project that is entered first -/

/-- Between resolutions over the table `m`, which never changed. -/
structure Workspace.Entered (m : Memory) (w : Workspace Memory) : Prop
    extends Workspace.Searching m [] w where
  declaring : w.Declaring fun _ => True
  bracketed : w.Bracketed

theorem Workspace.Quiet.entered (hw : w.Quiet) (hnone : ∀ l, w.cache.peek l = none)
    (htable : ∀ l, w.outside.report l = m.report l) : w.Entered m where
  toSearching := hw.searching hnone htable
  declaring := by
    refine ⟨fun l r hr => ?_, fun l r hr => ?_, fun l r hr => ?_⟩ <;> cases (hnone l).symm.trans hr
  bracketed := .of_none hnone

theorem Steps.entered (h : Steps Memory.surroundings (.fetch id []) w (.fetched (.ok r)) w')
    (hid : id.WellFormed) (hw : w.Entered m) : w'.Entered m where
  toSearching := h.searching hid hw.toSearching
  declaring := (h.declaring hid hw.tidy hw.declaring trivial).1
  bracketed := h.bracketed hid hw.sound hw.declaring hw.bracketed

theorem Fetches.entered (h : Fetches Memory.surroundings w w') (hw : w.Entered m) : w'.Entered m :=
  h.keeps (fun _ _ _ _ hid hs hw => hs.entered hid hw) hw

/-- Of the projects that are tangled with the one at `l`, the one with the result `q` was entered
first: it was made last. -/
structure Workspace.Heads (m : Memory) (w : Workspace Memory) (l : Location)
    (q : Resolution) : Prop where
  peek : w.cache.peek q.id.location = some q
  tangled : m.Tangled l q.id.location
  last : ∀ x u, m.Tangled l x → w.cache.peek x = some u → u.stamp ≤ q.stamp

variable {l x : Location} {order : List Resolution}

theorem Workspace.Sound.exists_heads (hw : w.Sound []) (hr : w.cache.peek l = some r) :
    ∃ q, Workspace.Heads m w l q := by
  let tangle : Set Resolution :=
    fun u => w.cache.peek u.id.location = some u ∧ m.Tangled l u.id.location
  have hplace := (hw.keeps l r hr).place
  have hne : tangle.Nonempty := ⟨r, hplace.symm ▸ hr, hplace.symm ▸ ⟨.refl, .refl⟩⟩
  -- stamps are bounded by the number of results made
  obtain ⟨q, ⟨hq, hlq⟩, hmin⟩ :=
    (measure fun u : Resolution => w.made - u.stamp).wf.has_min tangle hne
  refine ⟨q, hq, hlq, fun x u hx hu => ?_⟩
  have hkeeps := hw.keeps x u hu
  have hle : ¬ w.made - u.stamp < w.made - q.stamp :=
    hmin u ⟨hkeeps.place.symm ▸ hu, hkeeps.place.symm ▸ hx⟩
  have := hkeeps.stamp
  omega

/-- Going on from `x` to the head of its tangle one meets no result that was made before the
bracket of the head. -/
theorem Workspace.Heads.opened (hw : w.Entered m) (hq : Workspace.Heads m w l q)
    (hb : w.Bracket b q) (hxq : ReflTransGen m.Links x q.id.location) (hx : m.Tangled l x)
    (hu : w.cache.peek x = some u) (hk : u.id.kind = .project) : b ≤ u.stamp := by
  induction hxq using ReflTransGen.head_induction_on generalizing u with
  | refl =>
      cases hq.peek.symm.trans hu
      exact hb.opened
  | @head x y hlink hyq ih =>
      obtain ⟨v, hv, -⟩ := hw.resolved hu hk hlink
      have hkeeps := hw.sound.keeps y v hv
      have hy : m.Tangled l y := hx.between (.single hlink) (hyq.trans hq.tangled.2)
      have hbv := ih hy hv (hlink.project hkeeps.wellFormed hkeeps.place)
      by_contra hlt
      obtain ⟨dep, hdep, rfl⟩ := List.mem_map.mp (hw.declares hu hk hlink)
      rcases hb.before x u hu (Nat.lt_of_not_le hlt) dep hdep v hv with hbefore | hafter
      · exact absurd hbv (Nat.not_le.mpr hbefore)
      · exact absurd (hq.last _ v hy hv) (Nat.not_le.mpr hafter)

/-- The project that was entered first holds all that it is tangled with. -/
theorem Workspace.Heads.holds (hw : w.Entered m) (hq : Workspace.Heads m w l q) (hx : m.Tangled l x)
    (hu : w.cache.peek x = some u) (hk : u.id.kind = .project) : ReflTransGen Holds q u := by
  obtain ⟨b, hb⟩ := hw.bracketed _ q hq.peek
  have hopened := hq.opened hw hb (hx.2.trans hq.tangled.1) hx hu hk
  exact hb.within x u hu hopened (hq.last x u hx hu)

/-! ## What is listed -/

/-- What is listed is reached. -/
theorem Workspace.Entered.reached_of_listed (hw : w.Entered m)
    (hr : w.cache.peek r.id.location = some r) (hl : Lists [r] order) (hq : q ∈ order) :
    w.cache.peek q.id.location = some q ∧ ReflTransGen m.Links r.id.location q.id.location := by
  obtain ⟨p, hp, hpq⟩ := (hl.mem_iff q).mp hq
  cases List.mem_singleton.mp hp
  exact ⟨hw.sound.unanimous.under hr hpq, hw.toResolving.reaches hr hpq⟩

/-- If the heads of tangles are listed, so is all that is reached. A reference that is not held
leads back, and what it leads to is held by the head. -/
theorem Workspace.Entered.listed_of_reached (hw : w.Entered m)
    (hr : w.cache.peek r.id.location = some r) (hk : r.id.kind = .project) (hl : Lists [r] order)
    (hheads : ∀ p ∈ order, TransGen m.Links p.id.location p.id.location →
      ∃ q ∈ order, Workspace.Heads m w p.id.location q)
    (hx : ReflTransGen m.Links r.id.location x) :
    ∃ q ∈ order, q.id.location = x ∧ q.id.kind = .project := by
  induction hx with
  | refl => exact ⟨r, (hl.mem_iff r).mpr ⟨r, by simp, .refl⟩, rfl, hk⟩
  | @tail y x _ hlink ih =>
      obtain ⟨p, hp, rfl, hkp⟩ := ih
      obtain ⟨hpeek, -⟩ := hw.reached_of_listed hr hl hp
      obtain ⟨q, hq, hheld⟩ := hw.resolved hpeek hkp hlink
      have hkeeps := hw.sound.keeps x q hq
      have hkq := hlink.project hkeeps.wellFormed hkeeps.place
      refine ⟨q, ?_, hkeeps.place, hkq⟩
      rcases hheld with hheld | hback
      · exact hl.ordered.mem_of_holds hp hheld
      · obtain ⟨head, hhead, hheads⟩ := hheads p hp (TransGen.head' hlink hback)
        exact hl.ordered.mem_of_reflTransGen hhead (hheads.holds hw ⟨.single hlink, hback⟩ hq hkq)

/-- All that is reached is listed if and only if the heads of tangles are. -/
theorem Workspace.Entered.lists_iff (hw : w.Entered m) (hr : w.cache.peek r.id.location = some r)
    (hk : r.id.kind = .project) (hl : Lists [r] order) :
    (∀ x, ReflTransGen m.Links r.id.location x → x ∈ order.map (·.id.location)) ↔
      ∀ p ∈ order, TransGen m.Links p.id.location p.id.location →
        ∃ q ∈ order, Workspace.Heads m w p.id.location q := by
  constructor
  · intro hall p hp _
    obtain ⟨hpeek, hreach⟩ := hw.reached_of_listed hr hl hp
    obtain ⟨q, hq⟩ := hw.sound.exists_heads (m := m) hpeek
    obtain ⟨q', hq', hplace⟩ := List.mem_map.mp (hall _ (hreach.trans hq.tangled.1))
    obtain ⟨hpeek', -⟩ := hw.reached_of_listed hr hl hq'
    have hsame : q' = q := hw.sound.unanimous.unique hpeek' hq.peek hplace
    exact ⟨q, hsame ▸ hq', hq⟩
  · intro hheads x hx
    obtain ⟨q, hq, hplace, -⟩ := hw.listed_of_reached hr hk hl hheads hx
    exact List.mem_map.mpr ⟨q, hq, hplace⟩

/-- A head that was made while its root was asked for is listed. -/
theorem Fetched.heads_listed (hf : Fetched [] id w (.ok r) w') (hw : w.Sound [])
    (hl : Lists [r] order) (hnone : ∀ x, m.Tangled l x → w.cache.peek x = none)
    (hr : w'.cache.peek l = some u) :
    ∃ q ∈ order, Workspace.Heads m w' l q := by
  obtain ⟨q, hq⟩ := hf.sound.exists_heads (m := m) hr
  refine ⟨q, (hl.mem_iff q).mpr ⟨r, by simp, ?_⟩, hq⟩
  rcases hf.peek_cases hw hq.peek with hold | ⟨-, hheld⟩
  · cases (hnone _ hq.tangled).symm.trans hold
  · exact hheld

end

/-! ## Runs without changes of the table -/

section

variable {m : Memory} {w w' w'' : Workspace Memory}

theorem Operation.runAll_append {ops ops' : List Operation} (h : runAll ops w = .ok () w')
    (h' : runAll ops' w' = .ok () w'') : runAll (ops ++ ops') w = .ok () w'' := by
  induction ops generalizing w with
  | nil =>
      obtain ⟨-, rfl⟩ := Act.pure_eq_ok.mp h
      exact h'
  | cons op ops ih =>
      obtain ⟨_, w₁, hop, hrest⟩ := Act.bind_eq_ok.mp h
      exact Act.bind_ok hop (ih hrest)

theorem Operation.runAll_asks (hw : w.Quiet) (asked : List Query) :
    ∃ w', runAll (asked.map .ask) w = .ok () w' ∧ Fetches Memory.surroundings w w' := by
  induction asked generalizing w with
  | nil => exact ⟨w, rfl, .refl w⟩
  | cons q asked ih =>
      obtain ⟨w₁, h₁⟩ := (Operation.ask q).returns hw
      have hf := q.fetches surroundings_mild hw h₁
      obtain ⟨w', h', hf'⟩ := ih (hw.fetches surroundings_mild hf)
      exact ⟨w', Act.bind_ok h₁ h', hf.trans hf'⟩

/-- Where nothing is resolved, changes concern the index alone. -/
theorem Operation.runAll_tells (hw : w.Quiet) (hnone : ∀ l, w.cache.peek l = none)
    (known : List Change) :
    ∃ w', runAll (known.map .tell) w = .ok () w' ∧ w'.Quiet ∧ (∀ l, w'.cache.peek l = none) ∧
      w'.outside = w.outside := by
  induction known generalizing w with
  | nil => exact ⟨w, rfl, hw, hnone, rfl⟩
  | cons c known ih =>
      obtain ⟨w₁, h₁⟩ := (Operation.tell c).returns hw
      obtain ⟨xs, hx, ho, -⟩ := c.run_changes surroundings_mild.rooted hw.tidy.lone h₁
      have hnone₁ : ∀ l, w₁.cache.peek l = none := by
        refine fun l => Option.eq_none_iff_forall_ne_some.mpr fun r hr => ?_
        cases (hnone l).symm.trans ((hx.peek hw.tidy.lone l r).mp hr).1
      obtain ⟨w', h', hw', hnone', ho'⟩ := ih (Operation.quiet hw h₁) hnone₁
      exact ⟨w', Act.bind_ok h₁ h', hw', hnone', ho'.trans ho⟩

/-- **What the dependencies of a project are.** A workspace over a table that never changes is told
of files, and then it is asked anything. The dependencies of a project that are returned after that
are reached from it along references, and

* they are all that is reached if and only if with every project on a circle the one of its tangle
  that was entered first is listed, which is the one that was resolved last;
* they are all that is reached if no project on a circle that is reached was resolved before. -/
theorem dependencies_listed (m : Memory) (known : List Change) (asked : List Query) {p : Path}
    {id : Identity} (hid : Identity.of Memory.locate p = .ok id) (hk : id.kind = .project) :
    ∃ w order w', Operation.runAll (known.map .tell ++ asked.map .ask) (.fresh m) = .ok () w ∧
      Act.dependenciesOf Memory.surroundings id w = .ok (.ok order) w' ∧
      (∀ q ∈ order, ReflTransGen m.Links id.location q.id.location) ∧
      ((∀ x, ReflTransGen m.Links id.location x → x ∈ order.map (·.id.location)) ↔
        ∀ r ∈ order, TransGen m.Links r.id.location r.id.location →
          ∃ q ∈ order, Workspace.Heads m w' r.id.location q) ∧
      ((∀ x, ReflTransGen m.Links id.location x → TransGen m.Links x x → w.cache.peek x = none) →
        ∀ x, ReflTransGen m.Links id.location x → x ∈ order.map (·.id.location)) := by
  have hwf := Identity.of_wellFormed hid
  obtain ⟨w₀, hknown, hw₀, hnone, ho⟩ := Operation.runAll_tells (.fresh m) (by simp) known
  obtain ⟨w, hasked, hfetches⟩ := Operation.runAll_asks hw₀ asked
  have hw : w.Entered m := hfetches.entered (hw₀.entered hnone fun l => by rw [ho]; rfl)
  obtain ⟨r, w', h, hs, hl⟩ := hw.dependenciesOf hwf (by rw [hk]; rfl)
  have hf := hs.fetched_still hwf hw.sound
  have hw' := hs.entered hwf hw
  obtain rfl := (hf.made r rfl).id
  have hiff := hw'.lists_iff hf.peek hk hl
  refine ⟨w, _, w', Operation.runAll_append hknown hasked, h,
    fun q hq => (hw'.reached_of_listed hf.peek hl hq).2, hiff,
      fun hcircles => hiff.mpr fun q hq hcircle => ?_⟩
  obtain ⟨hpeek, hreach⟩ := hw'.reached_of_listed hf.peek hl hq
  refine hf.heads_listed hw.sound hl (fun x hx => hcircles x (hreach.trans hx.1) ?_) hpeek
  exact TransGen.trans_right hx.2 (hcircle.trans_left hx.1)

/-- A circle, and a project outside that references one of its members. -/
def circleFromOutside : Memory :=
  .listing [("a.fsproj", ["b.fsproj"]), ("b.fsproj", ["a.fsproj"]), ("x.fsproj", ["a.fsproj"])]

theorem circleFromOutside_links :
    circleFromOutside.Links (Memory.locate ⟨"x.fsproj"⟩) (Memory.locate ⟨"a.fsproj"⟩) ∧
      circleFromOutside.Links (Memory.locate ⟨"a.fsproj"⟩) (Memory.locate ⟨"b.fsproj"⟩) :=
  ⟨⟨⟨Memory.locate ⟨"a.fsproj"⟩, .project⟩, by decide +kernel, rfl⟩,
    ⟨⟨Memory.locate ⟨"b.fsproj"⟩, .project⟩, by decide +kernel, rfl⟩⟩

/-- If `x.fsproj` is asked for first, all that it reaches is listed. -/
theorem dependencies_listed_circleFromOutside :
    Identity.of Memory.locate ⟨"x.fsproj"⟩ = .ok ⟨Memory.locate ⟨"x.fsproj"⟩, .project⟩ ∧
      ∃ order w', Act.dependenciesOf Memory.surroundings ⟨Memory.locate ⟨"x.fsproj"⟩, .project⟩
          (.fresh circleFromOutside) = .ok (.ok order) w' ∧
        Memory.locate ⟨"b.fsproj"⟩ ∈ order.map (·.id.location) := by
  have hid : Identity.of Memory.locate ⟨"x.fsproj"⟩ = .ok ⟨Memory.locate ⟨"x.fsproj"⟩, .project⟩ :=
    rfl
  obtain ⟨w, order, w', hrun, h, -, -, hall⟩ := dependencies_listed circleFromOutside [] [] hid rfl
  obtain ⟨-, rfl⟩ := Act.pure_eq_ok.mp hrun
  refine ⟨hid, order, w', h, hall (fun l _ _ => Workspace.peek_fresh _ l) _ ?_⟩
  exact .tail (.single circleFromOutside_links.1) circleFromOutside_links.2

set_option maxRecDepth 10000 in
/-- If `b.fsproj` was asked for before, it is not listed for `x.fsproj`, which is on no circle and
reaches it: the circle was entered at `b.fsproj`, and `a.fsproj` was refused it. -/
theorem dependencies_unlisted :
    ¬ TransGen circleFromOutside.Links (Memory.locate ⟨"x.fsproj"⟩) (Memory.locate ⟨"x.fsproj"⟩) ∧
      ReflTransGen circleFromOutside.Links (Memory.locate ⟨"x.fsproj"⟩)
        (Memory.locate ⟨"b.fsproj"⟩) ∧
      ∃ w order w',
        Operation.runAll [.ask (.options ⟨"b.fsproj"⟩)] (.fresh circleFromOutside) = .ok () w ∧
        Act.dependenciesOf Memory.surroundings ⟨Memory.locate ⟨"x.fsproj"⟩,
          .project⟩ w = .ok (.ok order) w' ∧
        Memory.locate ⟨"b.fsproj"⟩ ∉ order.map (·.id.location) := by
  refine ⟨fun hcircle => ?_, .tail (.single circleFromOutside_links.1) circleFromOutside_links.2,
    ?_⟩
  · -- nothing references `x.fsproj`
    obtain ⟨y, -, hlink⟩ := TransGen.tail'_iff.mp hcircle
    obtain ⟨entry, hentry, -, dep, hdep, hplace⟩ := hlink.entry
    have hnone : ∀ entry ∈ circleFromOutside.reports, ∀ dep ∈ entry.2.links ⟨entry.1, .project⟩,
        dep.location ≠ Memory.locate ⟨"x.fsproj"⟩ := by
      decide +kernel
    exact hnone entry hentry dep hdep hplace
  · let asked := Operation.runAll [.ask (.options ⟨"b.fsproj"⟩)]
    have hasked : asked.returns (.fresh circleFromOutside) = true := by decide +kernel
    have hlisted :
      ((Act.dependenciesOf Memory.surroundings ⟨Memory.locate ⟨"x.fsproj"⟩, .project⟩).value?
        (asked.after (.fresh circleFromOutside))).any
          (fun answer => answer.toOption.any fun order =>
            Memory.locate ⟨"b.fsproj"⟩ ∉ order.map (·.id.location)) = true := by
      decide +kernel
    obtain ⟨answer, hanswer, hunlisted⟩ := (Option.any_eq_true _ _).mp hlisted
    cases answer with
    | ok order =>
        exact ⟨_, order, _, Act.eq_ok_of_returns hasked, Act.eq_ok_of_value? hanswer,
          of_decide_eq_true hunlisted⟩
    | error m => cases hunlisted

end

end FSharpWorkspace
