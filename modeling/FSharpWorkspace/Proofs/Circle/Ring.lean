import FSharpWorkspace.Proofs.Workspace.Reported
import Mathlib.Data.List.Chain
import Mathlib.Logic.Relation
/-!
# Circles as lists

A circle of references is told by the list of its members, each of which refers to the next and the
last to the first (`Ring`). Any member can be reached from any other. Which circle a project
remembers is decided by its first outcome that tells of one (`Outcomes.Tells`).
-/

set_option autoImplicit false

namespace FSharpWorkspace

/-! ## Rings -/

section

variable {α : Type} {R S : α → α → Prop} {l : List α}

/-- Each member of the list is related to the next one, and the last to the first. -/
structure Ring (R : α → α → Prop) (l : List α) : Prop where
  chain : l.IsChain R
  closing : ∀ x ∈ l.getLast?, ∀ y ∈ l.head?, R x y

theorem Ring.imp (h : Ring R l) (hRS : ∀ x ∈ l, ∀ y ∈ l, R x y → S x y) : Ring S l where
  chain := h.chain.imp_of_mem_imp fun x y hx hy => hRS x hx y hy
  closing x hx y hy :=
    hRS x (List.mem_of_getLast? hx) y (List.mem_of_head? hy) (h.closing x hx y hy)

/-- Along a chain its last element is reached from all. -/
theorem reach_getLast (h : l.IsChain R) {x y : α} (hx : x ∈ l) (hy : y ∈ l.getLast?) :
    Relation.ReflTransGen R x y := by
  obtain ⟨pre, post, rfl⟩ := List.append_of_mem hx
  refine List.relationReflTransGen_of_exists_isChain_cons post h.right_of_append ?_
  rw [List.getLast?_append_of_ne_nil _ (by simp),
    List.getLast?_eq_getLast_of_ne_nil (by simp)] at hy
  exact Option.some.inj hy

/-- Along a chain all elements are reached from its first one. -/
theorem reach_of_head (h : l.IsChain R) {x y : α} (hx : x ∈ l.head?) (hy : y ∈ l) :
    Relation.ReflTransGen R x y := by
  obtain ⟨pre, post, rfl⟩ := List.append_of_mem hy
  cases pre with
  | nil =>
      obtain rfl : y = x := by simpa using hx
      exact .refl
  | cons z pre =>
      obtain rfl : z = x := by simpa using hx
      have hsplit : (z :: (pre ++ [y]) ++ post).IsChain R := by simpa using h
      exact List.relationReflTransGen_of_exists_isChain_cons _ hsplit.left_of_append (by simp)

/-- On a ring every member is reached from every member, in at least one step. -/
theorem Ring.transGen (h : Ring R l) {x y : α} (hx : x ∈ l) (hy : y ∈ l) :
    Relation.TransGen R x y := by
  have hne : l ≠ [] := List.ne_nil_of_mem hx
  obtain ⟨a, ha⟩ : ∃ a, l.getLast? = some a := ⟨_, List.getLast?_eq_getLast_of_ne_nil hne⟩
  obtain ⟨b, hb⟩ : ∃ b, l.head? = some b := ⟨_, List.head?_eq_some_head hne⟩
  have hstep : Relation.TransGen R x b :=
    Relation.TransGen.tail' (reach_getLast h.chain hx ha) (h.closing a ha b hb)
  exact hstep.trans_left (reach_of_head h.chain hb hy)

end

/-! ## Circles of projects -/

def places (ids : List Identity) : List Location := ids.map (·.location)

theorem places_concat (ids : List Identity) (id : Identity) :
    places (ids ++ [id]) = places ids ++ [id.location] := by
  simp [places]

theorem mem_places_concat {l : Location} {ids : List Identity} {id : Identity} :
    l ∈ places (ids ++ [id]) ↔ l ∈ places ids ∨ l = id.location := by
  rw [places_concat, List.mem_append, List.mem_singleton]

theorem places_getLast? {ids : List Identity} {id : Identity} (h : ids.getLast? = some id) :
    (places ids).getLast? = some id.location := by
  rw [places, List.getLast?_map, h]
  rfl

theorem isAmong_iff {l : Location} {ids : List Identity} :
    Identity.isAmong l ids = true ↔ l ∈ places ids := by
  unfold Identity.isAmong places
  simp

/-- The file at `l` is one of `members`, which lie on a circle of `R` in this order. -/
structure Encircled (R : Location → Location → Prop) (l : Location)
    (members : List Identity) : Prop where
  mem : l ∈ places members
  ring : Ring R (places members)

theorem Encircled.imp {R S : Location → Location → Prop} {l : Location} {members : List Identity}
    (h : Encircled R l members) (hRS : ∀ x ∈ places members, ∀ y ∈ places members, R x y → S x y) :
    Encircled S l members :=
  ⟨h.mem, h.ring.imp hRS⟩

/-- The table makes the project at `l` reference the project at `l'`. -/
def Memory.Links (m : Memory) (l l' : Location) : Prop :=
  ∃ dep ∈ (m.report l).links ⟨l, .project⟩, dep.location = l'

theorem Memory.links_iff {m : Memory} {id : Identity} (hk : id.kind = .project) {l : Location} :
    m.Links id.location l ↔ l ∈ places ((m.report id.location).links id) := by
  obtain ⟨n, kind⟩ := id
  obtain rfl : kind = .project := hk
  exact List.mem_map.symm

theorem Memory.links_congr {m m' : Memory}
    (h : ∀ l, m'.report l = m.report l) : m'.Links = m.Links := by
  funext l l'
  unfold Memory.Links
  rw [h]

/-- References are written in the entries of the table. -/
theorem Memory.Links.entry {m : Memory} {x y : Location} (h : m.Links x y) :
    ∃ entry ∈ m.reports,
      entry.1 = x ∧ ∃ dep ∈ entry.2.links ⟨entry.1, .project⟩, dep.location = y := by
  obtain ⟨dep, hdep, rfl⟩ := h
  unfold Memory.report at hdep
  cases hx : m.reports.lookup x with
  | none =>
      rw [hx] at hdep
      cases hdep
  | some report =>
      rw [hx] at hdep
      obtain ⟨pre, post, hsplit, -⟩ := List.lookup_eq_some_iff.mp hx
      exact ⟨(x, report), by simp [hsplit], rfl, dep, hdep, rfl⟩

/-- A table has no circles if the references of each project have a lower rank than the project. -/
theorem Memory.no_circle_of_rank {m : Memory} (rank : Location → Nat)
    (h : ∀ entry ∈ m.reports, ∀ dep ∈ entry.2.links ⟨entry.1, .project⟩,
      rank dep.location < rank entry.1) (l : Location) : ¬ Relation.TransGen m.Links l l := by
  have hlink : ∀ x y, m.Links x y → rank x > rank y := by
    intro x y hxy
    obtain ⟨entry, hentry, rfl, dep, hdep, rfl⟩ := hxy.entry
    exact h entry hentry dep hdep
  intro hcircle
  have hrank : Relation.TransGen (· > ·) (rank l) (rank l) := hcircle.lift rank hlink
  rw [Relation.transGen_eq_self] at hrank
  exact Nat.lt_irrefl _ hrank

/-- A circle through the path is the end of the path, from the project that is referred to. -/
theorem circle_eq {path : List Identity} {closing : Identity}
    (hc : closing.location ∈ places path) :
    circle path closing = path.dropWhile (·.location ≠ closing.location) := by
  unfold circle
  split
  · next hnil =>
      obtain ⟨id, hid, hl⟩ := List.mem_map.mp hc
      have hall := List.dropWhile_eq_nil_iff.mp hnil id hid
      simp [hl] at hall
  · rfl

/-- The circle that is closed by a reference from the end of `path` to a project on it. -/
theorem circle_encircled {R : Location → Location → Prop} {path : List Identity}
    {closing z : Identity} (hz : path.getLast? = some z) (hc : closing.location ∈ places path)
    (hchain : (places (path ++ [closing])).IsChain R) :
    Encircled R z.location (circle path closing) := by
  have hcircle := circle_eq hc
  have hne : path.dropWhile (·.location ≠ closing.location) ≠ [] := by
    rw [← hcircle]
    exact circle_ne_nil path closing
  obtain ⟨pre, hpre⟩ :=
    List.dropWhile_suffix (l := path) (fun id : Identity => decide (id.location ≠ closing.location))
  rw [hcircle]
  -- the members are the end of the path, and the first of them is the one that is referred to
  generalize hm : path.dropWhile (·.location ≠ closing.location) = members at *
  have hhead : ∀ y ∈ (places members).head?, y = closing.location := by
    intro y hy
    cases members with
    | nil => exact absurd rfl hne
    | cons first rest =>
        obtain rfl : first.location = y := by simpa [places] using hy
        have hfirst :=
          List.head?_dropWhile_not
            (fun id : Identity => decide (id.location ≠ closing.location)) path
        rw [hm] at hfirst
        simpa using hfirst
  have hlast : members.getLast? = some z := by
    rw [← hpre, List.getLast?_append_of_ne_nil _ hne] at hz
    exact hz
  have hsplit : places (path ++ [closing]) =
      places pre ++ (places members ++ [closing.location]) := by
    simp [places, ← hpre]
  rw [hsplit] at hchain
  have hend := hchain.right_of_append
  have hzlast := places_getLast? hlast
  refine ⟨List.mem_of_getLast? hzlast, hend.left_of_append, fun x hx y hy => ?_⟩
  rw [hhead y hy]
  exact (List.isChain_append.mp hend).2.2 x hx closing.location (by simp)

/-! ## The circle that a project remembers -/

/-- An outcome tells the project at `l` of a circle. -/
inductive Outcomes.Tells (outcomes : Outcomes) (l : Location) : List Identity → Prop where
  | refused {dep : Identity} {members : List Identity} :
      (dep, .error members) ∈ outcomes → Outcomes.Tells outcomes l members
  | named {dep : Identity} {p : Resolution} :
      (dep, .ok p) ∈ outcomes → l ∈ places p.cycle → Outcomes.Tells outcomes l p.cycle

theorem Outcomes.Tells.cons {outcomes : Outcomes} {l : Location} {members : List Identity}
    (o : Identity × Except (List Identity) Resolution) (h : outcomes.Tells l members) :
    Outcomes.Tells (o :: outcomes) l members := by
  cases h with
  | refused hmem => exact .refused (List.mem_cons_of_mem o hmem)
  | named hmem hl => exact .named (List.mem_cons_of_mem o hmem) hl

/-- A circle once found is remembered. -/
theorem Act.Linked.addAll_cycle_of_ne_nil (id : Identity) {linked : Act.Linked}
    (outcomes : Outcomes) (h : linked.cycle ≠ []) :
    (linked.addAll id outcomes).cycle = linked.cycle := by
  have he : linked.cycle.isEmpty = false := by simpa using h
  induction outcomes generalizing linked with
  | nil => rfl
  | cons o outcomes ih =>
      obtain ⟨dep, a⟩ := o
      have hadd : (linked.add id dep a).cycle = linked.cycle := by
        cases a <;> simp [Act.Linked.add, he]
      rw [Act.Linked.addAll_cons, ih (by rw [hadd]; exact h) (by rw [hadd]; exact he), hadd]

/-- What one outcome adds to a project that knows of no circle. -/
theorem Act.Linked.add_cycle (id dep : Identity) {linked : Act.Linked} (h : linked.cycle = [])
    (a : Except (List Identity) Resolution) :
    (linked.add id dep a).cycle = match a with
      | .ok r => if id.location ∈ places r.cycle then r.cycle else []
      | .error members => members := by
  cases a with
  | error members => simp [Act.Linked.add, h]
  | ok r =>
      by_cases hl : id.location ∈ places r.cycle
      · simp [Act.Linked.add, h, isAmong_iff.mpr hl, hl]
      · have hn : Identity.isAmong id.location r.cycle = false := by
          by_contra hne
          exact hl (isAmong_iff.mp (by simpa using hne))
        simp [Act.Linked.add, h, hn, hl]

/-- A circle that is remembered was told of by an outcome. -/
theorem Act.Linked.addAll_cycle_cases (id : Identity) {linked : Act.Linked} (outcomes : Outcomes)
    (h : linked.cycle = []) :
    (linked.addAll id outcomes).cycle = [] ∨
      outcomes.Tells id.location (linked.addAll id outcomes).cycle := by
  induction outcomes generalizing linked with
  | nil => exact Or.inl h
  | cons o outcomes ih =>
      obtain ⟨dep, a⟩ := o
      rw [Act.Linked.addAll_cons]
      have hadd := Act.Linked.add_cycle id dep h a
      by_cases hc : (linked.add id dep a).cycle = []
      · exact (ih hc).imp_right fun ht => ht.cons _
      · rw [Act.Linked.addAll_cycle_of_ne_nil id outcomes hc, hadd]
        rw [hadd] at hc
        cases a with
        | error members => exact Or.inr (.refused List.mem_cons_self)
        | ok r =>
            by_cases hl : id.location ∈ places r.cycle
            · simp only [if_pos hl]
              exact Or.inr (.named List.mem_cons_self hl)
            · simp [hl] at hc

/-- A project that is told of a circle remembers one. -/
theorem Act.Linked.addAll_cycle_ne_nil {id : Identity} {linked : Act.Linked} {outcomes : Outcomes}
    {members : List Identity}
    (htold : ∀ dep members, (dep, .error members) ∈ outcomes → members ≠ [])
    (ht : outcomes.Tells id.location members) : (linked.addAll id outcomes).cycle ≠ [] := by
  by_cases hc : linked.cycle = []
  · -- as long as no circle is known, the next outcome that tells of one decides
    induction outcomes generalizing linked with
    | nil =>
        cases ht with
        | refused hmem => cases hmem
        | named hmem _ => cases hmem
    | cons o outcomes ih =>
        obtain ⟨dep, a⟩ := o
        rw [Act.Linked.addAll_cons]
        by_cases hadd : (linked.add id dep a).cycle = []
        · -- this outcome tells of nothing, so it is one of the others that does
          refine ih (fun d m hm => htold d m (List.mem_cons_of_mem _ hm)) ?_ hadd
          rw [Act.Linked.add_cycle id dep hc] at hadd
          cases ht with
          | refused hmem =>
              rcases List.mem_cons.mp hmem with he | hmem
              · cases he
                exact absurd hadd (htold dep members List.mem_cons_self)
              · exact .refused hmem
          | named hmem hl =>
              rcases List.mem_cons.mp hmem with he | hmem
              · cases he
                simp only [if_pos hl] at hadd
                rw [hadd] at hl
                cases hl
              · exact .named hmem hl
        · rw [Act.Linked.addAll_cycle_of_ne_nil id outcomes hadd]
          exact hadd
  · rw [Act.Linked.addAll_cycle_of_ne_nil id outcomes hc]
    exact hc

theorem CrackReport.Made.cycle_ne_nil {report : CrackReport} {outcomes : Outcomes} {r : Resolution}
    (h : report.Made outcomes r) {members : List Identity}
    (ht : outcomes.Tells r.id.location members) :
    r.cycle ≠ [] := by
  rw [h.cycle]
  exact Act.Linked.addAll_cycle_ne_nil h.told ht

theorem CrackReport.Made.tells {report : CrackReport} {outcomes : Outcomes} {r : Resolution}
    (h : report.Made outcomes r) (hc : r.cycle ≠ []) : outcomes.Tells r.id.location r.cycle := by
  rw [h.cycle] at hc ⊢
  exact (Act.Linked.addAll_cycle_cases r.id outcomes rfl).resolve_left hc

/-- The circle that a project remembers passes through it, if it is a circle where a
reference tells of it. -/
theorem CrackReport.Made.encircled {report : CrackReport} {outcomes : Outcomes} {r : Resolution}
    {R : Location → Location → Prop} (h : report.Made outcomes r)
    (hrefused : ∀ dep, (dep, .error r.cycle) ∈ outcomes → Encircled R r.id.location r.cycle)
    (hheld : ∀ o p, (o, p) ∈ r.references → p.cycle = r.cycle → r.id.location ∈ places r.cycle →
      Encircled R p.id.location r.cycle)
    (hc : r.cycle ≠ []) : Encircled R r.id.location r.cycle := by
  generalize hm : r.cycle = members at *
  have htells := hm ▸ h.tells (hm ▸ hc)
  cases htells with
  | refused hmem => exact hrefused _ hmem
  | @named dep p hmem hl =>
      refine ⟨hl, (hheld p.target p ?_ rfl hl).ring⟩
      rw [h.references]
      exact Outcomes.mem_held.mpr ⟨rfl, dep, hmem⟩

end FSharpWorkspace
