import FSharpWorkspace.Proofs.Sequential.Attempts
/-!
# The index follows what the workspace is told

What a workspace is told of scripts, projects and solutions is news (`Operation.news?`), and the
index is what it makes of the news, one after the other (`Operation.index_eq`). So a script or
project is known exactly if the last that was said of it is that it was created or changed, and a
solution has the members that its text listed at that moment (`index_registered`). Different
spellings of one file are news of one identity.
-/

set_option autoImplicit false

namespace FSharpWorkspace

/-! ## News -/

/-- What happened to which script, project or solution. -/
structure News where
  kind : EventKind
  id : Identity

/-- What is said of the file at `p`, if it is of a kind that `accepts`. -/
def News.at? (accepts : Kind → Bool) (kind : EventKind) (p : Path) : Option News :=
  match Identity.of Memory.locate p with
  | .ok id => if accepts id.kind then some ⟨kind, id⟩ else none
  | .error _ => none

/-- What a change says. A restore says nothing of a script, project or solution itself. -/
def Change.news? : Change → Option News
  | told kind p => News.at? Kind.isResolvable kind p
  | event e => News.at? (fun _ => true) e.kind e.path
  | solutionUpdated p => News.at? (· = .solution) .changed p
  | solutionDeleted p => News.at? (· = .solution) .deleted p
  | restored _ => none

/-- What an operation says to the workspace. -/
def Operation.news? : Operation → Option News
  | tell c => c.news?
  | _ => none

/-- The index after some news, when the files are those of `m`: a script or project is known unless
it was deleted, and a solution is known with the members that its text lists unless it was deleted
or cannot be read. -/
def Index.hear (m : Memory) (n : News) (ix : Index) : Index :=
  if n.id.kind = .solution then
    if n.kind = .deleted then ix.removeSolution n.id.location
    else match m.read n.id.location.path with
      | .ok text => ix.setSolution n.id (Solution.members Memory.locate n.id.dir.path text)
      | .error _ => ix.removeSolution n.id.location
  else if n.kind = .deleted then ix.removeProject n.id.location
  else ix.insertProject n.id

section

variable {w w' : Workspace Memory}

/-! ## What the workspace makes of news -/

/-- The attempt `x` comes to its end, the index hears of the news `n`, and if it is refused,
nothing is changed. -/
def Act.Heeds (w : Workspace Memory) (n : Option News)
    (x : Act Memory (Except Misuse Unit)) : Prop :=
  ∃ result w', x w = .ok result w' ∧ w'.index = n.elim w.index (w.index.hear w.outside) ∧
    ∀ m, result = .error m → w' = w

/-- A script or project is told of. -/
theorem tell_heeds (kind : EventKind) (id : Identity) (hk : id.kind.isResolvable = true) :
    ∃ w', Act.tell kind id w = .ok (.ok ()) w' ∧ w'.index = w.index.hear w.outside ⟨kind, id⟩ := by
  have hs : id.kind ≠ .solution := Kind.isResolvable_iff.mp hk
  cases kind with
  | created => exact ⟨_, ifResolvable_ok hk rfl, by simp [Index.hear, hs]⟩
  | changed => exact ⟨_, ifResolvable_ok hk rfl, by simp [Index.hear, hs]⟩
  | deleted => exact ⟨_, ifResolvable_ok hk rfl, by simp [Index.hear, hs]⟩

theorem ifSolution_ok {id : Identity} (h : id.kind = .solution) {action : Act Memory Unit}
    (ha : action w = .ok () w') : Act.ifSolution id action w = .ok (.ok ()) w' := by
  unfold Act.ifSolution
  rw [if_pos h]
  exact Act.bind_ok ha rfl

/-- Tells the workspace what happened to a solution. -/
def Act.tellSolution (kind : EventKind) (id : Identity) : Act Memory (Except Misuse Unit) :=
  match kind with
  | .deleted => Act.solutionDeleted id
  | _ => Act.solutionUpdated Memory.surroundings id

theorem solutionUpdated_eq {id : Identity} (hk : id.kind = .solution) :
    Act.solutionUpdated Memory.surroundings id w =
      .ok (.ok ()) { w with index := w.index.hear w.outside ⟨.changed, id⟩ } := by
  refine ifSolution_ok hk (Act.bind_ok rfl ?_)
  have hread : Memory.surroundings.read w.outside id.location = w.outside.read id.location.path :=
    rfl
  rw [hread]
  cases htext : w.outside.read id.location.path with
  | ok text => simp [Index.hear, hk, htext]; rfl
  | error fault => simp [Index.hear, hk, htext]; rfl

/-- A solution is told of. -/
theorem solution_heeds (kind : EventKind) (id : Identity) (hk : id.kind = .solution) :
    ∃ w', Act.tellSolution kind id w = .ok (.ok ()) w' ∧
      w'.index = w.index.hear w.outside ⟨kind, id⟩ := by
  cases kind with
  | created => exact ⟨_, solutionUpdated_eq hk, by simp [Index.hear, hk]⟩
  | changed => exact ⟨_, solutionUpdated_eq hk, rfl⟩
  | deleted => exact ⟨_, ifSolution_ok hk rfl, by simp [Index.hear, hk]⟩

theorem forM_changed_index {ids : List Identity}
    (h : (ids.forM fun id => Act.changed (σ := Memory) id.location) w = .ok () w') :
    w'.index = w.index := by
  induction ids generalizing w with
  | nil =>
      obtain ⟨-, rfl⟩ := Act.pure_eq_ok.mp h
      rfl
  | cons id ids ih =>
      obtain ⟨a, w₁, h₁, hrest⟩ := Act.bind_eq_ok.mp h
      have hindex := ih hrest
      cases h₁
      exact hindex

/-- A restore drops results, and makes nothing known or unknown. -/
theorem restored_index {lockFile : Path} {n : Nat}
    (h : Act.restored Memory.surroundings lockFile w = .ok n w') :
    w'.index = w.index := by
  unfold Act.restored at h
  obtain ⟨l, w₁, hl, hrest⟩ := Act.bind_eq_ok.mp h
  cases hl
  cases hdir : Act.restoredDir? (Memory.surroundings.locate w.outside lockFile) with
  | none =>
      rw [hdir] at hrest
      obtain ⟨-, rfl⟩ := Act.pure_eq_ok.mp hrest
      rfl
  | some dir =>
      rw [hdir] at hrest
      obtain ⟨owners, w₂, howners, hrest⟩ := Act.bind_eq_ok.mp hrest
      cases howners
      obtain ⟨u, w₃, hall, hlast⟩ := Act.bind_eq_ok.mp hrest
      obtain ⟨-, rfl⟩ := Act.pure_eq_ok.mp hlast
      exact forM_changed_index hall

/-- An event is never refused. -/
theorem apply_heeds (e : FileEvent) (hw : w.Quiet) :
    ∃ w', Act.apply Memory.surroundings e w = .ok (.ok ()) w' ∧
      w'.index = (Change.event e).news?.elim w.index (w.index.hear w.outside) := by
  obtain ⟨event, p⟩ := e
  by_cases hlock : p.fileName? = some FileEvent.lockFileName
  · have hnews : (Change.event ⟨event, p⟩).news? = none := by
      simp [Change.news?, News.at?, Identity.of, Kind.ofPath?_lockFile hlock]
    rw [hnews]
    by_cases hk : event = .deleted
    · subst hk
      exact ⟨w, apply_lockFile_deleted hlock w, rfl⟩
    · obtain ⟨n, xs, w', h, -⟩ := restored_changesAt Memory.surroundings p hw.tidy.lone
      exact ⟨w', (apply_lockFile hlock hk w).trans (Act.bind_ok (discard_ok h) rfl),
        restored_index h⟩
  cases hkind : Kind.ofPath? p with
  | none =>
      exact ⟨w, apply_unknown hlock hkind event
        w, by simp [Change.news?, News.at?, Identity.of, hkind]⟩
  | some kind =>
      have hnews : (Change.event ⟨event, p⟩).news? = some ⟨event, ⟨Memory.locate p, kind⟩⟩ := by
        simp [Change.news?, News.at?, Identity.of, hkind]
      rw [hnews]
      -- a solution is heard of as such, and anything else as a script or project
      by_cases hr : kind.isResolvable = true
      · obtain ⟨w', h, hindex⟩ := tell_heeds (w := w) event ⟨Memory.locate p, kind⟩ hr
        exact ⟨w', (apply_eq_tell surroundings_mild.rooted hkind hr event w).trans h, hindex⟩
      · obtain rfl : kind = .solution := not_not.mp (mt Kind.isResolvable_iff.mpr hr)
        obtain ⟨w', h, hindex⟩ := solution_heeds (w := w) event ⟨Memory.locate p, .solution⟩ rfl
        refine ⟨w', (apply_solution hkind event w).trans ?_, hindex⟩
        cases event <;> exact h

/-- What is told with a path is news if the path is of the right kind, and is refused otherwise. -/
theorem attemptAt_heeds (accepts : Kind → Bool) {kind : EventKind} (p : Path)
    {action : Identity → Act Memory (Except Misuse Unit)}
    (haccepted : ∀ id, accepts id.kind = true →
      ∃ w', action id w = .ok (.ok ()) w' ∧ w'.index = w.index.hear w.outside ⟨kind, id⟩)
    (hrefused : ∀ id, accepts id.kind = false → ∃ m, action id w = .ok (.error m) w) :
    Act.Heeds w (News.at? accepts kind p) (Act.attemptAt p action) := by
  unfold News.at? Act.attemptAt
  cases Identity.of Memory.locate p with
  | error m => exact ⟨.error m, w, rfl, rfl, fun _ _ => rfl⟩
  | ok id =>
      cases hk : accepts id.kind with
      | true =>
          obtain ⟨w', h, hindex⟩ := haccepted id hk
          exact ⟨.ok (), w', h, by simpa [hk] using hindex, nofun⟩
      | false =>
          obtain ⟨m, h⟩ := hrefused id hk
          exact ⟨.error m, w, h, by simp [hk], fun _ _ => rfl⟩

theorem ifSolution_refused {id : Identity} (hk : id.kind ≠ .solution) (action : Act Memory Unit) :
    Act.ifSolution id action w = .ok (.error (.notASolution id.location)) w := by
  unfold Act.ifSolution
  rw [if_neg hk]
  rfl

theorem Change.attempt_heeds (c : Change) (hw : w.Quiet) : Act.Heeds w c.news? c.attempt := by
  cases c with
  | told kind p =>
      exact attemptAt_heeds Kind.isResolvable p (tell_heeds kind) fun id hk =>
        ⟨_, tell_solution kind hk⟩
  | event e =>
      obtain ⟨w', h, hindex⟩ := apply_heeds e hw
      exact ⟨.ok (), w', h, hindex, nofun⟩
  | solutionUpdated p =>
      exact attemptAt_heeds (· = .solution) p
        (fun id hk => solution_heeds .changed id (of_decide_eq_true hk))
        fun id hk => ⟨_, ifSolution_refused (of_decide_eq_false hk) _⟩
  | solutionDeleted p =>
      exact attemptAt_heeds (· = .solution) p
        (fun id hk => solution_heeds .deleted id (of_decide_eq_true hk))
        fun id hk => ⟨_, ifSolution_refused (of_decide_eq_false hk) _⟩
  | restored lockFile =>
      obtain ⟨n, xs, w', h, -⟩ := restored_changesAt Memory.surroundings lockFile hw.tidy.lone
      exact ⟨.ok (), w', Act.map_ok h, restored_index h, nofun⟩

/-- Whatever is attempted, the index hears of the news and of nothing else, and what is
refused changes nothing. -/
theorem Operation.attempt_heeds (op : Operation) (hw : w.Quiet) (ho : w.index.InOrder) :
    Act.Heeds w op.news? op.attempt := by
  cases op with
  | ask q =>
      obtain ⟨w', h⟩ := (Operation.ask q).returns hw
      have hindex : w'.index = w.index := (q.fetches surroundings_mild hw h).index
      rw [Operation.run_eq] at h
      obtain ⟨result, hresult⟩ := discard_eq_ok h
      refine ⟨result, w', hresult, hindex, fun m hm => ?_⟩
      subst hm
      exact q.attempt_harmless ho m w' hresult
  | tell c => exact c.attempt_heeds hw
  | edit p report => exact ⟨.ok (), _, rfl, rfl, nofun⟩
  | write p content => exact ⟨.ok (), _, rfl, rfl, nofun⟩
  | remove p => exact ⟨.ok (), _, rfl, rfl, nofun⟩

/-- The index is what it makes of the news. -/
theorem Operation.index_eq {op : Operation} (hw : w.Quiet) (ho : w.index.InOrder)
    (h : op.run w = .ok () w') :
    w'.index = op.news?.elim w.index (w.index.hear w.outside) := by
  obtain ⟨result, w₁, h₁, hindex, -⟩ := op.attempt_heeds hw ho
  rw [Operation.run_eq] at h
  cases h.symm.trans (discard_ok h₁)
  exact hindex

end

/-! ## The index after news -/

/-- The index holds scripts and projects on the one hand and solutions on the other, both in strict
order of places and each under the kind that its place has. -/
structure Index.Arranged (ix : Index) : Prop extends ix.InOrder where
  wellFormed : ∀ id ∈ ix.projects, id.WellFormed
  listed : (ix.solutions.map Prod.fst).Pairwise Identity.Before
  solutions : ∀ id members, (id, members) ∈ ix.solutions → id.WellFormed ∧ id.kind = .solution

theorem Index.Arranged.empty : Index.empty.Arranged where
  toInOrder := .empty
  wellFormed := by simp [Index.empty]
  listed := .nil
  solutions := by simp [Index.empty]

theorem Index.map_fst_putSolution (id : Identity) (members : List Identity)
    (l : List (Identity × List Identity)) :
    (Index.putSolution id members l).map Prod.fst = id.insert (l.map Prod.fst) := by
  induction l with
  | nil => rfl
  | cons entry rest ih =>
      obtain ⟨other, theirs⟩ := entry
      rw [Index.putSolution, List.map_cons, Identity.insert]
      cases compare id.location other.location with
      | lt => rfl
      | eq => rfl
      | gt => exact congrArg (other :: ·) ih

/-- What is put into a list in order takes the place of what was there for the same solution. -/
theorem Index.mem_putSolution {id x : Identity} {members xs : List Identity}
    {l : List (Identity × List Identity)} (hid : id.WellFormed)
    (hl : ∀ id members, (id, members) ∈ l → id.WellFormed)
    (ho : (l.map Prod.fst).Pairwise Identity.Before) :
    (x, xs) ∈ Index.putSolution id members l ↔ if x = id then xs = members else (x, xs) ∈ l := by
  induction l with
  | nil => by_cases hx : x = id <;> simp [Index.putSolution, hx]
  | cons entry rest ih =>
      obtain ⟨other, theirs⟩ := entry
      obtain ⟨hother, hrest⟩ := List.pairwise_cons.mp ho
      have hlater : ∀ y ys, (y, ys) ∈ rest → other.Before y :=
        fun y ys hy => hother y (List.mem_map.mpr ⟨_, hy, rfl⟩)
      have hapart : id = other → ∀ ys, (id, ys) ∉ rest :=
        fun heq ys hy => (hlater id ys hy).ne heq.symm
      cases hc : compare id.location other.location with
      | lt =>
          -- it comes before all that are there
          have hnew : ∀ ys, (id, ys) ∉ (other, theirs) :: rest := by
            intro ys hy
            rcases List.mem_cons.mp hy with heq | hy
            · cases heq
              exact Identity.Before.ne (a := id) hc rfl
            · exact Identity.Before.ne (a := id) (Identity.Before.trans hc (hlater id ys hy)) rfl
          simp only [Index.putSolution, hc]
          by_cases hx : x = id
          · subst hx
            rw [if_pos rfl, List.mem_cons, or_iff_left (hnew xs)]
            simp
          · simp [hx]
      | eq =>
          obtain rfl : id = other := hid.eq (hl other theirs (by simp)) (Location.eq_of_compare hc)
          simp only [Index.putSolution, hc]
          by_cases hx : x = id
          · subst hx
            rw [if_pos rfl, List.mem_cons, or_iff_left (hapart rfl xs)]
            simp
          · simp [hx]
      | gt =>
          have hne : id ≠ other := (Identity.before_of_gt hc).ne.symm
          simp only [Index.putSolution, hc, List.mem_cons,
            ih (fun y ys hy => hl y ys (List.mem_cons_of_mem _ hy)) hrest]
          by_cases hx : x = id
          · subst hx
            simp [hne]
          · simp [hx]

section

variable {ix : Index} {m : Memory} {n : News}

theorem Index.Arranged.setSolution (h : ix.Arranged) {id : Identity} (hid : id.WellFormed)
    (hk : id.kind = .solution) (members : List Identity) :
    (ix.setSolution id members).Arranged where
  toInOrder := ⟨h.resolvable, h.ascending⟩
  wellFormed := h.wellFormed
  listed := by
    show ((Index.putSolution id members ix.solutions).map Prod.fst).Pairwise Identity.Before
    rw [Index.map_fst_putSolution]
    exact id.pairwise_insert h.listed
  solutions x xs hx := by
    have hx := (Index.mem_putSolution hid (fun y ys hy => (h.solutions y ys hy).1) h.listed).mp hx
    split at hx
    · next heq => exact heq ▸ ⟨hid, hk⟩
    · exact h.solutions x xs hx

theorem Index.Arranged.removeSolution (h : ix.Arranged) (l : Location) :
    (ix.removeSolution l).Arranged where
  toInOrder := ⟨h.resolvable, h.ascending⟩
  wellFormed := h.wellFormed
  listed := h.listed.sublist (List.filter_sublist.map Prod.fst)
  solutions x xs hx := h.solutions x xs (List.mem_of_mem_filter hx)

theorem Index.Arranged.insertProject (h : ix.Arranged) {id : Identity} (hid : id.WellFormed)
    (hk : id.kind.isResolvable = true) : (ix.insertProject id).Arranged where
  toInOrder := h.toInOrder.insertProject hk
  wellFormed := Index.insertProject_wellFormed hid h.wellFormed
  listed := h.listed
  solutions := h.solutions

theorem Index.Arranged.removeProject (h : ix.Arranged) (l : Location) :
    (ix.removeProject l).Arranged where
  toInOrder := h.toInOrder.removeProject l
  wellFormed := Index.removeProject_wellFormed h.wellFormed
  listed := h.listed
  solutions := h.solutions

theorem Index.Arranged.hear (h : ix.Arranged) (hn : n.id.WellFormed) : (ix.hear m n).Arranged := by
  unfold Index.hear
  split
  · next hk =>
      split
      · exact h.removeSolution _
      · split
        · exact h.setSolution hn hk _
        · exact h.removeSolution _
  · next hk =>
      split
      · exact h.removeProject _
      · exact h.insertProject hn (Kind.isResolvable_iff.mpr hk)

/-- News of a script or project decide whether it is known, and leave the others alone. -/
theorem Index.Arranged.mem_projects_hear (h : ix.Arranged) (hn : n.id.WellFormed) {x : Identity} :
    x ∈ (ix.hear m n).projects ↔
      if x = n.id then x.kind.isResolvable = true ∧ n.kind ≠ .deleted else x ∈ ix.projects := by
  by_cases hk : n.id.kind = .solution
  · -- no solution is among the known projects
    have hsame : (ix.hear m n).projects = ix.projects := by
      unfold Index.hear
      rw [if_pos hk]
      split
      · rfl
      · split <;> rfl
    rw [hsame]
    split
    · next heq =>
        subst heq
        refine iff_of_false (fun hx => ?_) fun hx => ?_
        · exact Kind.isResolvable_iff.mp (h.resolvable _ hx) hk
        · exact Kind.isResolvable_iff.mp hx.1 hk
    · rfl
  · unfold Index.hear
    rw [if_neg hk]
    by_cases hd : n.kind = .deleted
    · have hplace : x ∈ ix.projects → (x.location ≠ n.id.location ↔ x ≠ n.id) := fun hx =>
        not_congr ⟨(h.wellFormed x hx).eq hn, fun heq => heq ▸ rfl⟩
      rw [if_pos hd]
      simp only [Index.removeProject, List.mem_filter, decide_eq_true_eq]
      split
      · next heq => simp [heq, hd]
      · next hne => exact ⟨fun hx => hx.1, fun hx => ⟨hx, (hplace hx).mpr hne⟩⟩
    · rw [if_neg hd]
      refine (Identity.mem_insert_iff hn h.wellFormed).trans ?_
      split
      · next heq => exact iff_of_true (Or.inl heq) ⟨heq ▸ Kind.isResolvable_iff.mpr hk, hd⟩
      · next hne => exact or_iff_right hne

/-- News of a solution decide what it lists, and leave the others alone. -/
theorem Index.Arranged.mem_solutions_hear (h : ix.Arranged) (hn : n.id.WellFormed) {x : Identity}
    {members : List Identity} :
    (x, members) ∈ (ix.hear m n).solutions ↔
      if x = n.id then
        x.kind = .solution ∧ n.kind ≠ .deleted ∧ ∃ text, m.read x.location.path = .ok text ∧
        members = Solution.members Memory.locate x.dir.path text
      else (x, members) ∈ ix.solutions := by
  have hremoved : (x, members) ∈ (ix.removeSolution n.id.location).solutions ↔
      x ≠ n.id ∧ (x, members) ∈ ix.solutions := by
    simp only [Index.removeSolution, List.mem_filter, decide_eq_true_eq]
    constructor
    · rintro ⟨hx, hne⟩
      exact ⟨fun heq => hne (heq ▸ rfl), hx⟩
    · rintro ⟨hne, hx⟩
      exact ⟨hx, fun heq => hne ((h.solutions x members hx).1.eq hn heq)⟩
  by_cases hk : n.id.kind = .solution
  · unfold Index.hear
    rw [if_pos hk]
    by_cases hd : n.kind = .deleted
    · rw [if_pos hd, hremoved]
      split
      · next heq => simp [heq, hd]
      · next hne => simp [hne]
    · rw [if_neg hd]
      cases htext : m.read n.id.location.path with
      | ok text =>
          refine (Index.mem_putSolution hn (fun y ys hy => (h.solutions y ys hy).1) h.listed).trans
            ?_
          split
          · next heq => simp [heq, hk, hd, htext]
          · rfl
      | error fault =>
          simp only [hremoved]
          split
          · next heq => simp [heq, htext]
          · next hne => simp [hne]
  · -- no script or project is among the known solutions
    have hsame : (ix.hear m n).solutions = ix.solutions := by
      unfold Index.hear
      rw [if_neg hk]
      split <;> rfl
    rw [hsame]
    split
    · next heq =>
        subst heq
        exact iff_of_false (fun hx => hk (h.solutions _ _ hx).2) fun hx => hk hx.1
    · rfl

end

/-! ## What was said last -/

/-- The last that the operations `ops` say of `id` is that `kind` happened to it, and it is
said after `before`. -/
def Operation.LastSaid (ops : List Operation) (id : Identity) (before : List Operation)
    (kind : EventKind) : Prop :=
  ∃ op after, ops = before ++ op :: after ∧ op.news? = some ⟨kind, id⟩ ∧
    ∀ later ∈ after, ∀ k, later.news? ≠ some ⟨k, id⟩

section

variable {ops before : List Operation} {op : Operation} {id : Identity} {kind : EventKind}

theorem Operation.not_lastSaid_nil : ¬ LastSaid [] id before kind := by
  rintro ⟨op, after, hsplit, -⟩
  cases before <;> cases hsplit

/-- An operation that says something of `id` is the last that does. -/
theorem Operation.lastSaid_concat_of_news {k : EventKind} (h : op.news? = some ⟨k, id⟩) :
    LastSaid (ops ++ [op]) id before kind ↔ before = ops ∧ kind = k := by
  constructor
  · rintro ⟨op', after, hsplit, hnews, hafter⟩
    rcases List.eq_nil_or_concat after with rfl | ⟨after, last, rfl⟩
    · obtain ⟨rfl, hop⟩ := List.append_inj' hsplit rfl
      cases hop
      cases h.symm.trans hnews
      exact ⟨rfl, rfl⟩
    · rw [List.concat_eq_append, ← List.cons_append, ← List.append_assoc] at hsplit
      obtain ⟨-, hop⟩ := List.append_inj' hsplit rfl
      cases hop
      exact absurd h (hafter op (by simp) k)
  · rintro ⟨rfl, rfl⟩
    exact ⟨op, [], rfl, h, by simp⟩

/-- An operation that says nothing of `id` leaves to others what is said last. -/
theorem Operation.lastSaid_concat (h : ∀ k, op.news? ≠ some ⟨k, id⟩) :
    LastSaid (ops ++ [op]) id before kind ↔ LastSaid ops id before kind := by
  constructor
  · rintro ⟨op', after, hsplit, hnews, hafter⟩
    rcases List.eq_nil_or_concat after with rfl | ⟨after, last, rfl⟩
    · obtain ⟨-, hop⟩ := List.append_inj' hsplit rfl
      cases hop
      exact absurd hnews (h kind)
    · rw [List.concat_eq_append, ← List.cons_append, ← List.append_assoc] at hsplit
      obtain ⟨hsame, -⟩ := List.append_inj' hsplit rfl
      exact ⟨op', after, hsame, hnews, fun later hlater => hafter later (by simp [hlater])⟩
  · rintro ⟨op', after, rfl, hnews, hafter⟩
    refine ⟨op', after ++ [op], by simp, hnews, fun later hlater => ?_⟩
    rcases List.mem_append.mp hlater with hlater | hlater
    · exact hafter later hlater
    · rwa [List.mem_singleton.mp hlater]

theorem News.at?_wellFormed {accepts : Kind → Bool} {k : EventKind} {p : Path} {n : News}
    (h : News.at? accepts k p = some n) : n.id.WellFormed := by
  unfold News.at? at h
  cases hid : Identity.of Memory.locate p with
  | error m => simp [hid] at h
  | ok x =>
      simp only [hid] at h
      split at h
      · cases h
        exact Identity.of_wellFormed hid
      · cases h

theorem Change.news?_wellFormed {c : Change} {n : News}
    (h : c.news? = some n) : n.id.WellFormed := by
  unfold Change.news? at h
  split at h
  · exact News.at?_wellFormed h
  · exact News.at?_wellFormed h
  · exact News.at?_wellFormed h
  · exact News.at?_wellFormed h
  · cases h

theorem Operation.news?_wellFormed {n : News} (h : op.news? = some n) : n.id.WellFormed := by
  unfold Operation.news? at h
  split at h
  · exact Change.news?_wellFormed h
  · cases h

end

/-! ## The index after a run -/

/-- The index of `w` follows what the operations `ops` said, from the memory `m` on. -/
structure Workspace.Registers (m : Memory) (ops : List Operation)
    (w : Workspace Memory) : Prop where
  /-- Known scripts and projects are in strict order of places. -/
  ascending : w.index.projects.Pairwise Identity.Before
  /-- The scripts and projects of which it was said last that they were created or
  changed are known. -/
  projects : ∀ id, id ∈ w.index.projects ↔
    id.kind.isResolvable = true ∧ ∃ before kind,
      Operation.LastSaid ops id before kind ∧ kind ≠ .deleted
  /-- So are solutions. -/
  listed : (w.index.solutions.map Prod.fst).Pairwise Identity.Before
  /-- The solutions of which it was said last that they were created or changed are known, if they
  could be read then, with the members that their text listed then. -/
  solutions : ∀ id members, (id, members) ∈ w.index.solutions ↔
    id.kind = .solution ∧ ∃ before kind w₀ text,
      Operation.LastSaid ops id before kind ∧ kind ≠ .deleted ∧
      Operation.runAll before (.fresh m) = .ok () w₀ ∧ w₀.outside.read id.location.path = .ok text ∧
      members = Solution.members Memory.locate id.dir.path text

section

variable {m : Memory} {ops : List Operation} {op : Operation} {w w' : Workspace Memory}

theorem Workspace.Registers.fresh (m : Memory) : (Workspace.fresh m).Registers m [] where
  ascending := .nil
  projects id := by simp [Workspace.fresh, Index.empty, Operation.not_lastSaid_nil]
  listed := .nil
  solutions id members := by simp [Workspace.fresh, Index.empty, Operation.not_lastSaid_nil]

/-- One more operation. Only what it says of a file can change what is known of it. -/
theorem Workspace.Registers.concat (h : w.Registers m ops)
    (hrun : Operation.runAll ops (.fresh m) = .ok () w) (ha : w.index.Arranged)
    (ha' : w'.index.Arranged) (hindex : w'.index = op.news?.elim w.index (w.index.hear w.outside)) :
    w'.Registers m (ops ++ [op]) := by
  cases hnews : op.news? with
  | none =>
      have hsilent : ∀ id k, op.news? ≠ some ⟨k, id⟩ := fun id k => by simp [hnews]
      rw [hnews] at hindex
      replace hindex : w'.index = w.index := hindex
      refine ⟨ha'.ascending, fun id => ?_, ha'.listed, fun id members => ?_⟩
      · simp only [hindex, h.projects, Operation.lastSaid_concat (hsilent id)]
      · simp only [hindex, h.solutions, Operation.lastSaid_concat (hsilent id)]
  | some n =>
      have hn := Operation.news?_wellFormed hnews
      rw [hnews] at hindex
      replace hindex : w'.index = w.index.hear w.outside n := hindex
      refine ⟨ha'.ascending, fun id => ?_, ha'.listed, fun id members => ?_⟩
      · rw [hindex, ha.mem_projects_hear hn]
        split
        · next heq =>
            subst heq
            simp [Operation.lastSaid_concat_of_news hnews]
        · next hne =>
            have hsilent : ∀ k, op.news? ≠ some ⟨k, id⟩ :=
              fun k hk => hne (by cases hk.symm.trans hnews; rfl)
            simp only [h.projects, Operation.lastSaid_concat hsilent]
      · rw [hindex, ha.mem_solutions_hear hn]
        split
        · next heq =>
            subst heq
            have hdet : ∀ w₀, Operation.runAll ops (.fresh m) = .ok () w₀ ↔ w₀ = w := fun w₀ =>
              ⟨fun h₀ => by cases h₀.symm.trans hrun; rfl, fun heq => heq ▸ hrun⟩
            simp [Operation.lastSaid_concat_of_news hnews, and_assoc, hdet]
        · next hne =>
            have hsilent : ∀ k, op.news? ≠ some ⟨k, id⟩ :=
              fun k hk => hne (by cases hk.symm.trans hnews; rfl)
            simp only [h.solutions, Operation.lastSaid_concat hsilent]

end

/-- **The index follows what the workspace is told.** After any operations, in whatever spelling
files were named, the known scripts and projects are those of which it was said last that they were
created or changed, and the known solutions are those of which this was said last when they could be
read, with the members that they listed at that moment; both are in strict order of places. An event
is never refused then, and an operation that is refused changes nothing at all. -/
theorem index_registered (m : Memory) (ops : List Operation) :
    ∃ w, Operation.runAll ops (.fresh m) = .ok () w ∧ w.Registers m ops ∧
      (∀ e, ∃ w', Act.apply Memory.surroundings e w = .ok (.ok ()) w') ∧
      ∀ op : Operation, ∃ result w', op.attempt w = .ok result w' ∧ ∀ misuse,
        result = .error misuse → w' = w := by
  obtain ⟨w, hrun, hw, ha, hregisters⟩ := Operation.runAll_tracks
    (P := fun ops w => w.index.Arranged ∧ w.Registers m ops) m ops ⟨.empty, .fresh m⟩
    fun ops op w w' hrun hw hop ⟨ha, h⟩ => by
      have hindex := Operation.index_eq hw ha.toInOrder hop
      have ha' : w'.index.Arranged := by
        rw [hindex]
        cases hnews : op.news? with
        | none => exact ha
        | some n => exact ha.hear (Operation.news?_wellFormed hnews)
      exact ⟨ha', h.concat hrun ha ha' hindex⟩
  refine ⟨w, hrun, hregisters, fun e => ?_, fun op => ?_⟩
  · obtain ⟨w', h, -⟩ := apply_heeds e hw
    exact ⟨w', h⟩
  · obtain ⟨result, w', h, -, hrefused⟩ := op.attempt_heeds hw ha.toInOrder
    exact ⟨result, w', h, hrefused⟩

end FSharpWorkspace
