import FSharpWorkspace.Proofs.Sequential.Authored
/-!
# Owners

The search for the owner of a file resolves one candidate after the other, and each resolution
may bring results for candidates that come later. That does not mislead it. Whenever a candidate
is resolved, the surroundings decide its sources (`Resolution.Authored.sources_eq`), and the
search leaves these as they are. So the candidate that is found is the first one that compiles
the file if it is resolved at once (`tryCandidates_finds`), in the order in which candidates are
tried (`Index.Tries`).
-/

set_option autoImplicit false

namespace FSharpWorkspace

/-! ## The first one -/

/-- `x` has the property `P`, and comes before all others that have it. -/
def IsFirst {α : Type} (before : α → α → Prop) (P : α → Prop) (x : α) : Prop :=
  P x ∧ ∀ y, P y → y = x ∨ before x y

/-- What stands before the others in an ordered list, and after none that has the
property, is the first one. -/
theorem IsFirst.of_append {α : Type} {before : α → α → Prop} {P : α → Prop} {x : α} {xs ys : List α}
    (ho : (xs ++ x :: ys).Pairwise before) (hx : P x) (hxs : ∀ y ∈ xs, ¬ P y)
    (hmem : ∀ y, P y → y ∈ xs ++ x :: ys) : IsFirst before P x := by
  refine ⟨hx, fun y hy => ?_⟩
  rcases List.mem_append.mp (hmem y hy) with hm | hm
  · exact absurd hy (hxs y hm)
  · rcases List.mem_cons.mp hm with rfl | hm
    · exact Or.inl rfl
    · obtain ⟨-, hrest, -⟩ := List.pairwise_append.mp ho
      exact Or.inr ((List.pairwise_cons.mp hrest).1 y hm)

/-! ## Who could own a file -/

/-- The order in which candidates are tried: members of solutions first, otherwise
in order of places. -/
def Index.Tries (ix : Index) (a b : Identity) : Prop :=
  if ix.inAnySolution a.location = ix.inAnySolution b.location then a.Before b
  else ix.inAnySolution a.location = true

namespace Workspace

def Owns (w : Workspace Memory) (file : Location) (id : Identity) : Prop :=
  id ∈ w.index.projects ∧ ∃ r, w.cache.peek id.location = some r ∧ file ∈ r.sources

/-- `id` is known and has no result, its text mentions the name of `file`, and if it is resolved
now, it compiles `file`. -/
structure WouldOwn (w : Workspace Memory) (file : Location) (id : Identity) : Prop where
  known : id ∈ w.index.projects
  unresolved : w.cache.peek id.location = none
  mentions : Act.mentionsName Memory.surroundings id (file.fileName?.getD file.text) w = .ok true w
  compiles : ∃ r w', Act.resolve Memory.surroundings id w = .ok r w' ∧ file ∈ r.sources

end Workspace

/-! ## Reading candidates off the surroundings -/

/-- Whether the text of a file mentions a name. -/
def Memory.mentions (m : Memory) (id : Identity) (name : String) : Bool :=
  match m.read id.location.path with
  | .ok text => Text.mentions text name
  | .error _ => false

/-- Whether a script or project mentions the name of `file` and compiles it. -/
def Memory.offers (m : Memory) (file : Location) (id : Identity) : Bool :=
  m.mentions id (file.fileName?.getD file.text) && (m.sourcesOf id).contains file

theorem mentionsName_eq (id : Identity) (name : String) (w : Workspace Memory) :
    Act.mentionsName Memory.surroundings id name w = .ok (w.outside.mentions id name) w := by
  unfold Act.mentionsName Memory.mentions
  refine Act.bind_ok (a := w.outside.read id.location.path) rfl ?_
  cases w.outside.read id.location.path <;> rfl

/-- The result says what is wrong, and does not say that nobody compiles a file. -/
def Resolution.Explains (r : Resolution) : Prop :=
  r.diagnostics ≠ [] ∧ ∀ d ∈ r.diagnostics, d.kind ≠ .noOwner

/-! ## The search -/

/-- A search that started in `w₀` is in `w`: some files were resolved, from the
surroundings of `w₀`. -/
structure Searched (w₀ w : Workspace Memory) : Prop where
  quiet : w.Quiet
  still : Still w₀ w
  authored : ∀ l r, w.cache.peek l = some r → w₀.cache.peek l = some r ∨ r.Authored w₀.outside l

section

variable {w₀ w w' : Workspace Memory}

theorem Searched.refl (hw : w.Quiet) : Searched w w := ⟨hw, .refl hw.tidy, fun _ _ h => Or.inl h⟩

theorem Searched.mentions (h : Searched w₀ w) (id : Identity) (name : String) :
    w.outside.mentions id name = w₀.outside.mentions id name := by
  obtain ⟨cracks, ho⟩ := h.still.outside
  rw [ho]
  rfl

/-- The search goes on by resolving a file, whose result is in the map then. -/
theorem Searched.resolve (hw₀ : w₀.Quiet) (h : Searched w₀ w) {id : Identity}
    (hid : id.WellFormed) :
    ∃ r w', Act.resolve Memory.surroundings id w = .ok r w' ∧ Searched w₀ w' ∧
      w'.cache.peek id.location = some r := by
  obtain ⟨r, w', hr, hs⟩ := resolve_returns hid h.quiet.tidy h.quiet.idle.not_busy
  obtain ⟨hstill, hpeek⟩ := hs.still hid h.quiet.tidy
  refine ⟨r, w', hr,
    ⟨h.quiet.steps surroundings_mild hid hs, h.still.trans hw₀.tidy hstill, fun l u hu => ?_⟩,
    hpeek⟩
  rcases hs.authored hid h.quiet.tidy hu with hu | hu
  · exact h.authored l u hu
  · obtain ⟨cracks, ho⟩ := h.still.outside
    rw [ho, Resolution.authored_cracks] at hu
    exact Or.inr hu

/-- What the map says on a file that had no result before: it was made in the search. -/
theorem Searched.made (h : Searched w₀ w) {id : Identity} {r : Resolution} (hid : id.WellFormed)
    (hnone : w₀.cache.peek id.location = none) (hr : w.cache.peek id.location = some r) :
    r.id = id ∧ r.Authored w₀.outside id.location := by
  rcases h.authored _ r hr with hold | hmade
  · cases hnone.symm.trans hold
  · exact ⟨hmade.wellFormed.eq hid hmade.place, hmade⟩

/-- A candidate is known to be a script or project, and had no result before the search. -/
structure Workspace.Candidate (w₀ : Workspace Memory) (id : Identity) : Prop where
  wellFormed : id.WellFormed
  resolvable : id.kind.isResolvable = true
  unresolved : w₀.cache.peek id.location = none

theorem Searched.sources (h : Searched w₀ w) {id : Identity} {r : Resolution}
    (hid : w₀.Candidate id) (hr : w.cache.peek id.location = some r) :
    r.sources = w₀.outside.sourcesOf id := by
  obtain ⟨rfl, hmade⟩ := h.made hid.wellFormed hid.unresolved hr
  exact hmade.sources_eq hid.resolvable

theorem Searched.explains (h : Searched w₀ w) {id : Identity} {r : Resolution}
    (hid : w₀.Candidate id) (hr : w.cache.peek id.location = some r)
    (hd : r.hasDiagnostics = true) : r.Explains := by
  obtain ⟨rfl, hmade⟩ := h.made hid.wellFormed hid.unresolved hr
  exact ⟨by simpa [Resolution.hasDiagnostics] using hd, hmade.diagnostic_kind hid.resolvable⟩

/-- The failure that is remembered after a candidate says what is wrong, if the one
remembered before does. -/
theorem Searched.remembers (h : Searched w₀ w) {id : Identity} {r : Resolution}
    (hid : w₀.Candidate id) (hr : w.cache.peek id.location = some r) {broken : Option Resolution}
    (hb : ∀ r, broken = some r → r.Explains) :
    ∀ b, (broken <|> if r.sources.isEmpty && r.hasDiagnostics then some r else none) =
      some b → b.Explains := by
  intro b hsome
  cases broken with
  | some b' => exact hb b hsome
  | none =>
      replace hsome : (if r.sources.isEmpty && r.hasDiagnostics then some r else none) = some b :=
        hsome
      split at hsome
      · next hfailed =>
          cases hsome
          exact h.explains hid hr (Bool.and_eq_true_iff.mp hfailed).2
      · cases hsome

/-- What becomes of the candidate `id` when its turn comes in `w`. The candidates after it are
`rest`, and `broken` is the failure that is remembered. -/
inductive Candidate.Turn (w₀ : Workspace Memory) (file : Location) (id : Identity)
    (rest : List Identity) (broken : Option Resolution) (w : Workspace Memory) : Prop where
  /-- It does not mention the name of the file. -/
  | passedOver (mentions : w₀.outside.mentions id (file.fileName?.getD file.text) = false)
    (offers : w₀.outside.offers file id = false)
    (goes : Act.tryCandidates Memory.surroundings file
      (file.fileName?.getD file.text) (id :: rest) broken w =
      Act.tryCandidates Memory.surroundings file (file.fileName?.getD file.text) rest broken w)
  /-- It compiles the file, and the search ends. -/
  | compiles (r : Resolution) (w₁ : Workspace Memory)
    (mentions : w₀.outside.mentions id (file.fileName?.getD file.text) = true)
    (offers : w₀.outside.offers file id = true)
    (resolves : Act.resolve Memory.surroundings id w = .ok r w₁)
    (searched : Searched w₀ w₁) (peek : w₁.cache.peek id.location = some r)
    (goes : Act.tryCandidates Memory.surroundings file
      (file.fileName?.getD file.text) (id :: rest) broken w =
      .ok (.ok r) w₁)
  /-- It mentions the name, but does not compile the file. -/
  | inVain (r : Resolution) (w₁ : Workspace Memory)
    (mentions : w₀.outside.mentions id (file.fileName?.getD file.text) = true)
    (offers : w₀.outside.offers file id = false)
    (resolves : Act.resolve Memory.surroundings id w = .ok r w₁)
    (searched : Searched w₀ w₁) (peek : w₁.cache.peek id.location = some r)
    (goes : Act.tryCandidates Memory.surroundings file
      (file.fileName?.getD file.text) (id :: rest) broken w =
      Act.tryCandidates Memory.surroundings file (file.fileName?.getD file.text) rest
        (broken <|> if r.sources.isEmpty && r.hasDiagnostics then some r else none) w₁)

theorem Searched.turn (hw₀ : w₀.Quiet) (h : Searched w₀ w) {id : Identity} (hid : w₀.Candidate id)
    (file : Location) (rest : List Identity) (broken : Option Resolution) :
    Candidate.Turn w₀ file id rest broken w := by
  have hname := mentionsName_eq id (file.fileName?.getD file.text) w
  rw [h.mentions] at hname
  cases hm : w₀.outside.mentions id (file.fileName?.getD file.text) with
  | false =>
      refine .passedOver hm (by simp [Memory.offers, hm]) ((Act.bind_apply hname).trans ?_)
      rw [hm, if_neg Bool.false_ne_true]
  | true =>
      obtain ⟨r, w₁, hr, hs, hpeek⟩ := h.resolve hw₀ hid.wellFormed
      have hoffers : w₀.outside.offers file id = r.containsSource file := by
        rw [Memory.offers, hm, Bool.true_and, Resolution.containsSource, hs.sources hid hpeek]
      have hgoes :
        Act.tryCandidates Memory.surroundings file
        (file.fileName?.getD file.text) (id :: rest) broken w =
          (if r.containsSource file then pure (.ok r)
            else Act.tryCandidates Memory.surroundings file (file.fileName?.getD file.text) rest
              (broken <|> if r.sources.isEmpty && r.hasDiagnostics then some r else none) :
            Act Memory (Except (Option Resolution) Resolution)) w₁ := by
        refine (Act.bind_apply hname).trans ?_
        rw [hm, if_pos rfl]
        exact Act.bind_apply hr
      cases hc : r.containsSource file with
      | true =>
          rw [hc, if_pos rfl] at hgoes
          exact .compiles r w₁ hm (hoffers.trans hc) hr hs hpeek hgoes
      | false =>
          rw [hc, if_neg Bool.false_ne_true] at hgoes
          exact .inVain r w₁ hm (hoffers.trans hc) hr hs hpeek hgoes

/-- Trying candidates finds the first that mentions the name of the file and compiles it. -/
theorem tryCandidates_finds (hw₀ : w₀.Quiet) (file : Location) {ids : List Identity}
    (hids : ∀ id ∈ ids, w₀.Candidate id) (h : Searched w₀ w) {broken : Option Resolution}
    (hb : ∀ r, broken = some r → r.Explains) :
    ∃ answer w',
      Act.tryCandidates Memory.surroundings file (file.fileName?.getD file.text) ids broken w =
        .ok answer w' ∧ Searched w₀ w' ∧
      match ids.find? (w₀.outside.offers file) with
      | some id => ∃ r, answer = .ok r ∧ w'.cache.peek id.location = some r
      | none => ∃ broken', answer = .error broken' ∧ ∀ r, broken' = some r → r.Explains := by
  induction ids generalizing w broken with
  | nil => exact ⟨_, w, rfl, h, broken, rfl, hb⟩
  | cons id rest ih =>
      have hid := hids id (by simp)
      have hrest := fun x hx => hids x (List.mem_cons_of_mem id hx)
      cases h.turn hw₀ hid file rest broken with
      | passedOver _ offers goes =>
          rw [goes, List.find?_cons_of_neg (by simp [offers])]
          exact ih hrest h hb
      | compiles r w₁ _ offers _ searched peek goes =>
          rw [goes, List.find?_cons_of_pos offers]
          exact ⟨.ok r, w₁, rfl, searched, r, rfl, peek⟩
      | inVain r w₁ _ offers _ searched peek goes =>
          rw [goes, List.find?_cons_of_neg (by simp [offers])]
          exact ih hrest searched (searched.remembers hid peek hb)

/-! ## Known owners and candidates -/

theorem Resolution.containsSource_iff {r : Resolution} {file : Location} :
    r.containsSource file = true ↔ file ∈ r.sources := by
  simp [Resolution.containsSource]

/-- The result that is found in the map is that of the first known file that compiles `file`. -/
theorem resolvedOwner?_eq_some {file : Location} {r : Resolution} (ho : w.index.InOrder)
    (h : Act.resolvedOwner? w.cache w.index.projects file = some r) :
    ∃ id, IsFirst Identity.Before (w.Owns file) id ∧
      w.cache.peek id.location = some r ∧ file ∈ r.sources := by
  obtain ⟨before, id, after, hsplit, hid, hbefore⟩ := List.findSome?_eq_some_iff.mp h
  obtain ⟨hr, hc⟩ := Option.filter_eq_some_iff.mp hid
  have hmem : file ∈ r.sources := Resolution.containsSource_iff.mp hc
  refine ⟨id, .of_append (hsplit ▸ ho.ascending) ⟨by simp [hsplit], r, hr, hmem⟩
    (fun x hx hown => ?_) ?_, hr, hmem⟩
  · obtain ⟨-, u, hu, hfile⟩ := hown
    have hnone := hbefore x hx
    rw [hu, Option.filter_some, if_pos (Resolution.containsSource_iff.mpr hfile)] at hnone
    cases hnone
  · exact fun x hx => hsplit ▸ hx.1

theorem not_owns_of_resolvedOwner?_eq_none {file : Location}
    (h : Act.resolvedOwner? w.cache w.index.projects file = none)
    (id : Identity) : ¬ w.Owns file id := by
  rintro ⟨hid, r, hr, hfile⟩
  have hnone := List.findSome?_eq_none_iff.mp h id hid
  rw [hr, Option.filter_some, if_pos (Resolution.containsSource_iff.mpr hfile)] at hnone
  cases hnone

theorem Act.mem_candidates {c : Cache Resolution} {ix : Index} {id : Identity} :
    id ∈ Act.candidates c ix ↔ id ∈ ix.projects ∧ c.peek id.location = none := by
  unfold Act.candidates
  cases hs : ix.inAnySolution id.location <;> simp [hs]

/-- The candidates are in the order in which they are tried. -/
theorem Act.pairwise_candidates (c : Cache Resolution) {ix : Index} (h : ix.InOrder) :
    (Act.candidates c ix).Pairwise ix.Tries := by
  have hunresolved := h.ascending.filter fun id => (c.peek id.location).isNone
  refine List.pairwise_append.mpr ⟨?_, ?_, fun a ha b hb => ?_⟩
  · refine List.pairwise_filter.mpr (hunresolved.imp fun {a b} hab ha hb => ?_)
    rwa [Index.Tries, if_pos (ha.trans hb.symm)]
  · refine List.pairwise_filter.mpr (hunresolved.imp fun {a b} hab ha hb => ?_)
    rw [Bool.not_eq_true'] at ha hb
    rwa [Index.Tries, if_pos (ha.trans hb.symm)]
  · have ha' := (List.mem_filter.mp ha).2
    have hb' := (List.mem_filter.mp hb).2
    rw [Bool.not_eq_true'] at hb'
    simp [Index.Tries, ha', hb']

theorem Workspace.Quiet.candidate (hw : w.Quiet) (ho : w.index.InOrder) {id : Identity}
    (hid : id ∈ Act.candidates w.cache w.index) : w.Candidate id := by
  obtain ⟨hknown, hnone⟩ := Act.mem_candidates.mp hid
  exact ⟨hw.tidy.known id hknown, ho.resolvable id hknown, hnone⟩

/-- Whether a candidate would own the file can be read off the surroundings. -/
theorem Workspace.Quiet.wouldOwn_iff (hw : w.Quiet) (ho : w.index.InOrder) {file : Location}
    {id : Identity} :
    w.WouldOwn file id ↔ id ∈ Act.candidates w.cache w.index ∧ w.outside.offers file id = true := by
  have hname := mentionsName_eq id (file.fileName?.getD file.text) w
  have hmem : id ∈ Act.candidates w.cache w.index → ∀ r w',
    Act.resolve Memory.surroundings id w = .ok r w' →
      r.sources = w.outside.sourcesOf id := by
    intro hid r w' hr
    have hcandidate := hw.candidate ho hid
    obtain ⟨u, w₁, hu, hs, hpeek⟩ := (Searched.refl hw).resolve hw hcandidate.wellFormed
    cases hu.symm.trans hr
    exact hs.sources hcandidate hpeek
  constructor
  · rintro ⟨hknown, hnone, hmentions, r, w', hr, hfile⟩
    have hid := Act.mem_candidates.mpr ⟨hknown, hnone⟩
    cases hm : w.outside.mentions id (file.fileName?.getD file.text) with
    | false =>
        rw [hm] at hname
        cases hname.symm.trans hmentions
    | true => exact ⟨hid, by simpa [Memory.offers, hm, ← hmem hid r w' hr] using hfile⟩
  · rintro ⟨hid, hoffers⟩
    obtain ⟨hm, hfile⟩ := Bool.and_eq_true_iff.mp hoffers
    obtain ⟨hknown, hnone⟩ := Act.mem_candidates.mp hid
    obtain ⟨r, w', hr, -⟩ := (Searched.refl hw).resolve hw (hw.candidate ho hid).wellFormed
    refine ⟨hknown, hnone, by rw [hname, hm], r, w', hr, ?_⟩
    rw [hmem hid r w' hr]
    simpa using hfile

end

/-! ## Answers -/

/-- What an answer to the question who owns `file` says. It was asked in `w` and
leaves `w'` behind. -/
structure OwnerAnswer (w : Workspace Memory) (file : Location)
    (answer : Except (List Diagnostic) Resolution) (w' : Workspace Memory) : Prop where
  /-- A result that is returned compiles the file, and nothing is wrong with it. -/
  ok : ∀ r, answer = .ok r → file ∈ r.sources ∧ r.diagnostics = []
  /-- Otherwise something is said. -/
  error : ∀ ds, answer = .error ds → ds ≠ []
  /-- Nobody is said to own the file only if nobody is found to. -/
  nobody : ∀ ds, answer = .error ds → (∃ d ∈ ds, d.kind = .noOwner) →
    (¬ ∃ id, w.Owns file id) ∧ ¬ ∃ id, w.WouldOwn file id
  /-- The answer comes from the first owner that has a result. -/
  resolved : Kind.ofPath? file.path ≠ some .script → (∃ id, w.Owns file id) →
    ∃ id r, IsFirst Identity.Before (w.Owns file) id ∧
      w.cache.peek id.location = some r ∧ answer = Act.surface r
  /-- If none has a result, the answer comes from the first that turns out to be an
  owner when it is tried. -/
  tried : Kind.ofPath? file.path ≠ some .script → (¬ ∃ id, w.Owns file id) →
    (∃ id, w.WouldOwn file id) →
    ∃ id r, IsFirst w.index.Tries (w.WouldOwn file) id ∧ w'.cache.peek id.location = some r ∧
      file ∈ r.sources ∧ answer = Act.surface r

theorem Act.surface_eq_ok {r r' : Resolution} :
    Act.surface r = .ok r' ↔ r.diagnostics = [] ∧ r = r' := by
  unfold Act.surface Resolution.hasDiagnostics
  cases r.diagnostics <;> simp

theorem Act.surface_eq_error {r : Resolution} {ds : List Diagnostic} :
    Act.surface r = .error ds ↔ r.diagnostics ≠ [] ∧ r.diagnostics = ds := by
  unfold Act.surface Resolution.hasDiagnostics
  cases r.diagnostics <;> simp

section

variable {w w' : Workspace Memory} {file : Location}

/-- An answer that is the result of a script or project. -/
theorem OwnerAnswer.of_surface {r : Resolution} (hfile : r.diagnostics = [] → file ∈ r.sources)
    (hkind : ∀ d ∈ r.diagnostics, d.kind ≠ .noOwner)
    (hresolved : Kind.ofPath? file.path ≠ some .script → (∃ id, w.Owns file id) →
      ∃ id, IsFirst Identity.Before (w.Owns file) id ∧ w.cache.peek id.location = some r)
    (htried : Kind.ofPath? file.path ≠ some .script → (¬ ∃ id, w.Owns file id) →
      (∃ id, w.WouldOwn file id) →
      ∃ id, IsFirst w.index.Tries (w.WouldOwn file) id ∧
      w'.cache.peek id.location = some r ∧ file ∈ r.sources) :
    OwnerAnswer w file (Act.surface r) w' where
  ok r' h := by
    obtain ⟨hd, rfl⟩ := Act.surface_eq_ok.mp h
    exact ⟨hfile hd, hd⟩
  error ds h := by
    obtain ⟨hd, rfl⟩ := Act.surface_eq_error.mp h
    exact hd
  nobody ds h hnobody := by
    obtain ⟨-, rfl⟩ := Act.surface_eq_error.mp h
    obtain ⟨d, hd, hk⟩ := hnobody
    exact absurd hk (hkind d hd)
  resolved hs ho := by
    obtain ⟨id, hid, hr⟩ := hresolved hs ho
    exact ⟨id, r, hid, hr, rfl⟩
  tried hs hn ho := by
    obtain ⟨id, hid, hr, hfile⟩ := htried hs hn ho
    exact ⟨id, r, hid, hr, hfile, rfl⟩

/-- An answer when there is no owner. -/
theorem OwnerAnswer.of_nobody {ds : List Diagnostic} (hds : ds ≠ []) (hn : ¬ ∃ id, w.Owns file id)
    (ht : ¬ ∃ id, w.WouldOwn file id) : OwnerAnswer w file (.error ds) w' where
  ok r h := by cases h
  error ds' h := by
    cases h
    exact hds
  nobody _ _ _ := ⟨hn, ht⟩
  resolved _ h := absurd h hn
  tried _ _ h := absurd h ht

/-- No result of a script or project says that nobody compiles it. -/
theorem Workspace.Authored.diagnostic_kind (ha : w.Authored) {id : Identity} {r : Resolution}
    (hid : id.WellFormed) (hk : id.kind.isResolvable = true)
    (hr : w.cache.peek id.location = some r) :
    ∀ d ∈ r.diagnostics, d.kind ≠ .noOwner := by
  obtain ⟨m, hm⟩ := ha _ r hr
  obtain rfl := hm.wellFormed.eq hid hm.place
  exact hm.diagnostic_kind hk

theorem Searched.workspace_authored (h : Searched w w') (ha : w.Authored) : w'.Authored := by
  intro l r hr
  rcases h.authored l r hr with hr | hr
  · exact ha l r hr
  · exact ⟨_, hr⟩

/-- A script is its own owner: its options are what is answered. -/
theorem ownerOf_eq_surface (hproper : file.Proper) (hk : Kind.ofPath? file.path = some .script)
    {r : Resolution} (h : Act.resolve Memory.surroundings ⟨file, .script⟩ w = .ok r w') :
    Act.ownerOf Memory.surroundings file w = .ok (Act.surface r) w' := by
  have hof : Identity.of Memory.locate file.path = .ok ⟨file, .script⟩ := by
    rw [Identity.of_eq_ok hk, Memory.locate, Location.reach_path hproper]
  unfold Act.ownerOf
  rw [if_pos hk]
  refine Act.bind_ok (identify_eq surroundings_mild.rooted file.path w) ?_
  rw [hof]
  exact Act.bind_ok h rfl

theorem ownerOf_script (hw : w.Quiet) (ha : w.Authored) (hproper : file.Proper)
    (hk : Kind.ofPath? file.path = some .script) :
    ∃ answer w', Act.ownerOf Memory.surroundings file w = .ok answer w' ∧
      OwnerAnswer w file answer w' := by
  have hid : (⟨file, .script⟩ : Identity).WellFormed := ⟨hproper, hk⟩
  obtain ⟨r, w', hr, hs, hpeek⟩ := (Searched.refl hw).resolve hw hid
  refine ⟨Act.surface r, w', ownerOf_eq_surface hproper hk hr,
    .of_surface (fun hd => ?_) ?_ (fun hn => absurd hk hn) fun hn => absurd hk hn⟩
  · obtain ⟨m, hm⟩ := hs.workspace_authored ha _ r hpeek
    have hrid : r.id = ⟨file, .script⟩ := hm.wellFormed.eq hid hm.place
    simpa [hrid] using hm.mem_sources_self (by rw [hrid]) hd
  · exact (hs.workspace_authored ha).diagnostic_kind hid rfl hpeek

/-- A file that some result compiles has the owner that is found first in the map. -/
theorem ownerOf_resolved (hw : w.Quiet) (ha : w.Authored) (ho : w.index.InOrder)
    (hk : Kind.ofPath? file.path ≠ some .script) {r : Resolution}
    (hr : Act.resolvedOwner? w.cache w.index.projects file = some r) :
    Act.ownerOf Memory.surroundings file w = .ok (Act.surface r) w ∧
      OwnerAnswer w file (Act.surface r) w := by
  obtain ⟨id, hfirst, hpeek, hfile⟩ := resolvedOwner?_eq_some ho hr
  constructor
  · unfold Act.ownerOf
    rw [if_neg hk]
    refine Act.bind_ok rfl (Act.bind_ok rfl ?_)
    rw [hr]
    rfl
  · have hknown := hfirst.1.1
    exact .of_surface (fun _ => hfile)
      (ha.diagnostic_kind (hw.tidy.known id hknown) (ho.resolvable id hknown) hpeek)
      (fun _ _ => ⟨id, hfirst, hpeek⟩) fun _ hn => absurd ⟨id, hfirst.1⟩ hn

/-- The candidate that a search finds is the first that would own the file. -/
theorem Workspace.Quiet.isFirst_of_find? (hw : w.Quiet) (ho : w.index.InOrder) {id : Identity}
    (h : (Act.candidates w.cache w.index).find? (w.outside.offers file) = some id) :
    IsFirst w.index.Tries (w.WouldOwn file) id := by
  obtain ⟨hoffers, before, after, hsplit, hbefore⟩ := List.find?_eq_some_iff_append.mp h
  have hid : id ∈ Act.candidates w.cache w.index := by simp [hsplit]
  refine .of_append (hsplit ▸ Act.pairwise_candidates w.cache ho)
    ((hw.wouldOwn_iff ho).mpr ⟨hid, hoffers⟩)
    (fun x hx hwould => ?_) fun x hx => hsplit ▸ ((hw.wouldOwn_iff ho).mp hx).1
  have hpassed := hbefore x hx
  rw [((hw.wouldOwn_iff ho).mp hwould).2] at hpassed
  cases hpassed

theorem Workspace.Quiet.not_wouldOwn_of_find? (hw : w.Quiet) (ho : w.index.InOrder)
    (h : (Act.candidates w.cache w.index).find? (w.outside.offers file) = none) :
    ¬ ∃ id, w.WouldOwn file id := by
  rintro ⟨id, hwould⟩
  obtain ⟨hid, hoffers⟩ := (hw.wouldOwn_iff ho).mp hwould
  exact List.find?_eq_none.mp h id hid hoffers

/-- What is answered after the candidates were tried. -/
def Act.triedAnswer (file : Location) :
    Except (Option Resolution) Resolution → Except (List Diagnostic) Resolution
  | .ok r => Act.surface r
  | .error (some broken) => .error broken.diagnostics
  | .error none => .error [Act.noOwner file]

theorem ownerOf_eq_tried (hk : Kind.ofPath? file.path ≠ some .script)
    (hr : Act.resolvedOwner? w.cache w.index.projects file = none)
    {found : Except (Option Resolution) Resolution}
    (hrun : Act.tryCandidates Memory.surroundings file (file.fileName?.getD file.text)
      (Act.candidates w.cache w.index) none w = .ok found w') :
    Act.ownerOf Memory.surroundings file w = .ok (Act.triedAnswer file found) w' := by
  unfold Act.ownerOf
  rw [if_neg hk]
  refine Act.bind_ok rfl (Act.bind_ok rfl ?_)
  rw [hr]
  refine Act.bind_ok hrun ?_
  rcases found with (_ | broken) | r
  · rfl
  · rfl
  · rfl

/-- A file that no result compiles is looked for among the candidates. -/
theorem ownerOf_unresolved (hw : w.Quiet) (ha : w.Authored) (ho : w.index.InOrder)
    (hk : Kind.ofPath? file.path ≠ some .script)
    (hr : Act.resolvedOwner? w.cache w.index.projects file = none) :
    ∃ answer w', Act.ownerOf Memory.surroundings file w = .ok answer w' ∧
      OwnerAnswer w file answer w' := by
  have hnone : ¬ ∃ id, w.Owns file id := fun ⟨id, h⟩ => not_owns_of_resolvedOwner?_eq_none hr id h
  have hnothing : ∀ r : Resolution, none = some r → r.Explains := fun r h => by cases h
  obtain ⟨found, w', hrun, hs, hfound⟩ :=
    tryCandidates_finds hw file (fun id => hw.candidate ho) (.refl hw) hnothing
  refine ⟨Act.triedAnswer file found, w', ownerOf_eq_tried hk hr hrun, ?_⟩
  cases hfind : (Act.candidates w.cache w.index).find? (w.outside.offers file) with
  | some id =>
      rw [hfind] at hfound
      obtain ⟨r, rfl, hpeek⟩ := hfound
      have hfirst := hw.isFirst_of_find? ho hfind
      have hcandidate := hw.candidate ho (List.mem_of_find?_eq_some hfind)
      have hfile : file ∈ r.sources := by
        have hoffers : w.outside.offers file id = true :=
          List.find?_some (p := w.outside.offers file) hfind
        rw [hs.sources hcandidate hpeek]
        simpa using (Bool.and_eq_true_iff.mp hoffers).2
      exact .of_surface (fun _ => hfile)
        ((hs.workspace_authored ha).diagnostic_kind hcandidate.wellFormed
          hcandidate.resolvable hpeek)
        (fun _ h => absurd h hnone) fun _ _ _ => ⟨id, hfirst, hpeek, hfile⟩
  | none =>
      rw [hfind] at hfound
      obtain ⟨broken, rfl, hbroken⟩ := hfound
      have htried := hw.not_wouldOwn_of_find? ho hfind
      cases broken with
      | some r => exact .of_nobody (hbroken r rfl).1 hnone htried
      | none => exact .of_nobody (by simp) hnone htried

/-- Whoever owns the file, an answer comes. -/
theorem ownerOf_answers (hw : w.Quiet) (ha : w.Authored) (ho : w.index.InOrder)
    (hproper : file.Proper) :
    ∃ answer w', Act.ownerOf Memory.surroundings file w = .ok answer w' ∧
      OwnerAnswer w file answer w' := by
  by_cases hk : Kind.ofPath? file.path = some .script
  · exact ownerOf_script hw ha hproper hk
  · cases hr : Act.resolvedOwner? w.cache w.index.projects file with
    | some r => exact ⟨_, w, ownerOf_resolved hw ha ho hk hr⟩
    | none => exact ownerOf_unresolved hw ha ho hk hr

end

/-- **Owners.** After any operations, the owner of a file is asked for and an answer comes. A result
that is returned compiles the file and nothing is wrong with it, and an error says something. It
says that nobody owns the file only if no known result compiles it and none of the known files that
mention its name and have no result would. For a file that is no script, the answer comes from the
first known file whose result compiles it. If there is none, it comes from the first of the known
files that mention its name, have no result and turn out to compile it, members of solutions before
others. What is resolved on the way makes no difference. -/
theorem owner_answers (m : Memory) (ops : List Operation) :
    ∃ w, Operation.runAll ops (.fresh m) = .ok () w ∧ ∀ source : Path, ∃ answer w',
      Act.owner Memory.surroundings source w = .ok answer w' ∧
        OwnerAnswer w (Memory.locate source) answer w' := by
  obtain ⟨w, hrun, hw, ho, ha⟩ :=
    Operation.runAll_keeps (P := fun w => w.index.InOrder ∧ w.Authored) m ops
    ⟨.empty, .fresh m⟩ fun _ _ _ hw hop ⟨ho, ha⟩ =>
      ⟨Operation.inOrder hw hop ho, Operation.authored hw hop ha⟩
  refine ⟨w, hrun, fun source => ?_⟩
  obtain ⟨answer, w', h, hanswer⟩ :=
    ownerOf_answers hw ha ho (Location.reach_proper Location.root_proper source)
  exact ⟨answer, w', Act.bind_ok rfl h, hanswer⟩

end FSharpWorkspace
