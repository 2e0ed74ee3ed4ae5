import FSharpWorkspace.Identity
import Mathlib.Data.List.Basic
import Mathlib.Tactic.Tauto
/-!
# Spelling a place out

The plain spelling of a proper place has one step for each of its names (`components_path`), so
reading it again gives the place (`reach_path`). The suffix of a spelling is that of the place it
names. So the kind in an identity that was read off a spelling is the kind that its place has
(`Identity.WellFormed`), and two such identities with one place are equal. A list in order of
places, which has each file once, thus loses none of them (`Identity.mem_sorted`).
-/

set_option autoImplicit false

namespace FSharpWorkspace

/-! ## Cutting a joined text -/

theorem Text.splitOn_of_not_mem {α : Type} [DecidableEq α] {sep : α} {piece : List α}
    (h : sep ∉ piece) :
    splitOn sep piece = [piece] := by
  induction piece with
  | nil => rfl
  | cons c piece ih =>
      obtain ⟨hc, hp⟩ := not_or.mp (List.mem_cons.not.mp h)
      rw [splitOn, ih hp]
      simp [Ne.symm hc]

/-- A text is cut in two at a separator. -/
theorem Text.splitOn_append_cons {α : Type} [DecidableEq α] (sep : α) (before after : List α) :
    splitOn sep (before ++ sep :: after) = splitOn sep before ++ splitOn sep after := by
  induction before with
  | nil =>
      rw [List.nil_append, splitOn]
      cases hs : splitOn sep after with
      | nil => exact absurd hs (splitOn_ne_nil sep after)
      | cons first others => simp [splitOn, hs]
  | cons c before ih =>
      rw [List.cons_append, splitOn, ih, splitOn]
      cases hs : splitOn sep before with
      | nil => exact absurd hs (splitOn_ne_nil sep before)
      | cons first others =>
          by_cases hc : c = sep
          · simp [hc]
          · simp [hc]

theorem Text.splitOn_append {α : Type} [DecidableEq α] {sep : α} {piece : List α} (rest : List α)
    (h : sep ∉ piece) : splitOn sep (piece ++ sep :: rest) = piece :: splitOn sep rest := by
  rw [Text.splitOn_append_cons, Text.splitOn_of_not_mem h]
  rfl

/-! ## The steps of a plain spelling -/

def slashed (names : List String) : List Char := names.flatMap fun n => '/' :: n.toList

theorem Location.toList_text {l : Location} (h : l.names ≠ []) :
    l.text.toList = slashed l.names := by
  unfold Location.text slashed
  split
  · next hn => exact absurd hn h
  · rw [String.toList_join, List.flatMap_map]
    simp

theorem splitOn_slashed {names : List String} (h : ∀ n ∈ names, '/' ∉ n.toList) (hne : names ≠ []) :
    Text.splitOn '/' (slashed names) = [] :: names.map String.toList := by
  -- the induction runs over the names after the first one, which stands without its slash
  have key : ∀ (n : String) (names : List String), (∀ m ∈ n :: names, '/' ∉ m.toList) →
      Text.splitOn '/' (n.toList ++ slashed names) = (n :: names).map String.toList := by
    intro n names
    induction names generalizing n with
    | nil =>
        intro hn
        rw [slashed, List.flatMap_nil, List.append_nil]
        exact Text.splitOn_of_not_mem (hn n (by simp))
    | cons m names ih =>
        intro hn
        have hm := ih m fun k hk => hn k (List.mem_cons_of_mem n hk)
        show Text.splitOn '/' (n.toList ++ '/' :: (m.toList ++ slashed names)) = _
        rw [Text.splitOn_append _ (hn n (by simp)), hm]
        rfl
  cases names with
  | nil => exact absurd rfl hne
  | cons n names =>
      show Text.splitOn '/' ([] ++ '/' :: (n.toList ++ slashed names)) = _
      rw [Text.splitOn_append _ (by simp), key n names h]

theorem Component.ofPiece?_toList {n : String} (h : IsProper n) :
    Component.ofPiece? n.toList = some (.name n) := by
  obtain ⟨h₁, h₂, h₃, -⟩ := h
  have hne : ∀ t : String, n ≠ t → n.toList ≠ t.toList :=
    fun t ht he => ht (String.toList_injective he)
  have h₁' := hne _ h₁
  have h₂' := hne _ h₂
  have h₃' := hne _ h₃
  unfold Component.ofPiece?
  split
  · next he => exact absurd he h₁'
  · next he => exact absurd he h₂'
  · next he => exact absurd he h₃'
  · simp

/-- The plain spelling of a proper place goes from the root along its names. -/
theorem Location.components_path {l : Location} (h : l.Proper) :
    l.path.components = .root :: l.names.map .name := by
  by_cases hn : l.names = []
  · -- the root alone is spelled with a slash at its end
    rw [hn]
    have hl : l = ⟨[]⟩ := by
      cases l
      simp_all
    rw [hl]
    decide
  · have hs : Text.splitOn '/' l.path.text.toList = [] :: l.names.map String.toList := by
      show Text.splitOn '/' l.text.toList = _
      rw [Location.toList_text hn, splitOn_slashed (fun n hm => (h n hm).2.2.2) hn]
    have hp : (l.names.map String.toList).filterMap Component.ofPiece? = l.names.map .name := by
      rw [List.filterMap_map, ← List.filterMap_eq_map]
      exact List.filterMap_congr fun n hm => Component.ofPiece?_toList (h n hm)
    unfold Path.components
    rw [hs]
    cases hm : l.names with
    | nil => exact absurd hm hn
    | cons n names =>
        rw [hm] at hp
        simpa using hp

/-! ## Reading a plain spelling -/

theorem foldl_step_names (l : Location) (names : List String) :
    (names.map Component.name).foldl Location.step l = ⟨l.names ++ names⟩ := by
  induction names generalizing l with
  | nil => simp
  | cons n names ih =>
      rw [List.map_cons, List.foldl_cons, ih]
      simp [Location.step, Location.child]

/-- A proper place is found again under its plain spelling. -/
theorem Location.reach_path {l : Location} (h : l.Proper) (from_ : Location) :
    from_.reach l.path = l := by
  rw [Location.reach, Location.components_path h, List.foldl_cons, foldl_step_names]
  simp [Location.step, Location.root]

theorem Location.fileName?_path {l : Location} (h : l.Proper) : l.path.fileName? = l.fileName? := by
  unfold Path.fileName? Location.fileName?
  rw [Location.components_path h]
  cases hl : l.names.getLast? with
  | none =>
      rw [List.getLast?_eq_none_iff.mp hl]
      rfl
  | some n =>
      obtain ⟨names, hn⟩ := List.getLast?_eq_some_iff.mp hl
      rw [hn, List.map_append, List.map_singleton, ← List.cons_append, List.getLast?_concat]

/-- The steps of a place, put together, are its plain spelling. -/
theorem Path.textOf_rooted (names : List String) :
    textOf (.root :: names.map .name) = (⟨names⟩ : Location).text := by
  -- the induction runs over the names after the first one, which stands without its slash
  have key : ∀ (n : String) (names : List String),
      "/" ++ textOf ((n :: names).map Component.name) =
        String.join ((n :: names).map ("/" ++ ·)) := by
    intro n names
    induction names generalizing n with
    | nil => simp [textOf, Component.text]
    | cons m names ih =>
        have hrest := ih m
        simp only [List.map_cons, String.join_cons] at hrest ⊢
        rw [textOf, Component.text, ← hrest]
        · simp [String.append_assoc]
        · nofun
        · nofun
  cases names with
  | nil => rfl
  | cons n names => exact key n names

/-- The parent of a plain spelling is the plain spelling of the directory. -/
theorem Location.parent?_path {l : Location} (h : l.Proper) (hne : l.names ≠ []) :
    l.path.parent? = some l.dir.path := by
  obtain ⟨names, n, hnames⟩ : ∃ names n, l.names = names ++ [n] :=
    ⟨_, _, (List.dropLast_append_getLast hne).symm⟩
  unfold Path.parent?
  rw [Location.components_path h, hnames, List.map_append, List.map_singleton, ← List.cons_append,
    List.getLast?_concat, List.dropLast_concat]
  have hdir : l.dir = ⟨names⟩ := by rw [Location.dir, hnames, List.dropLast_concat]
  rw [hdir]
  exact congrArg (fun text => some (Path.mk text)) (Path.textOf_rooted names)

/-- The name of a file is the last step of its spelling. -/
theorem Path.getLast?_of_fileName? {p : Path} {n : String} (h : p.fileName? = some n) :
    p.components.getLast? = some (.name n) := by
  unfold Path.fileName? at h
  split at h
  · next m hm => rw [hm, Option.some.inj h]
  · cases h

/-- The file name of a spelling is that of the place it names. -/
theorem Location.fileName?_reach {p : Path} {n : String} (h : p.fileName? = some n)
    (from_ : Location) :
    (from_.reach p).fileName? = some n := by
  obtain ⟨steps, hs⟩ := List.getLast?_eq_some_iff.mp (Path.getLast?_of_fileName? h)
  rw [Location.reach, hs, List.foldl_append]
  simp [Location.step, Location.child, Location.fileName?]

/-! ## Identities -/

/-- The place of an identity is proper, and the kind is the one that its spelling has. -/
structure Identity.WellFormed (id : Identity) : Prop where
  proper : id.location.Proper
  kind : Kind.ofPath? id.location.path = some id.kind

theorem Identity.WellFormed.eq {a b : Identity} (ha : a.WellFormed) (hb : b.WellFormed)
    (h : a.location = b.location) : a = b := by
  have hk : some a.kind = some b.kind := by rw [← ha.kind, ← hb.kind, h]
  cases a
  cases b
  simp_all

/-- The kind depends on the name at the end alone. -/
theorem Kind.ofPath?_congr {p q : Path} (h : p.fileName? = q.fileName?) :
    Kind.ofPath? p = Kind.ofPath? q := by
  unfold Kind.ofPath? Path.extension?
  rw [h]

theorem Kind.fileName?_of_ofPath? {p : Path} {kind : Kind} (h : Kind.ofPath? p = some kind) :
    ∃ name, p.fileName? = some name := by
  obtain ⟨ext, hext, -⟩ := Option.bind_eq_some_iff.mp h
  obtain ⟨name, hname, -⟩ := Option.bind_eq_some_iff.mp hext
  exact ⟨name, hname⟩

theorem Kind.ofPath?_reach {p : Path} {kind : Kind} (h : Kind.ofPath? p = some kind)
    {from_ : Location} (hf : from_.Proper) : Kind.ofPath? (from_.reach p).path = some kind := by
  obtain ⟨n, hn⟩ := Kind.fileName?_of_ofPath? h
  rw [← h]
  refine Kind.ofPath?_congr ?_
  rw [Location.fileName?_path (Location.reach_proper hf p), Location.fileName?_reach hn, hn]

theorem Location.root_proper : Location.root.Proper := by
  intro n hn
  cases hn

/-- The kind in an identity is that of the spelling. -/
theorem Identity.kind_of_eq_ok {locate : Path → Location} {p : Path} {id : Identity}
    (h : Identity.of locate p = .ok id) :
    Kind.ofPath? p = some id.kind ∧ locate p = id.location := by
  unfold Identity.of at h
  split at h
  · next kind hk =>
      cases h
      exact ⟨hk, rfl⟩
  · cases h

/-- An identity read off a spelling is well formed. -/
theorem Identity.of_wellFormed {p : Path} {id : Identity}
    (h : Identity.of Location.root.reach p = .ok id) :
    id.WellFormed := by
  obtain ⟨hkind, hplace⟩ := Identity.kind_of_eq_ok h
  refine ⟨?_, ?_⟩
  · rw [← hplace]
    exact Location.reach_proper Location.root_proper p
  · rw [← hplace]
    exact Kind.ofPath?_reach hkind Location.root_proper

/-! ## Lists in order of places -/

theorem Location.eq_of_compare {a b : Location} (h : compare a b = .eq) : a = b := by
  have hn : a.names = b.names := Std.LawfulEqOrd.eq_of_compare h
  cases a
  cases b
  simpa using hn

theorem Identity.mem_insert {id x : Identity} {ids : List Identity}
    (h : x ∈ id.insert ids) : x = id ∨ x ∈ ids := by
  induction ids with
  | nil =>
      rw [Identity.insert] at h
      simpa using h
  | cons other rest ih =>
      rw [Identity.insert] at h
      split at h
      · simpa using h
      · exact Or.inr h
      · rcases List.mem_cons.mp h with rfl | h
        · simp
        · rcases ih h with h | h
          · exact Or.inl h
          · exact Or.inr (List.mem_cons_of_mem other h)

/-- An identity that is left out because its file is there already is the one that is there. -/
theorem Identity.mem_insert_iff {id x : Identity} {ids : List Identity} (hid : id.WellFormed)
    (hids : ∀ other ∈ ids, other.WellFormed) : x ∈ id.insert ids ↔ x = id ∨ x ∈ ids := by
  refine ⟨Identity.mem_insert, ?_⟩
  induction ids with
  | nil => simp [Identity.insert]
  | cons other rest ih =>
      have hrest := ih fun y hy => hids y (List.mem_cons_of_mem other hy)
      rw [Identity.insert]
      split
      · simp
      · next heq =>
          obtain rfl : id = other := hid.eq (hids other (by simp)) (Location.eq_of_compare heq)
          simp
      · rw [List.mem_cons, List.mem_cons]
        tauto

/-- Sorting drops identities that occur twice, and no others. -/
theorem Identity.mem_sorted {x : Identity} {ids : List Identity}
    (hids : ∀ id ∈ ids, id.WellFormed) :
    x ∈ Identity.sorted ids ↔ x ∈ ids := by
  have key : ∀ (ids kept : List Identity), (∀ id ∈ ids, id.WellFormed) →
    (∀ id ∈ kept, id.WellFormed) →
      (x ∈ ids.foldl (fun kept id => id.insert kept) kept ↔ x ∈ kept ∨ x ∈ ids) := by
    intro ids
    induction ids with
    | nil => simp
    | cons id rest ih =>
        intro kept hids hkept
        have hid := hids id (by simp)
        have hinsert : ∀ other ∈ id.insert kept, other.WellFormed := by
          intro other ho
          rcases Identity.mem_insert ho with rfl | ho
          · exact hid
          · exact hkept other ho
        rw [List.foldl_cons, ih _ (fun y hy => hids y (List.mem_cons_of_mem id hy)) hinsert,
          Identity.mem_insert_iff hid hkept, List.mem_cons]
        tauto
  simpa [Identity.sorted] using key ids [] hids (by simp)

end FSharpWorkspace
