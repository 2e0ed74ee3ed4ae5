import FSharpWorkspace.Proofs.Machine.Walks
/-!
# The normal form of a spelling

On a disk with nothing but the root a spelling names the place that it has by its dots alone
(`Disk.locate_empty`). The plain spelling of this place is the normal form of the spelling
(`Path.canonical`). It starts at the root, has no dots left, and is its own normal form. To read
a spelling behind a directory is to walk on from where the directory leads
(`Location.reach_join`), so the directory may be brought into normal form first. The same form
comes out if the steps are put on a stack where `..` takes the last one back
(`Path.clean_rooted`). `Path.canonical_normal` says all this.
-/

set_option autoImplicit false

namespace FSharpWorkspace

/-! ## A disk with nothing but the root -/

namespace Disk

variable {links links' : Nat} {l l' : Location} {ps : List (List Char)}

theorem item?_child_empty (l : Location) (name : String) :
    Disk.empty.item? (l.child name) = none := by
  have hne : (l.child name).names.isEmpty = false := by simp [Location.child]
  rw [item?, hne]
  rfl

/-- Where nothing exists no link is followed. -/
theorem Leads.of_empty (h : Disk.empty.Leads links l ps links' l') :
    Disk.empty.Leads 0 l ps 0 l' := by
  induction h with
  | nil _ l => exact .nil 0 l
  | stay hd hp _ ih => exact .stay hd hp ih
  | up hd _ ih => exact .up hd ih
  | @enter _ _ l _ piece _ _ _ _ _ hitem _ _ _ =>
      rw [item?_child_empty l (String.ofList piece)] at hitem
      cases hitem
  | @follow _ _ l _ piece _ _ _ _ _ hitem _ _ =>
      rw [item?_child_empty l (String.ofList piece)] at hitem
      cases hitem

theorem locate_empty (from_ : Location) (p : Path) : Disk.empty.locate from_ p = from_.reach p := by
  by_cases hok : ∃ l, Disk.empty.resolve from_ p = .ok l
  · obtain ⟨l, hl⟩ := hok
    obtain ⟨k, hleads⟩ := walk_eq_ok.mp (walk_of_resolve hl)
    exact locate_of_linkFree ⟨l, hleads.of_empty.walk⟩
  · exact locate_of_resolve_error fun l hl => hok ⟨l, hl⟩

end Disk

/-! ## Reading behind a directory -/

namespace Location

/-- The steps between the slashes of a text, taken from a place. -/
def along (text : String) (l : Location) : Location :=
  ((Disk.pieces text).filterMap Component.ofPiece?).foldl step l

theorem reach_eq_along (from_ : Location) (p : Path) :
    from_.reach p = along p.text (Disk.startOf p.text from_) :=
  Disk.reach_eq from_ p

/-- What stands before a slash is read first. -/
theorem along_slash {before after text : String}
    (h : text.toList = before.toList ++ '/' :: after.toList) (l : Location) :
    along text l = along after (along before l) := by
  have hpieces : Disk.pieces text = Disk.pieces before ++ Disk.pieces after := by
    unfold Disk.pieces
    rw [h, Text.splitOn_append_cons]
  rw [along, hpieces, List.filterMap_append, List.foldl_append, along, along]

/-- Where a spelling starts shows at its first character. -/
theorem startOf_append {before : String} (h : before ≠ "") (after : String) (l : Location) :
    Disk.startOf (before ++ after) l = Disk.startOf before l := by
  have hne : before.toList ≠ [] := fun hnil => h (String.toList_injective (by simpa using hnil))
  have hhead : (before ++ after).toList.head? = before.toList.head? := by
    rw [String.toList_append, List.head?_append_of_ne_nil _ hne]
  unfold Disk.startOf
  rw [hhead]

/-- **A spelling behind a directory is read from where the directory leads.** -/
theorem reach_join (from_ : Location) (d r : Path) :
    from_.reach (d.join r) = (from_.reach d).reach r := by
  unfold Path.join
  split
  · next habs =>
      -- both walks start anew at the root
      have hhead : r.text.toList.head? = some '/' := by simpa [Path.isAbsolute] using habs
      have hstart : ∀ l, Disk.startOf r.text l = root := fun l => if_pos hhead
      rw [reach_eq_along, reach_eq_along _ r, hstart, hstart]
  · next hrel =>
      have hhead : r.text.toList.head? ≠ some '/' := by simpa [Path.isAbsolute] using hrel
      have hstart : ∀ l, Disk.startOf r.text l = l := fun l => if_neg hhead
      rw [reach_eq_along _ r, hstart]
      by_cases hempty : d.text = ""
      · have hhere : from_.reach d = from_ := by
          rw [reach_eq_along, hempty]
          rfl
        rw [if_pos (by simp [hempty]), hhere, hempty, String.empty_append, reach_eq_along, hstart]
      · split
        · next hd =>
            -- the slash at the end of the directory is the one between the two
            have hend : d.text.toList.getLast? = some '/' := by simpa [hempty] using hd
            obtain ⟨before, hbefore⟩ := List.getLast?_eq_some_iff.mp hend
            have hdir : d.text.toList = (String.ofList before).toList ++ '/' :: "".toList := by
              simpa using hbefore
            have hall : (d.text ++ r.text).toList = (String.ofList before).toList ++
                '/' :: r.text.toList := by
              simp [hbefore]
            have hnothing : ∀ l, along "" l = l := fun l => rfl
            calc from_.reach ⟨d.text ++ r.text⟩
                = along (d.text ++ r.text) (Disk.startOf d.text from_) := by
                  rw [reach_eq_along, startOf_append hempty]
              _ = along r.text (along d.text (Disk.startOf d.text from_)) := by
                  rw [along_slash hall, along_slash hdir, hnothing]
              _ = along r.text (from_.reach d) := by rw [← reach_eq_along]
        · have hall : (d.text ++ "/" ++ r.text).toList = d.text.toList ++ '/' :: r.text.toList := by
            simp
          calc from_.reach ⟨d.text ++ "/" ++ r.text⟩
              = along (d.text ++ "/" ++ r.text) (Disk.startOf d.text from_) := by
                rw [reach_eq_along, String.append_assoc, startOf_append hempty]
            _ = along r.text (along d.text (Disk.startOf d.text from_)) := along_slash hall _
            _ = along r.text (from_.reach d) := by rw [← reach_eq_along]

end Location

/-! ## The normal form -/

theorem Component.eq_of_ofPiece? {piece : List Char} {c : Component}
    (h : Component.ofPiece? piece = some c) :
    c = .up ∨ ∃ n, c = .name n := by
  unfold Component.ofPiece? at h
  split at h
  · cases h
  · cases h
  · exact Or.inl (Option.some.inj h).symm
  · exact Or.inr ⟨_, (Option.some.inj h).symm⟩

namespace Path

/-- The canonical path of a spelling where nothing but the root exists and the root is the
current directory. -/
def canonical (p : Path) : Path := (Disk.empty.locate .root p).path

theorem canonical_eq (p : Path) : p.canonical = (Location.root.reach p).path := by
  rw [canonical, Disk.locate_empty]

theorem reach_root_proper (p : Path) : (Location.root.reach p).Proper :=
  Location.reach_proper Location.root_proper p

/-- The normal form names the same place. -/
theorem reach_canonical (from_ : Location) (p : Path) :
    from_.reach p.canonical = Location.root.reach p := by
  rw [canonical_eq, Location.reach_path (reach_root_proper p)]

theorem components_canonical (p : Path) :
    p.canonical.components = .root :: (Location.root.reach p).names.map .name := by
  rw [canonical_eq, Location.components_path (reach_root_proper p)]

theorem isAbsolute_path (l : Location) : l.path.isAbsolute = true := by
  unfold isAbsolute Location.path
  by_cases hnames : l.names = []
  · have htext : l.text = "/" := by
      unfold Location.text
      rw [hnames]
    rw [htext]
    decide
  · obtain ⟨n, names, hcons⟩ := List.exists_cons_of_ne_nil hnames
    simp [Location.toList_text hnames, hcons, slashed]

theorem canonical_canonical (p : Path) : p.canonical.canonical = p.canonical := by
  rw [canonical_eq p.canonical, reach_canonical, canonical_eq]

theorem canonical_join (d r : Path) : (d.join r).canonical = (d.canonical.join r).canonical := by
  rw [canonical_eq, canonical_eq, Location.reach_join, Location.reach_join, reach_canonical]

/-- Normal forms with the same steps are the same text. -/
theorem same_canonical_iff (p q : Path) :
    p.canonical.same q.canonical = true ↔ p.canonical.text = q.canonical.text := by
  constructor
  · intro h
    have hsteps : p.canonical.components = q.canonical.components := by simpa [same] using h
    rw [components_canonical, components_canonical] at hsteps
    have hnames :=
      (List.map_injective_iff.mpr fun _ _ h => Component.name.inj h) (List.cons.inj hsteps).2
    have hplace : Location.root.reach p = Location.root.reach q := congrArg Location.mk hnames
    rw [canonical_eq, canonical_eq, hplace]
  · intro h
    have hpath : p.canonical = q.canonical := congrArg Path.mk h
    simp [same, hpath]

/-! ## The stack of steps -/

/-- The steps to a place, the latest first. -/
def stacked (l : Location) : List Component := (.root :: l.names.map .name).reverse

/-- Below the root the stack of steps keeps to the place that they lead to. -/
theorem foldl_cleanStep {steps : List Component} (h : ∀ c ∈ steps, c = .up ∨ ∃ n, c = .name n)
    (l : Location) :
    steps.foldl cleanStep (stacked l) = stacked (steps.foldl Location.step l) := by
  induction steps generalizing l with
  | nil => rfl
  | cons c steps ih =>
      have hstep : cleanStep (stacked l) c = stacked (l.step c) := by
        rcases h c (by simp) with rfl | ⟨n, rfl⟩
        · rcases List.eq_nil_or_concat l.names with hnil | ⟨names, n, hconcat⟩
          · simp [stacked, hnil, cleanStep, Location.step, Location.dir]
          · simp [stacked, hconcat, cleanStep, Location.step, Location.dir]
        · simp [stacked, cleanStep, Location.step, Location.child]
      rw [List.foldl_cons, List.foldl_cons, hstep, ih fun c hc => h c (List.mem_cons_of_mem _ hc)]

theorem components_of_isAbsolute {p : Path} (h : p.isAbsolute = true) :
    ∃ steps, p.components = .root :: steps ∧ ∀ c ∈ steps, c = .up ∨ ∃ n, c = .name n := by
  have hhead : p.text.toList.head? = some '/' := by simpa [isAbsolute] using h
  obtain ⟨second, others, hpieces⟩ := (Text.head?_eq_iff '/' p.text.toList).mp hhead
  refine ⟨(second :: others).filterMap Component.ofPiece?, ?_, ?_⟩
  · rw [Disk.components_eq, Disk.pieces, hpieces]
  · intro c hc
    obtain ⟨piece, -, hpiece⟩ := List.mem_filterMap.mp hc
    exact Component.eq_of_ofPiece? hpiece

/-- Taking back the last name at every `..` gives the normal form. -/
theorem clean_rooted (p : Path) : ((⟨"/"⟩ : Path).join p).clean = p.canonical := by
  have habs : ((⟨"/"⟩ : Path).join p).isAbsolute = true := by
    unfold Path.join
    split
    · next h => exact h
    · simp [isAbsolute]
  obtain ⟨steps, hsteps, hplain⟩ := components_of_isAbsolute habs
  have hplace : steps.foldl Location.step .root = Location.root.reach p := by
    have hroot : Location.root.reach ⟨"/"⟩ = .root := by decide
    calc steps.foldl Location.step .root
        = Location.root.reach ((⟨"/"⟩ : Path).join p) := by
          rw [Location.reach, hsteps]
          rfl
      _ = Location.root.reach p := by rw [Location.reach_join, hroot]
  have hstack : (((⟨"/"⟩ : Path).join p).components.foldl cleanStep []).reverse =
      .root :: (Location.root.reach p).names.map .name := by
    rw [hsteps, List.foldl_cons, show cleanStep [] .root = stacked .root from rfl,
      foldl_cleanStep hplain, hplace, stacked, List.reverse_reverse]
  rw [clean, hstack, canonical_eq]
  exact congrArg Path.mk (textOf_rooted _)

/-! ## What a canonical path is like -/

/-- **Canonical paths are normal forms.** Where nothing but the root exists and the root is the
current directory, the canonical path of a spelling is what is left when its dots are taken out from
the root on. It starts at the root and then has one proper name behind each slash; it is its own
canonical path; a directory can be replaced by its canonical path before a spelling is read behind
it; and canonical paths that are equal step by step are equal as texts. -/
theorem canonical_normal :
    (∀ p : Path, p.canonical = ((⟨"/"⟩ : Path).join p).clean) ∧
    (∀ p : Path, p.canonical.isAbsolute = true ∧ ∃ names : List String, (∀ n ∈ names, IsProper n) ∧
      p.canonical.components = .root :: names.map .name ∧
      p.canonical.text = if names = [] then "/" else String.join (names.map ("/" ++ ·))) ∧
    (∀ p : Path, p.canonical.canonical = p.canonical) ∧
    (∀ d r : Path, (d.join r).canonical = (d.canonical.join r).canonical) ∧
    ∀ p q : Path, p.canonical.same q.canonical = true ↔ p.canonical.text = q.canonical.text := by
  refine ⟨fun p => (clean_rooted p).symm, fun p => ?_, canonical_canonical,
    canonical_join, same_canonical_iff⟩
  refine ⟨isAbsolute_path _, (Location.root.reach p).names, reach_root_proper p,
    components_canonical p, ?_⟩
  rw [canonical_eq, Location.path, Location.text]
  split
  · next h => rw [if_pos h]
  · next h => rw [if_neg h]

example : (⟨"src/./../lib//a.fs"⟩ : Path).canonical = ⟨"/lib/a.fs"⟩ := by
  rw [canonical_eq]
  decide

end Path

end FSharpWorkspace
