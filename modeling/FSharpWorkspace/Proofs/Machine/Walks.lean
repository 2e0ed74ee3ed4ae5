import FSharpWorkspace.Disk
import FSharpWorkspace.Proofs.Cache.Entries
import FSharpWorkspace.Proofs.Places
/-!
# Walks on a disk

A walk that comes to its end is a derivation (`Disk.Leads`, `Disk.walk_eq_ok`): it can be cut in two
(`Disk.Leads.split`), and on a disk with more items it leads to the same place (`Disk.Leads.mono`).

So after the file that a spelling names was removed the spelling leads nowhere
(`Disk.resolve_of_remove`). For the walk to the directory is the same as before, and there the name
is not found any more. From then on the spelling names the place that it has by its dots alone
(`Disk.locate_of_remove`). That is the place it led to before if there was no link on the way
(`Disk.locate_of_linkFree`).
-/

set_option autoImplicit false

namespace FSharpWorkspace

/-! ## Pieces of a spelling -/

/-- A text starts with a separator exactly if its first piece is empty and there is another one. -/
theorem Text.head?_eq_iff {α : Type} [DecidableEq α] (sep : α) (text : List α) :
    text.head? = some sep ↔ ∃ second others, splitOn sep text = [] :: second :: others := by
  cases text with
  | nil => simp [splitOn]
  | cons c rest =>
      rw [splitOn]
      cases hs : splitOn sep rest with
      | nil => exact absurd hs (splitOn_ne_nil sep rest)
      | cons first others =>
          by_cases hc : c = sep
          · simp [hc]
          · simp [hc]

/-- What stands before the last piece of a text decides all other pieces. -/
theorem Text.splitOn_eq_concat {α : Type} [DecidableEq α] {sep : α} {text last : List α}
    {init : List (List α)} (h : splitOn sep text = init ++ [last]) :
    ∃ pre, text = pre ++ last ∧ ∀ piece,
      sep ∉ piece → splitOn sep (pre ++ piece) = init ++ [piece] := by
  by_cases hsep : sep ∈ text
  · -- the text is cut at its last separator
    obtain ⟨after, before, hsplit, hafter⟩ := List.eq_append_cons_of_mem (List.mem_reverse.mpr hsep)
    have htext : text = before.reverse ++ sep :: after.reverse := by
      rw [← List.reverse_reverse text, hsplit]
      simp
    have hpieces : ∀ piece, sep ∉ piece →
        splitOn sep (before.reverse ++ sep :: piece) = splitOn sep before.reverse ++ [piece] :=
          fun piece hp => by
      rw [Text.splitOn_append_cons, Text.splitOn_of_not_mem hp]
    rw [htext, hpieces _ (by simpa using hafter)] at h
    obtain ⟨rfl, hlast⟩ := List.append_inj' h rfl
    cases hlast
    exact ⟨before.reverse ++ [sep], by simp [htext],
      fun piece hp => by simpa using hpieces piece hp⟩
  · rw [Text.splitOn_of_not_mem hsep] at h
    obtain ⟨rfl, hlast⟩ := List.append_inj' (show [] ++ [text] = init ++ [last] from h) rfl
    cases hlast
    exact ⟨[], rfl, fun piece hp => Text.splitOn_of_not_mem hp⟩

theorem Component.ofPiece?_eq_none {piece : List Char} :
    Component.ofPiece? piece = none ↔ piece = [] ∨ piece = ['.'] := by
  unfold Component.ofPiece?
  split <;> simp_all

theorem Path.isProper_of_fileName? {p : Path} {name : String}
    (h : p.fileName? = some name) : IsProper name :=
  Path.isProper_of_mem_components (List.mem_of_getLast? (Path.getLast?_of_fileName? h))

namespace Disk

def Names (piece : List Char) : Prop := piece ≠ [] ∧ piece ≠ ['.'] ∧ piece ≠ ['.', '.']

instance (piece : List Char) : Decidable (Names piece) := inferInstanceAs (Decidable (_ ∧ _ ∧ _))

theorem Names.ofPiece? {piece : List Char} (h : Names piece) :
    Component.ofPiece? piece = some (.name (String.ofList piece)) := by
  obtain ⟨hempty, hdot, hup⟩ := h
  unfold Component.ofPiece?
  split <;> simp_all

theorem Names.of_ofPiece? {piece : List Char} {name : String}
    (h : Component.ofPiece? piece = some (.name name)) : piece = name.toList ∧ Names piece := by
  unfold Component.ofPiece? at h
  split at h
  · cases h
  · cases h
  · cases h
  · next hempty hdot hup =>
      cases h
      exact ⟨String.toList_ofList.symm, hempty, hdot, hup⟩

/-! ## Walks as derivations -/

/-- A walk leads from `l` along `ps` to `l'`. It may follow `links` links at first, and
`links'` more at the end. -/
inductive Leads (d : Disk) : Nat → Location → List (List Char) → Nat → Location → Prop where
  | nil (links : Nat) (l : Location) : Leads d links l [] links l
  | stay {links links' : Nat} {l l' : Location} {piece : List Char} {rest : List (List Char)} :
      d.isDirectory l = true → piece = [] ∨ piece = ['.'] → Leads d links l rest links' l' →
      Leads d links l (piece :: rest) links' l'
  | up {links links' : Nat} {l l' : Location} {rest : List (List Char)} :
      d.isDirectory l = true → Leads d links l.dir rest links' l' →
      Leads d links l (['.', '.'] :: rest) links' l'
  | enter {links links' : Nat} {l l' : Location} {piece : List Char}
      {rest : List (List Char)} {item : Item} :
      d.isDirectory l = true → Names piece → (String.ofList piece).utf8ByteSize ≤ nameLimit →
      d.item? (l.child (String.ofList piece)) = some item → (∀ target, item ≠ .link target) →
      Leads d links (l.child (String.ofList piece)) rest links' l' →
        Leads d links l (piece :: rest) links' l'
  | follow {links links' : Nat} {l l' : Location} {piece : List Char}
      {rest : List (List Char)} {target : String} :
      d.isDirectory l = true → Names piece → (String.ofList piece).utf8ByteSize ≤ nameLimit →
      d.item? (l.child (String.ofList piece)) = some (.link target) →
      Leads d links (startOf target l) (pieces target ++ rest) links' l' →
      Leads d (links + 1) l (piece :: rest) links' l'

variable {d d' : Disk} {links links' k : Nat} {l l' : Location} {ps qs : List (List Char)}

/-- A walk enters what it finds under a name. -/
theorem Leads.enterName (name : String) (item : Item) (hd : d.isDirectory l = true)
    (hn : Names name.toList) (hs : name.utf8ByteSize ≤ nameLimit)
    (hitem : d.item? (l.child name) = some item) (hlink : ∀ target, item ≠ .link target)
    (h : d.Leads links (l.child name) ps links' l') :
    d.Leads links l (name.toList :: ps) links' l' := by
  have hname : String.ofList name.toList = name := String.ofList_toList
  exact .enter hd hn (by rwa [hname]) (by rwa [hname]) hlink (by rwa [hname])

/-- A walk follows the link that it finds under a name. -/
theorem Leads.followName (name target : String) (hd : d.isDirectory l = true)
    (hn : Names name.toList) (hs : name.utf8ByteSize ≤ nameLimit)
    (hitem : d.item? (l.child name) = some (.link target))
    (h : d.Leads links (startOf target l) (pieces target ++ ps) links' l') :
    d.Leads (links + 1) l (name.toList :: ps) links' l' := by
  have hname : String.ofList name.toList = name := String.ofList_toList
  exact .follow hd hn (by rwa [hname]) (by rwa [hname]) h

theorem Leads.walk (h : d.Leads links l ps links' l') : d.walk links l ps = .ok l' := by
  induction h with
  | nil links l => rw [Disk.walk]
  | stay hd hp _ ih =>
      rw [Disk.walk]
      simp [hd, hp, ih]
  | up hd _ ih =>
      rw [Disk.walk]
      simp [hd, ih]
  | enter hd hn hs hitem hlink _ ih =>
      rw [Disk.walk]
      simp only [hd, Bool.not_true, Bool.false_eq_true, if_false, hn.1, hn.2.1, or_self, hn.2.2,
        Nat.not_lt.mpr hs, hitem]
      exact ih
  | follow hd hn hs hitem _ ih =>
      rw [Disk.walk]
      simp [hd, hn.1, hn.2.1, hn.2.2, Nat.not_lt.mpr hs, hitem, ih]

theorem walk_eq_ok : d.walk links l ps = .ok l' ↔ ∃ links', d.Leads links l ps links' l' := by
  refine ⟨fun h => ?_, fun ⟨_, h⟩ => h.walk⟩
  induction links, l, ps using Disk.walk.induct (d := d) with
  | case1 links l =>
      rw [Disk.walk] at h
      cases h
      exact ⟨links, .nil links _⟩
  | case2 links l piece rest hd =>
      rw [Disk.walk, if_pos hd] at h
      cases h
  | case3 links l piece rest hd hp ih =>
      rw [Disk.walk, if_neg hd, if_pos hp] at h
      obtain ⟨k, hk⟩ := ih h
      exact ⟨k, .stay (by simpa using hd) hp hk⟩
  | case4 links l rest hd hp ih =>
      rw [Disk.walk, if_neg hd, if_neg hp, if_pos rfl] at h
      obtain ⟨k, hk⟩ := ih h
      exact ⟨k, .up (by simpa using hd) hk⟩
  | case5 links l piece rest hd hp hup name hs =>
      rw [Disk.walk, if_neg hd, if_neg hp, if_neg hup,
        if_pos (show (String.ofList piece).utf8ByteSize > _ from hs)]
        at h
      cases h
  | case6 links l piece rest hd hp hup name hs hitem =>
      rw [Disk.walk, if_neg hd, if_neg hp, if_neg hup,
        if_neg (show ¬ (String.ofList piece).utf8ByteSize > _ from hs),
        show d.item? (l.child (String.ofList piece)) = _ from hitem] at h
      cases h
  | case7 l piece rest hd hp hup name hs target hitem =>
      rw [Disk.walk, if_neg hd, if_neg hp, if_neg hup,
        if_neg (show ¬ (String.ofList piece).utf8ByteSize > _ from hs),
        show d.item? (l.child (String.ofList piece)) = _ from hitem] at h
      cases h
  | case8 l piece rest hd hp hup name hs target hitem links ih =>
      rw [Disk.walk, if_neg hd, if_neg hp, if_neg hup,
        if_neg (show ¬ (String.ofList piece).utf8ByteSize > _ from hs),
        show d.item? (l.child (String.ofList piece)) = _ from hitem] at h
      obtain ⟨k, hk⟩ := ih h
      exact ⟨k, .follow (by simpa using hd) ⟨(not_or.mp hp).1, (not_or.mp hp).2,
        hup⟩ (Nat.not_lt.mp hs) hitem hk⟩
  | case9 links l piece rest hd hp hup name hs item hlink hitem ih =>
      rw [Disk.walk, if_neg hd, if_neg hp, if_neg hup,
        if_neg (show ¬ (String.ofList piece).utf8ByteSize > _ from hs)]
        at h
      simp only [show d.item? (l.child (String.ofList piece)) = _ from hitem] at h
      obtain ⟨k, hk⟩ := ih h
      exact ⟨k, .enter (by simpa using hd) ⟨(not_or.mp hp).1, (not_or.mp hp).2,
        hup⟩ (Nat.not_lt.mp hs) hitem hlink hk⟩

/-! ## Walks in two parts -/

/-- A walk along two lists passes the end of the first one. -/
theorem Leads.split (h : d.Leads links l (ps ++ qs) links' l') :
    ∃ k l₁, d.Leads links l ps k l₁ ∧ d.Leads k l₁ qs links' l' := by
  generalize hall : ps ++ qs = all at h
  induction h generalizing ps with
  | nil links l =>
      obtain ⟨rfl, rfl⟩ := List.append_eq_nil_iff.mp hall
      exact ⟨links, l, .nil links l, .nil links l⟩
  | @stay links links' l l' piece rest hd hp hrest ih =>
      cases ps with
      | nil =>
          cases hall
          exact ⟨_, l, .nil _ l, .stay hd hp hrest⟩
      | cons first ps =>
          obtain ⟨rfl, hrest'⟩ := List.cons.inj hall
          obtain ⟨k, l₁, h₁, h₂⟩ := ih hrest'
          exact ⟨k, l₁, .stay hd hp h₁, h₂⟩
  | @up links links' l l' rest hd hrest ih =>
      cases ps with
      | nil =>
          cases hall
          exact ⟨_, l, .nil _ l, .up hd hrest⟩
      | cons first ps =>
          obtain ⟨rfl, hrest'⟩ := List.cons.inj hall
          obtain ⟨k, l₁, h₁, h₂⟩ := ih hrest'
          exact ⟨k, l₁, .up hd h₁, h₂⟩
  | @enter links links' l l' piece rest item hd hn hs hitem hlink hrest ih =>
      cases ps with
      | nil =>
          cases hall
          exact ⟨_, l, .nil _ l, .enter hd hn hs hitem hlink hrest⟩
      | cons first ps =>
          obtain ⟨rfl, hrest'⟩ := List.cons.inj hall
          obtain ⟨k, l₁, h₁, h₂⟩ := ih hrest'
          exact ⟨k, l₁, .enter hd hn hs hitem hlink h₁, h₂⟩
  | @follow links links' l l' piece rest target hd hn hs hitem hrest ih =>
      cases ps with
      | nil =>
          cases hall
          exact ⟨_, l, .nil _ l, .follow hd hn hs hitem hrest⟩
      | cons first ps =>
          obtain ⟨rfl, hrest'⟩ := List.cons.inj hall
          obtain ⟨k, l₁, h₁, h₂⟩ := ih ((List.append_assoc _ ps qs).trans (congrArg _ hrest'))
          exact ⟨k, l₁, .follow hd hn hs hitem h₁, h₂⟩

theorem Leads.unique {k' : Nat} {l₁ : Location} (h : d.Leads links l ps k l')
    (h' : d.Leads links l ps k' l₁) :
    l' = l₁ :=
  Except.ok.inj (h.walk.symm.trans h'.walk)

/-- A walk on a disk is one on every disk that has the same items and more. -/
theorem Leads.mono (hsub : ∀ x item, d'.item? x = some item → d.item? x = some item)
    (h : d'.Leads links l ps links' l') : d.Leads links l ps links' l' := by
  have hdir : ∀ x, d'.isDirectory x = true → d.isDirectory x = true := fun x hx =>
    decide_eq_true (hsub x _ (of_decide_eq_true hx))
  induction h with
  | nil links l => exact .nil links l
  | stay hd hp _ ih => exact .stay (hdir _ hd) hp ih
  | up hd _ ih => exact .up (hdir _ hd) ih
  | enter hd hn hs hitem hlink _ ih => exact .enter (hdir _ hd) hn hs (hsub _ _ hitem) hlink ih
  | follow hd hn hs hitem _ ih => exact .follow (hdir _ hd) hn hs (hsub _ _ hitem) ih

/-- A piece that is no name leads to a directory. -/
theorem Leads.directory {piece : List Char} (h : d.Leads links l [piece] links' l')
    (hp : piece = [] ∨ piece = ['.']) : d.isDirectory l' = true ∧ l = l' := by
  cases h with
  | stay hd _ hrest =>
      cases hrest
      exact ⟨hd, rfl⟩
  | up hd hrest => simp at hp
  | enter _ hn => exact absurd hp (not_or.mpr ⟨hn.1, hn.2.1⟩)
  | follow _ hn => exact absurd hp (not_or.mpr ⟨hn.1, hn.2.1⟩)

/-- A name leads somewhere only if it is found. -/
theorem Leads.found {piece : List Char} (h : d.Leads links l [piece] links' l') (hn : Names piece) :
    ∃ item, d.item? (l.child (String.ofList piece)) = some item := by
  cases h with
  | stay _ hp _ => exact absurd hp (not_or.mpr ⟨hn.1, hn.2.1⟩)
  | up _ _ => exact absurd rfl hn.2.2
  | enter _ _ _ hitem _ _ => exact ⟨_, hitem⟩
  | follow _ _ _ hitem _ => exact ⟨_, hitem⟩

/-! ## Spellings -/

theorem startOf_of_rooted {text : String} {from_ : Location} {second : List Char}
    {others : List (List Char)} (h : pieces text = [] :: second :: others) :
    startOf text from_ = .root :=
  if_pos ((Text.head?_eq_iff '/' text.toList).mpr ⟨second, others, h⟩)

theorem startOf_of_relative {text : String} {from_ : Location}
    (h : ∀ second others, pieces text ≠ [] :: second :: others) : startOf text from_ = from_ :=
  if_neg fun hhead =>
    let ⟨second, others, hpieces⟩ := (Text.head?_eq_iff '/' text.toList).mp hhead
    h second others hpieces

/-- The last piece has no part in where a spelling starts. -/
theorem startOf_congr {text text' : String} {init : List (List Char)} {last last' : List Char}
    (h : pieces text = init ++ [last]) (h' : pieces text' = init ++ [last']) (from_ : Location) :
    startOf text from_ = startOf text' from_ := by
  cases init with
  | nil => rw [startOf_of_relative (by simp [h]), startOf_of_relative (by simp [h'])]
  | cons first init =>
      by_cases hfirst : first = []
      · subst hfirst
        have hsome : ∀ last, init ++ [last] ≠ [] := fun last => by simp
        obtain ⟨second, others, hsplit⟩ := List.exists_cons_of_ne_nil (hsome last)
        obtain ⟨second', others', hsplit'⟩ := List.exists_cons_of_ne_nil (hsome last')
        rw [startOf_of_rooted (by rw [h, List.cons_append, hsplit]),
          startOf_of_rooted (by rw [h', List.cons_append, hsplit'])]
      · rw [startOf_of_relative (by simp [h, hfirst]), startOf_of_relative (by simp [h', hfirst])]

theorem pieces_ne_nil (text : String) : pieces text ≠ [] := Text.splitOn_ne_nil '/' text.toList

theorem walk_of_resolve {from_ : Location} {p : Path} (h : d.resolve from_ p = .ok l) :
    d.walk linkLimit (startOf p.text from_) (pieces p.text) = .ok l := by
  unfold resolve at h
  split at h
  · cases h
  · split at h
    · cases h
    · split at h
      · cases h
      · exact h

theorem resolve_of_leads {from_ : Location} {p : Path}
    (hnul : p.text.toList.contains '\x00' = false) (hempty : p.text.isEmpty = false)
    (hlength : p.text.utf8ByteSize ≤ pathLimit)
    (h : d.Leads linkLimit (startOf p.text from_) (pieces p.text) k l) :
    d.resolve from_ p = .ok l := by
  unfold resolve
  rw [if_neg (ne_true_of_eq_false hnul), if_neg (ne_true_of_eq_false hempty),
    if_neg (Nat.not_lt.mpr hlength)]
  exact h.walk

/-- The steps of a spelling, by its pieces. -/
theorem components_eq (p : Path) : p.components = match pieces p.text with
    | [] => []
    | [[]] => []
    | [] :: ps => .root :: ps.filterMap Component.ofPiece?
    | ['.'] :: ps => .here :: ps.filterMap Component.ofPiece?
    | ps => ps.filterMap Component.ofPiece? := rfl

/-- If the last piece of a spelling is a step, it is the last one. -/
theorem getLast?_components {p : Path} {init : List (List Char)} {last : List Char} {c : Component}
    (h : pieces p.text = init ++ [last]) (hc : Component.ofPiece? last = some c) :
    p.components.getLast? = some c := by
  have hstep : last ≠ [] ∧ last ≠ ['.'] := not_or.mp fun hnone => by
    rw [Component.ofPiece?_eq_none.mpr hnone] at hc
    cases hc
  have hlast : ∀ before : List (List Char), (before ++ [last]).filterMap Component.ofPiece? =
      before.filterMap Component.ofPiece? ++ [c] :=
        fun before => by simp [List.filterMap_append, hc]
  rw [components_eq, h]
  cases init with
  | nil =>
      split
      · next h => cases h
      · next h => exact absurd (List.cons.inj h).1 hstep.1
      · next h => exact absurd (List.cons.inj h).1 hstep.1
      · next h => exact absurd (List.cons.inj h).1 hstep.2
      · rw [hlast, List.getLast?_concat]
  | cons first init =>
      split
      · next h => cases h
      · next h => simp at h
      · next ps _ h =>
          obtain ⟨-, rfl⟩ := List.cons.inj h
          rw [show init.append [last] = init ++ [last] from rfl, hlast, ← List.cons_append,
            List.getLast?_concat]
      · next ps h =>
          obtain ⟨-, rfl⟩ := List.cons.inj h
          rw [show init.append [last] = init ++ [last] from rfl, hlast, ← List.cons_append,
            List.getLast?_concat]
      · rw [hlast, List.getLast?_concat]

/-- The last piece of a spelling that ends in a name is this name, or it adds nothing. -/
theorem last_of_fileName? {p : Path} {name : String} {init : List (List Char)} {last : List Char}
    (hname : p.fileName? = some name) (h : pieces p.text = init ++ [last]) :
    (last = name.toList ∧ Names last) ∨ last = [] ∨ last = ['.'] := by
  cases hc : Component.ofPiece? last with
  | none => exact Or.inr (Component.ofPiece?_eq_none.mp hc)
  | some c =>
      rw [Path.fileName?, getLast?_components h hc] at hname
      cases c with
      | name n =>
          cases hname
          exact Or.inl (Names.of_ofPiece? hc)
      | root => cases hname
      | here => cases hname
      | up => cases hname

/-- Without regard to links, a spelling is read piece by piece. -/
theorem reach_eq (from_ : Location) (p : Path) :
    from_.reach p = ((pieces p.text).filterMap Component.ofPiece?).foldl Location.step
      (startOf p.text from_) := by
  unfold Location.reach
  rw [components_eq]
  split
  · next h => exact absurd h (pieces_ne_nil _)
  · next h =>
      rw [startOf_of_relative (by simp [h]), h]
      rfl
  · next ps hne h =>
      obtain ⟨second, others, rfl⟩ := List.exists_cons_of_ne_nil hne
      rw [startOf_of_rooted h, h]
      rfl
  · next ps h =>
      rw [startOf_of_relative (by simp [h]), h]
      rfl
  · next ps _ _ hrooted _ =>
      rw [startOf_of_relative fun second others => hrooted (second :: others)]

/-- A walk that follows no link leads to the place that the spelling has by its dots alone. -/
theorem Leads.reach (h : d.Leads 0 l ps k l') :
    (ps.filterMap Component.ofPiece?).foldl Location.step l = l' := by
  generalize hlinks : 0 = links at h
  induction h with
  | nil links l => rfl
  | stay hd hp _ ih => rw [List.filterMap_cons_none (Component.ofPiece?_eq_none.mpr hp), ih hlinks]
  | up hd _ ih => exact ih hlinks
  | enter hd hn hs hitem hlink _ ih =>
      rw [List.filterMap_cons_some hn.ofPiece?, List.foldl_cons, ← ih hlinks]; rfl
  | follow hd hn hs hitem _ _ => cases hlinks

/-- A walk that may follow more links than it needs leads to the same place. -/
theorem Leads.more (h : d.Leads links l ps links' l') (n : Nat) :
    d.Leads (links + n) l ps (links' + n) l' := by
  induction h with
  | nil links l => exact .nil (links + n) l
  | stay hd hp _ ih => exact .stay hd hp ih
  | up hd _ ih => exact .up hd ih
  | enter hd hn hs hitem hlink _ ih => exact .enter hd hn hs hitem hlink ih
  | @follow links _ _ _ _ _ _ hd hn hs hitem _ ih =>
      rw [Nat.add_right_comm links 1 n]
      exact .follow hd hn hs hitem ih

/-- There is no link on the way to what a spelling names. -/
def LinkFree (d : Disk) (from_ : Location) (p : Path) : Prop :=
  ∃ l, d.walk 0 (startOf p.text from_) (pieces p.text) = .ok l

theorem locate_of_resolve_error {from_ : Location} {p : Path} (h : ∀ l, d.resolve from_ p ≠ .ok l) :
    d.locate from_ p = from_.reach p := by
  unfold locate
  split
  · next l hl => exact absurd hl (h l)
  · rfl

/-- With no link on the way a spelling names the place that it has by its dots alone. -/
theorem locate_of_linkFree {from_ : Location} {p : Path} (h : d.LinkFree from_ p) :
    d.locate from_ p = from_.reach p := by
  obtain ⟨l, hl⟩ := h
  obtain ⟨k, hleads⟩ := walk_eq_ok.mp hl
  by_cases hok : ∃ l', d.resolve from_ p = .ok l'
  · obtain ⟨l', hl'⟩ := hok
    obtain ⟨k', hleads'⟩ := walk_eq_ok.mp (walk_of_resolve hl')
    have hmore : d.Leads linkLimit (startOf p.text from_) (pieces p.text) (k + linkLimit) l := by
      simpa using hleads.more linkLimit
    rw [locate_of_resolve hl', reach_eq, hleads.reach, hleads'.unique hmore]
  · exact locate_of_resolve_error fun l' hl' => hok ⟨l', hl'⟩

/-! ## Removed files -/

def without (d : Disk) (l : Location) : Disk := ⟨d.items.filter (·.1 ≠ l)⟩

theorem item?_without_self (hl : d.isDirectory l = false) : (d.without l).item? l = none := by
  have hroot : l.names.isEmpty = false := by
    by_contra h
    rw [isDirectory, item?, if_pos (by simpa using h)] at hl
    simp at hl
  simp only [item?, hroot, Bool.false_eq_true, if_false]
  exact lookup_filter_self l d.items

theorem item?_of_without {x : Location} {item : Item} (h : (d.without l).item? x = some item) :
    d.item? x = some item := by
  unfold item? at h ⊢
  split
  · next hx => rwa [if_pos hx] at h
  · next hx =>
      rw [if_neg hx] at h
      by_cases hxl : x = l
      · rw [hxl] at h
        cases (lookup_filter_self l d.items).symm.trans h
      · rwa [without, lookup_filter_ne d.items hxl] at h

/-- Only what is no directory is removed. -/
theorem remove_eq_some {from_ : Location} {p : Path} (h : d.remove from_ p = some d') :
    ∃ l, d.entry from_ p = .ok l ∧ d.isDirectory l = false ∧ d' = d.without l := by
  unfold remove at h
  split at h
  · cases h
  · next l hl =>
      split at h
      · cases h
      · next hd => exact ⟨l, hl, by simpa using hd, (Option.some.inj h).symm⟩

/-- What a name at the end of a spelling names in a directory is removed, if it is no directory. -/
theorem remove_of_name {from_ dir : Location} {p : Path} {name text : String}
    (hname : p.fileName? = some name) (hlast : (pieces p.text).getLast? = some name.toList)
    (htext : String.ofList (p.text.toList.take (p.text.length - name.toList.length)) ++ "." = text)
    (hdir : d.resolve from_ ⟨text⟩ = .ok dir) (hsize : name.utf8ByteSize ≤ nameLimit)
    (hitem : (d.item? (dir.child name)).isSome = true)
    (hfile : d.isDirectory (dir.child name) = false) :
    d.remove from_ p = some (d.without (dir.child name)) := by
  have hentry : d.entry from_ p = .ok (dir.child name) := by
    unfold entry
    rw [hname, hlast]
    simp only [if_pos, htext, hdir]
    show (if _ then _ else if _ then _ else _) = _
    rw [if_neg (Nat.not_lt.mpr hsize), if_pos hitem]
  unfold remove
  rw [hentry]
  simp only [hfile, Bool.false_eq_true, if_false]
  rfl

/-- The entry that a spelling names lies in the directory that the spelling without its
last name leads to. -/
theorem entry_of_name {from_ : Location} {p : Path} {name : String} {init : List (List Char)}
    {last : List Char} (hname : p.fileName? = some name) (hpieces : pieces p.text = init ++ [last])
    (hlast : last = name.toList) (h : d.entry from_ p = .ok l) :
    ∃ k dir, d.Leads linkLimit (startOf p.text from_) init k dir ∧ l = dir.child name := by
  obtain ⟨pre, htext, hinit⟩ := Text.splitOn_eq_concat hpieces
  -- the spelling of the directory is what comes before the name, and a dot
  have hcut : p.text.toList.take (p.text.length - last.length) = pre := by
    rw [← String.length_toList, htext, List.length_append, Nat.add_sub_cancel]
    simp
  unfold entry at h
  rw [hname, hpieces, List.getLast?_concat] at h
  simp only [if_pos hlast, hcut] at h
  have hdot : pieces (String.ofList pre ++ ".") = init ++ [['.']] := by
    rw [pieces, String.toList_append, String.toList_ofList]
    exact hinit ['.'] (by decide)
  obtain ⟨dir, hdir, hentry⟩ :
      ∃ dir, d.resolve from_ ⟨String.ofList pre ++ "."⟩ = .ok dir ∧ l = dir.child name := by
    cases hr : d.resolve from_ ⟨String.ofList pre ++ "."⟩ with
    | error e =>
        rw [hr] at h
        cases h
    | ok dir =>
        rw [hr] at h
        refine ⟨dir, rfl, ?_⟩
        change (if _ then _ else if _ then _ else _) = _ at h
        split at h
        · cases h
        · split at h
          · exact (Except.ok.inj h).symm
          · cases h
  obtain ⟨k, hleads⟩ := walk_eq_ok.mp (walk_of_resolve hdir)
  rw [hdot, startOf_congr hdot hpieces] at hleads
  obtain ⟨k₁, l₁, hinit', hlast'⟩ := hleads.split
  obtain ⟨-, rfl⟩ := hlast'.directory (Or.inr rfl)
  exact ⟨k₁, l₁, hinit', hentry⟩

/-- When the file that a spelling names is removed, the spelling leads nowhere. -/
theorem resolve_of_remove {from_ : Location} {p : Path} {name : String}
    (hname : p.fileName? = some name) (h : d.remove from_ p = some d') :
    d'.resolve from_ p ≠ .ok l' := by
  intro hresolve
  obtain ⟨l, hentry, hfile, rfl⟩ := remove_eq_some h
  obtain ⟨init, last, hpieces⟩ : ∃ init last, pieces p.text = init ++ [last] :=
    ⟨_, _, (List.dropLast_append_getLast (pieces_ne_nil p.text)).symm⟩
  -- the walk on what is left is one on the disk as it was
  obtain ⟨k, hleads⟩ := walk_eq_ok.mp (walk_of_resolve hresolve)
  have hbefore := hleads.mono fun _ _ => item?_of_without
  rcases last_of_fileName? hname hpieces with ⟨hlast, hn⟩ | hlast
  · obtain ⟨k', dir, hdir, rfl⟩ := entry_of_name hname hpieces hlast hentry
    rw [hpieces] at hleads hbefore
    obtain ⟨k₁, l₁, hinit, hend⟩ := hleads.split
    obtain rfl := (hinit.mono fun _ _ => item?_of_without).unique hdir
    obtain ⟨item, hitem⟩ := hend.found hn
    rw [hlast, String.ofList_toList, item?_without_self hfile] at hitem
    cases hitem
  · have hne : last ≠ name.toList := by
      rintro rfl
      obtain ⟨hempty, hdot, -⟩ := Path.isProper_of_fileName? hname
      rcases hlast with hlast | hlast
      · exact hempty (String.toList_injective hlast)
      · exact hdot (String.toList_injective hlast)
    -- the spelling leads to a directory, and none was removed
    unfold entry at hentry
    rw [hname, hpieces, List.getLast?_concat] at hentry
    simp only [if_neg hne] at hentry
    obtain ⟨k', hentry'⟩ := walk_eq_ok.mp (walk_of_resolve hentry)
    rw [hpieces] at hentry'
    obtain ⟨k₁, l₁, -, hend⟩ := hentry'.split
    rw [(hend.directory hlast).1] at hfile
    cases hfile

/-- From then on the spelling names the place that it has by its dots alone. -/
theorem locate_of_remove {from_ : Location} {p : Path} {name : String}
    (hname : p.fileName? = some name) (h : d.remove from_ p = some d') :
    d'.locate from_ p = from_.reach p :=
  locate_of_resolve_error fun _ => resolve_of_remove hname h

end Disk

end FSharpWorkspace
