import FSharpWorkspace.Toml.Document
import Mathlib.Data.List.Nodup
/-!
# No key twice

A file that gives a key of a table twice is refused, however the table came about: by headers, by
dotted keys, or written out as a value. So no table that is read has a key twice
(`ofText?_distinct`).

The tables are `Draft`s while the file is read. Whatever changes a draft sets one field at a time
and keeps all drafts distinct (`Draft.edit_distinct`), and the value of such a draft is distinct
(`Draft.Distinct.toValue`).
-/

set_option autoImplicit false

namespace FSharpWorkspace.Toml

/-! ## Values and drafts -/

/-- No table in a value has a key twice. -/
inductive Distinct : Toml → Prop where
  | leaf {v : Toml} : v.fields = [] → v.elements = [] → Distinct v
  | list {vs : List Toml} : (∀ v ∈ vs, Distinct v) → Distinct (.list vs)
  | table {fs : List (String × Toml)} :
      (fs.map Prod.fst).Nodup → (∀ k v, (k, v) ∈ fs → Distinct v) → Distinct (.table fs)

namespace Draft

/-- No table in a draft has a key twice. -/
inductive Distinct : Draft → Prop where
  | value {v : Toml} : v.Distinct → Distinct (.value v)
  | table {isOpen isDotted : Bool} {fs : List (String × Draft)} :
      (fs.map Prod.fst).Nodup → (∀ k d, (k, d) ∈ fs → Distinct d) →
        Distinct (.table isOpen isDotted fs)
  | tables {items : List (List (String × Draft))} :
      (∀ fs ∈ items, (fs.map Prod.fst).Nodup) → (∀ fs ∈ items, ∀ k d, (k, d) ∈ fs → Distinct d) →
      Distinct (.tables items)

/-- No key is twice among some fields, nor in any table of theirs. -/
structure Apart (fs : List (String × Draft)) : Prop where
  nodup : (fs.map Prod.fst).Nodup
  held : ∀ k d, (k, d) ∈ fs → d.Distinct

theorem Apart.nil : Apart [] := ⟨.nil, nofun⟩

theorem Distinct.apart {isOpen isDotted : Bool} {fs : List (String × Draft)}
    (h : (Draft.table isOpen isDotted fs).Distinct) : Apart fs := by
  cases h with
  | table hn hd => exact ⟨hn, hd⟩

theorem Distinct.apart_of_mem {items : List (List (String × Draft))} {fs : List (String × Draft)}
    (h : (Draft.tables items).Distinct) (hfs : fs ∈ items) : Apart fs := by
  cases h with
  | tables hn hd => exact ⟨hn fs hfs, hd fs hfs⟩

theorem Apart.table {fs : List (String × Draft)} (h : Apart fs) (isOpen isDotted : Bool) :
    (Draft.table isOpen isDotted fs).Distinct := .table h.nodup h.held

theorem Apart.tables {items : List (List (String × Draft))} (h : ∀ fs ∈ items, Apart fs) :
    (Draft.tables items).Distinct :=
  .tables (fun fs hfs => (h fs hfs).nodup) fun fs hfs => (h fs hfs).held

/-! ### Their values -/

theorem toFields_eq_map (fs : List (String × Draft)) :
    toFields fs = fs.map fun f => (f.1, f.2.toValue) := by
  induction fs with
  | nil => rfl
  | cons f fs ih =>
      obtain ⟨k, d⟩ := f
      rw [toFields, ih, List.map_cons]

theorem toTables_eq_map (items : List (List (String × Draft))) :
    toTables items = items.map fun fs => Toml.table (toFields fs) := by
  induction items with
  | nil => rfl
  | cons fs items ih => rw [toTables, ih, List.map_cons]

theorem map_fst_toFields (fs : List (String × Draft)) :
    (toFields fs).map Prod.fst = fs.map Prod.fst := by
  rw [toFields_eq_map, List.map_map]
  rfl

/-- The table of some fields is distinct if they are apart and their values are distinct. -/
theorem distinct_toFields {fs : List (String × Draft)} (hn : (fs.map Prod.fst).Nodup)
    (hd : ∀ k d, (k, d) ∈ fs → d.toValue.Distinct) : (Toml.table (toFields fs)).Distinct := by
  refine .table ((map_fst_toFields fs).symm ▸ hn) fun k v hv => ?_
  rw [toFields_eq_map] at hv
  obtain ⟨⟨k', d⟩, hmem, heq⟩ := List.mem_map.mp hv
  cases heq
  exact hd k' d hmem

/-- The value of a distinct draft is distinct. -/
theorem Distinct.toValue {d : Draft} (h : d.Distinct) : d.toValue.Distinct := by
  induction h with
  | value hv => exact hv
  | table hn _ ih => exact distinct_toFields hn ih
  | @tables items hn _ ih =>
      refine .list fun v hv => ?_
      rw [List.mem_reverse, toTables_eq_map] at hv
      obtain ⟨fs, hfs, rfl⟩ := List.mem_map.mp hv
      exact distinct_toFields (hn fs hfs) (ih fs hfs)

theorem Apart.toFields {fs : List (String × Draft)} (h : Apart fs) :
    (Toml.table (toFields fs)).Distinct :=
  (h.table false false).toValue

/-! ### Setting a field -/

theorem map_fst_setField (key : String) (d : Draft) (fs : List (String × Draft)) :
    (setField key d fs).map Prod.fst =
      if key ∈ fs.map Prod.fst then fs.map Prod.fst else fs.map Prod.fst ++ [key] := by
  induction fs with
  | nil => rfl
  | cons f fs ih =>
      obtain ⟨k, e⟩ := f
      rw [setField]
      by_cases hk : k = key
      · subst hk
        simp
      · rw [if_neg hk, List.map_cons, ih]
        by_cases hm : key ∈ fs.map Prod.fst
        · simp [hm]
        · simp [hm, Ne.symm hk]

theorem mem_setField {key k : String} {d e : Draft} {fs : List (String × Draft)}
    (h : (k, e) ∈ setField key d fs) :
    e = d ∨ (k, e) ∈ fs := by
  induction fs with
  | nil =>
      cases List.mem_singleton.mp h
      exact Or.inl rfl
  | cons f fs ih =>
      obtain ⟨k', e'⟩ := f
      rw [setField] at h
      split at h
      · rcases List.mem_cons.mp h with heq | hm
        · exact Or.inl (Prod.mk.inj heq).2
        · exact Or.inr (List.mem_cons_of_mem _ hm)
      · rcases List.mem_cons.mp h with heq | hm
        · exact Or.inr (heq ▸ List.mem_cons_self)
        · exact (ih hm).imp_right (List.mem_cons_of_mem _)

theorem Apart.setField {fs : List (String × Draft)} {d : Draft} (h : Apart fs) (hd : d.Distinct)
    (key : String) :
    Apart (setField key d fs) where
  nodup := by
    rw [map_fst_setField]
    split
    · exact h.nodup
    · next hk =>
        rw [← List.concat_eq_append]
        exact h.nodup.concat hk
  held k e he := by
    rcases mem_setField he with rfl | he
    · exact hd
    · exact h.held k e he

theorem Apart.of_lookup {fs : List (String × Draft)} {key : String} {d : Draft} (h : Apart fs)
    (hd : fs.lookup key = some d) : d.Distinct := by
  obtain ⟨before, after, hsplit, -⟩ := List.lookup_eq_some_iff.mp hd
  exact h.held key d (by simp [hsplit])

/-! ### Changes -/

def Keeps (change : Fields → Option Fields) : Prop :=
  ∀ t t', Apart t.fields → change t = some t' → Apart t'.fields

theorem openTable_keeps (key : String) : Keeps (openTable key) := by
  intro t t' ht h
  unfold openTable at h
  split at h
  · cases h
    exact ht.setField (Apart.nil.table false false) key
  · next hd =>
      cases h
      exact ht.setField ((ht.of_lookup hd).apart.table false false) key
  · cases h

theorem addTable_keeps (key : String) : Keeps (addTable key) := by
  intro t t' ht h
  unfold addTable at h
  split at h
  · cases h
    refine ht.setField (Apart.tables fun fs hfs => ?_) key
    rw [List.mem_singleton.mp hfs]
    exact .nil
  · next items hd =>
      cases h
      refine ht.setField (Apart.tables fun fs hfs => ?_) key
      rcases List.mem_cons.mp hfs with rfl | hfs
      · exact .nil
      · exact (ht.of_lookup hd).apart_of_mem hfs
  · cases h

theorem assign_keeps (key : String) {v : Toml} (hv : v.Distinct) (dotted : Bool) :
    Keeps (assign key v dotted) := by
  intro t t' ht h
  unfold assign at h
  split at h
  · cases h
  · split at h
    · cases h
      exact ht.setField (.value hv) key
    · cases h

/-- A change of the table that keys lead to changes no other table but for one field on each way. -/
theorem edit_keeps {change : Fields → Option Fields} (hchange : Keeps change) (byDots : Bool)
    (keys : List String) :
    Keeps (edit byDots change keys) := by
  induction keys with
  | nil => exact hchange
  | cons key rest ih =>
      intro t t' ht h
      rw [edit] at h
      split at h
      · -- a name that is new opens a table of its own
        obtain ⟨u, hu, h⟩ := Option.bind_eq_some_iff.mp h
        cases h
        exact ht.setField ((ih _ u .nil hu).table _ _) key
      · next isOpen isDotted fs hd =>
          have happly : ∀ h' : (edit byDots change rest ⟨isOpen, isDotted, fs⟩).bind (fun u =>
              some { t with
                fields := setField key (.table u.isOpen u.isDotted u.fields) t.fields }) =
                some t',
              Apart t'.fields := by
            intro h'
            obtain ⟨u, hu, h'⟩ := Option.bind_eq_some_iff.mp h'
            cases h'
            exact ht.setField ((ih _ u (ht.of_lookup hd).apart hu).table _ _) key
          split at h
          · cases h
          · exact happly h
      · next fs items hd =>
          -- below an array the edit goes to its latest table
          obtain ⟨u, hu, h⟩ := Option.bind_eq_some_iff.mp h
          cases h
          have htables := ht.of_lookup hd
          refine ht.setField (Apart.tables fun gs hgs => ?_) key
          rcases List.mem_cons.mp hgs with rfl | hgs
          · exact ih _ u (htables.apart_of_mem List.mem_cons_self) hu
          · exact htables.apart_of_mem (List.mem_cons_of_mem _ hgs)
      · cases h

theorem assignAt_keeps (keys : List String) {v : Toml} (hv : v.Distinct) :
    Keeps (assignAt keys v) := by
  intro t t' ht h
  unfold assignAt at h
  split at h
  · cases h
  · next key _ => exact edit_keeps (assign_keeps key hv _) true _ t t' ht h

end Draft

/-! ## Reading -/

def IsLeaf (v : Toml) : Prop := v.fields = [] ∧ v.elements = []

theorem Scalar.integerOf?_isLeaf {n : Int} {v : Toml} (h : integerOf? n = some v) : v.IsLeaf := by
  unfold integerOf? at h
  split at h
  · cases h
    exact ⟨rfl, rfl⟩
  · cases h

theorem Scalar.basedInteger?_isLeaf {word : List Char} {v : Toml}
    (h : basedInteger? word = some v) : v.IsLeaf := by
  unfold basedInteger? at h
  split at h
  · obtain ⟨_, -, h⟩ := Option.bind_eq_some_iff.mp h
    exact integerOf?_isLeaf h
  · obtain ⟨_, -, h⟩ := Option.bind_eq_some_iff.mp h
    exact integerOf?_isLeaf h
  · obtain ⟨_, -, h⟩ := Option.bind_eq_some_iff.mp h
    exact integerOf?_isLeaf h
  · cases h

theorem Scalar.decimalInteger?_isLeaf {word : List Char} {v : Toml}
    (h : decimalInteger? word = some v) : v.IsLeaf := by
  obtain ⟨_, -, h⟩ := Option.bind_eq_some_iff.mp h
  exact integerOf?_isLeaf h

theorem Scalar.float?_isLeaf {word : List Char} {v : Toml}
    (h : float? word = some v) : v.IsLeaf := by
  simp only [float?] at h
  split at h
  · cases h
    exact ⟨rfl, rfl⟩
  · split at h
    · cases h
      exact ⟨rfl, rfl⟩
    · obtain ⟨_, -, rfl⟩ := Option.map_eq_some_iff.mp h
      exact ⟨rfl, rfl⟩

theorem Scalar.moment?_isLeaf {word : List Char} {v : Toml}
    (h : moment? word = some v) : v.IsLeaf := by
  unfold moment? at h
  split at h
  · cases h
    exact ⟨rfl, rfl⟩
  · split at h
    · cases h
    · obtain ⟨_, -, h⟩ := Option.bind_eq_some_iff.mp h
      obtain ⟨_, -, h⟩ := Option.bind_eq_some_iff.mp h
      cases h
      exact ⟨rfl, rfl⟩
  · split at h
    · cases h
      exact ⟨rfl, rfl⟩
    · cases h

/-- A word is a single value. -/
theorem Scalar.ofWord?_isLeaf {word : List Char} {v : Toml}
    (h : ofWord? word = some v) : v.IsLeaf := by
  unfold ofWord? at h
  split at h
  · cases h
    exact ⟨rfl, rfl⟩
  split at h
  · cases h
    exact ⟨rfl, rfl⟩
  simp only [Option.or_eq_some_iff] at h
  rcases h with h | ⟨-, h | ⟨-, h | ⟨-, h⟩⟩⟩
  · exact decimalInteger?_isLeaf h
  · exact basedInteger?_isLeaf h
  · exact float?_isLeaf h
  · exact moment?_isLeaf h

namespace Reader

def Gives {α : Type} (P : α → Prop) (x : Reader α) : Prop :=
  ∀ text a rest, x text = some (a, rest) → P a

section

variable {α β : Type} {P : β → Prop} {Q : α → Prop}

theorem Gives.bind {x : Reader α} {f : α → Reader β} (hx : x.Gives Q)
    (hf : ∀ a, Q a → (f a).Gives P) :
    (x >>= f).Gives P := by
  intro text b rest h
  obtain ⟨⟨a, mid⟩, ha, hb⟩ := Option.bind_eq_some_iff.mp h
  exact hf a (hx text a mid ha) mid b rest hb

theorem Gives.after {x : Reader α} {f : α → Reader β}
    (hf : ∀ a, (f a).Gives P) : (x >>= f).Gives P :=
  Gives.bind (Q := fun _ => True) (fun _ _ _ _ => trivial) fun a _ => hf a

theorem Gives.pure {b : β} (h : P b) : (Pure.pure b : Reader β).Gives P := by
  intro text a rest he
  cases he
  exact h

theorem Gives.refuse : (Reader.refuse : Reader β).Gives P := by
  intro text a rest h
  cases h

end

theorem scalar_distinct : scalar.Gives Distinct := by
  unfold scalar
  refine .after fun word => .after fun rest => .after fun word => ?_
  split
  · next v hv => exact .pure (.leaf (Scalar.ofWord?_isLeaf hv).1 (Scalar.ofWord?_isLeaf hv).2)
  · exact .refuse

section

variable {value : Reader Toml}

theorem listFrom_distinct (hvalue : value.Gives Distinct) (rounds : Nat) {done : List Toml}
    (hdone : ∀ v ∈ done, v.Distinct) : (listFrom value rounds done).Gives Distinct := by
  induction rounds generalizing done with
  | zero => exact .refuse
  | succ rounds ih =>
      have hmore : ∀ {v : Toml}, v.Distinct → ∀ u ∈ done ++ [v], u.Distinct := by
        intro v hv u hu
        rcases List.mem_append.mp hu with hu | hu
        · exact hdone u hu
        · exact List.mem_singleton.mp hu ▸ hv
      rw [listFrom]
      refine .after fun _ => .after fun c => ?_
      split
      · exact .after fun _ => .pure (.list hdone)
      · refine .bind hvalue fun v hv => .after fun _ => .after fun c => ?_
        split
        · exact ih (hmore hv)
        · exact .pure (.list (hmore hv))
        · exact .refuse

theorem assignment_distinct (hvalue : value.Gives Distinct) :
    (assignment value).Gives (·.2.Distinct) := by
  unfold assignment
  exact .after fun keys => .after fun _ => .after fun _ => .bind hvalue fun v hv => .pure hv

theorem tableFrom_distinct (hvalue : value.Gives Distinct) (rounds : Nat) {done : Draft.Fields}
    (hdone : Draft.Apart done.fields) : (tableFrom value rounds done).Gives Distinct := by
  induction rounds generalizing done with
  | zero => exact .refuse
  | succ rounds ih =>
      rw [tableFrom]
      refine .after fun _ => .after fun c => ?_
      split
      · exact .after fun _ => .pure hdone.toFields
      · refine .bind (assignment_distinct hvalue) fun ⟨keys, v⟩ hv => ?_
        dsimp only
        split
        · exact .refuse
        · next done' hassign =>
            have hdone' := Draft.assignAt_keeps keys hv done done' hdone hassign
            refine .after fun _ => .after fun c => ?_
            split
            · exact ih hdone'
            · exact .pure hdone'.toFields
            · exact .refuse

end

theorem text_distinct (x : Reader String) : (do return .text (← x) : Reader Toml).Gives Distinct :=
  .after fun _ => .pure (.leaf rfl rfl)

/-- A value is distinct if the values that nest in it are. -/
theorem valueIn_distinct_of {depth : Nat} (h : ∀ d, depth = d + 1 → (valueIn d).Gives Distinct) :
    (valueIn depth).Gives Distinct := by
  rw [valueIn.eq_def]
  refine .after fun c => ?_
  split
  · refine .after fun isLong => ?_
    split
    · exact .after fun _ => text_distinct _
    · exact .after fun _ => text_distinct _
  · refine .after fun isLong => ?_
    split
    · exact .after fun _ => text_distinct _
    · exact .after fun _ => text_distinct _
  · split
    · exact .refuse
    · exact .after fun _ => .after fun _ => listFrom_distinct (h _ rfl) _ nofun
  · split
    · exact .refuse
    · exact .after fun _ => .after fun _ => tableFrom_distinct (h _ rfl) _ .nil
  · exact scalar_distinct

theorem valueIn_distinct (depth : Nat) : (valueIn depth).Gives Distinct := by
  induction depth with
  | zero => exact valueIn_distinct_of nofun
  | succ depth ih =>
      refine valueIn_distinct_of fun d hd => ?_
      cases hd
      exact ih

/-! ### Lines -/

theorem apply_keeps {file : File} {change : Draft.Fields → Option Draft.Fields}
    (hchange : Draft.Keeps change) (hfile : Draft.Apart file.root.fields) :
    (apply file change).Gives (Draft.Apart ·.root.fields) := by
  unfold apply
  split
  · next root hroot => exact .pure (hchange file.root root hfile hroot)
  · exact .refuse

theorem header_keeps {file : File} (hfile : Draft.Apart file.root.fields) :
    (header file).Gives (Draft.Apart ·.root.fields) := by
  unfold header
  refine .after fun isList => .after fun _ => .after fun keys => .after fun _ => ?_
  split
  · split
    · exact .after fun _ => .refuse
    · exact .refuse
  · next last _ =>
      have hadd :=
        apply_keeps (Draft.edit_keeps (Draft.addTable_keeps last) false keys.dropLast) hfile
      have hopen :=
        apply_keeps (Draft.edit_keeps (Draft.openTable_keeps last) false keys.dropLast) hfile
      split
      · exact .after fun _ => .bind hadd fun _ h => .pure h
      · exact .bind hopen fun _ h => .pure h

/-- A line keeps the tables of the file distinct. -/
theorem line_keeps {file : File} (hfile : Draft.Apart file.root.fields) :
    (line file).Gives (Draft.Apart ·.root.fields) := by
  unfold line
  refine .after fun c => ?_
  split
  · exact header_keeps hfile
  · refine .bind (assignment_distinct (valueIn_distinct nestingLimit)) fun ⟨keys, v⟩ hv => ?_
    exact apply_keeps (Draft.edit_keeps (Draft.assignAt_keeps keys hv) false _) hfile

theorem linesFrom_keeps (rounds : Nat) {file : File} (hfile : Draft.Apart file.root.fields) :
    (linesFrom rounds file).Gives (Draft.Apart ·.root.fields) := by
  induction rounds generalizing file with
  | zero => exact .refuse
  | succ rounds ih =>
      rw [linesFrom]
      refine .after fun _ => .after fun rest => ?_
      split
      · exact .pure hfile
      · exact .bind (line_keeps hfile) fun file' h => .after fun _ => ih h

end Reader

/-- **No key twice.** No table that a file holds has a key twice. -/
theorem ofText?_distinct {text : String} {fields : List (String × Toml)}
    (h : ofText? text = some fields) :
    (Toml.table fields).Distinct := by
  obtain ⟨⟨file, rest⟩, hfile, hfields⟩ := Option.bind_eq_some_iff.mp h
  cases hfields
  have hroot : Draft.Apart file.root.fields := Reader.linesFrom_keeps _ .nil _ file rest hfile
  exact hroot.toFields

end FSharpWorkspace.Toml
