import FSharpWorkspace.CrackReport.Json
import FSharpWorkspace.Proofs.Json.Wanted
/-!
# Reports are read by name

What a report says depends on the members of its object that have a known name, and on nothing else:
not on their order, nor on the blanks and escapes they are written with, nor on the other members
(`ofJson?_byName`). No known name may occur twice.

Reading follows the members in their order and keeps the fields it has seen (`gather`). While no
name occurs twice, what is gathered is what the members say by name (`gather_eq_filled`).
-/

set_option autoImplicit false

namespace FSharpWorkspace.CrackReport

open Json

/-! ## What members say -/

def path? (d : Doc) : Option Path := d.text?.map Path.mk

def paths? : Doc → Option (List Path) := Doc.list? path?

def optionalPath? : Doc → Option (Option Path) := Doc.optional? path?

def message? : Doc → Option (Option String) := Doc.optional? Doc.text?

/-- Whether a value is of the type of a field. -/
def Field.takes (f : Field) (d : Doc) : Bool :=
  match f with
  | .target => (optionalPath? d).isSome
  | .error => (message? d).isSome
  | _ => (paths? d).isSome

/-- A report with the values of their types that its fields are given. The other
fields stay as they are. -/
def filled (r : CrackReport) (value : Field → Option Doc) : CrackReport where
  sources := ((value .sources).bind paths?).getD r.sources
  target := ((value .target).bind optionalPath?).getD r.target
  projectReferences := ((value .projectReferences).bind paths?).getD r.projectReferences
  otherReferences := ((value .otherReferences).bind paths?).getD r.otherReferences
  packageReferences := ((value .packageReferences).bind paths?).getD r.packageReferences
  directReferences := ((value .directReferences).bind paths?).getD r.directReferences
  error := ((value .error).bind message?).getD r.error

/-- The members with a known name, as fields with their values. -/
def known (members : List (Member Doc)) : List (Field × Doc) :=
  members.filterMap fun m => (m.name.text?.bind Field.ofName?).map (·, m.value)

/-! ## Reading fields -/

/-- A report with a value in a field, if the value is of the type of the field. -/
def Field.set? (f : Field) (d : Doc) (r : CrackReport) : Option CrackReport :=
  match f with
  | .sources => (paths? d).map fun ps => { r with sources := ps }
  | .target => (optionalPath? d).map fun p => { r with target := p }
  | .projectReferences => (paths? d).map fun ps => { r with projectReferences := ps }
  | .otherReferences => (paths? d).map fun ps => { r with otherReferences := ps }
  | .packageReferences => (paths? d).map fun ps => { r with packageReferences := ps }
  | .directReferences => (paths? d).map fun ps => { r with directReferences := ps }
  | .error => (message? d).map fun text => { r with error := text }

theorem reads_path : Reader.Reads Field.path path? := (Reader.reads_stringValue _).map Path.mk

theorem reads_field (f : Field) (r : CrackReport) : Reader.Reads (f.read r) (f.set? · r) := by
  cases f with
  | target => exact reads_path.optional.map fun p => { r with target := p }
  | error => exact (Reader.reads_stringValue _).optional.map fun text => { r with error := text }
  | sources => exact reads_path.list.map fun ps => { r with sources := ps }
  | projectReferences => exact reads_path.list.map fun ps => { r with projectReferences := ps }
  | otherReferences => exact reads_path.list.map fun ps => { r with otherReferences := ps }
  | packageReferences => exact reads_path.list.map fun ps => { r with packageReferences := ps }
  | directReferences => exact reads_path.list.map fun ps => { r with directReferences := ps }

/-- The fields of members in their order. The fields in `seen` may not occur again. -/
def gather : List Field → CrackReport → List (Member Doc) → Option CrackReport
  | _, r, [] => some r
  | seen, r, m :: members =>
    m.name.text?.bind fun name =>
      match Field.ofName? name with
      | none => gather seen r members
      | some f =>
        if seen.contains f then none
        else (f.set? m.value r).bind fun r => gather (f :: seen) r members

theorem hasField_end (first : Bool) (gap : Blanks) (rest : List UInt8) :
    Reader.hasField first (gap.bytes ++ 0x7D :: rest) = .ok (false, 0x7D :: rest) :=
  (Reader.peekToken_bind_gap _ gap _).trans rfl

theorem hasField_member (first : Bool) (gap before : Blanks) (rest : List UInt8) :
    Reader.hasField first (gap.bytes ++ (comma first ++ (before.bytes ++ 0x22 :: rest))) =
      .ok (true, 0x22 :: rest) := by
  cases first with
  | true =>
      rw [comma, if_pos rfl, List.nil_append, gap_append]
      exact (Reader.peekToken_bind_gap _ (gap ++ before) _).trans rfl
  | false =>
      have hcomma :
        Reader.peekToken (gap.bytes ++ (comma false ++ (before.bytes ++ 0x22 :: rest))) =
          .ok (some ',', 0x2C :: (before.bytes ++ 0x22 :: rest)) := Reader.peekToken_token gap rfl _
      unfold Reader.hasField
      rw [Reader.bind_of_ok hcomma]
      simp only [Char.reduceEq, imp_self, ↓reduceIte, Bool.false_eq_true]
      rw [Reader.bind_of_ok (Reader.skip_cons _ _),
        Reader.bind_of_ok (Reader.peekToken_token before rfl rest)]
      rfl

/-- Reading the members of an object gathers their fields. -/
theorem yields_readFields (members : List (Member Doc)) {rounds : Nat}
    (hrounds : members.length < rounds) (seen : List Field) (first : Bool) (r : CrackReport)
    (gap : Blanks) (rest : List UInt8) :
    Yields (readFields rounds seen first r
      (gap.bytes ++ (membersBytes first members ++ 0x7D :: rest)))
      (gather seen r members) (0x7D :: rest) := by
  induction members generalizing rounds seen first r gap with
  | nil =>
      obtain ⟨n, rfl⟩ := Nat.exists_eq_add_of_lt hrounds
      exact Reader.bind_of_ok (hasField_end first gap rest)
  | cons m members ih =>
      obtain ⟨n, rfl⟩ := Nat.exists_eq_add_of_lt hrounds
      obtain ⟨before, name, afterName, beforeValue, value, after⟩ := m
      have hends := ends_gap after (ends_members members rest)
      have hlength : members.length < members.length + 1 + n := by omega
      rw [membersBytes_cons, literal_append, readFields,
        Reader.bind_of_ok (hasField_member first gap before _)]
      simp only [Bool.not_true, Bool.false_eq_true, ↓reduceIte]
      rw [Reader.bind_of_ok (Reader.skip_cons _ _)]
      refine Reader.yields_bind (Reader.yields_string name _) fun text _ => ?_
      cases Field.ofName? text with
      | none =>
          dsimp only
          rw [Reader.bind_of_ok (Reader.colon_gap afterName _),
            Reader.bind_of_ok (Reader.skipValue_doc value beforeValue hends)]
          exact ih hlength seen false r after
      | some f =>
          dsimp only
          cases seen.contains f with
          | true => exact (Reader.stops_repeated f.name).before _ _
          | false =>
              rw [if_neg Bool.false_ne_true, if_neg Bool.false_ne_true,
                Reader.bind_of_ok (Reader.colon_gap afterName _)]
              exact Reader.yields_bind (reads_field f r value beforeValue hends) fun r' _ =>
                ih hlength (f :: seen) false r' after

theorem length_le_membersBytes (first : Bool) (members : List (Member Doc)) :
    members.length ≤ (membersBytes first members).length := by
  induction members generalizing first with
  | nil => exact Nat.zero_le _
  | cons m members ih =>
      have hrest := ih false
      simp only [membersBytes, Literal.bytes, List.length_append, List.length_cons]
      omega

theorem yields_read (before lead : Blanks) (members : List (Member Doc)) (rest : List UInt8) :
    Yields (read (before.bytes ++ ((Doc.object lead members).bytes ++ rest)))
      (gather [] {} members) rest := by
  have hstep (tail : List UInt8) : read (0x7B :: tail) =
    (readFields (tail.length + 1) [] true {} >>= fun r =>
        Reader.objectEnd >>= fun _ => pure r) tail :=
      rfl
  have hrounds :
      members.length < (lead.bytes ++ (membersBytes true members ++ 0x7D :: rest)).length + 1 := by
    have hlength := length_le_membersBytes true members
    rw [List.length_append, List.length_append]
    omega
  have hfields := yields_readFields members hrounds [] true {} lead rest
  have hgap : read
    (before.bytes ++ 0x7B :: (lead.bytes ++ (membersBytes true members ++ 0x7D :: rest))) =
      read (0x7B :: (lead.bytes ++ (membersBytes true members ++ 0x7D :: rest))) :=
    Reader.peekToken_bind_gap _ before _
  rw [object_append, hgap, hstep, ← Option.bind_fun_some (gather [] {} members)]
  exact Reader.yields_bind hfields fun r _ => rfl

/-- What is read of a text with an object is what its members gather. -/
theorem ofJson?_object (before lead : Blanks) (members : List (Member Doc)) (after : Blanks) :
    (∀ r, gather [] {} members = some r →
      ofJson? (Doc.text before (.object lead members) after) = .ok r) ∧
      (gather [] {} members = none →
        ∃ fault, ofJson? (Doc.text before (.object lead members) after) = .error fault) := by
  have hread := yields_read before lead members after.bytes
  let whole : Reader CrackReport := read >>= fun r => Reader.textEnd >>= fun _ => pure r
  have hrun : ofJson? (Doc.text before (.object lead members) after) =
    (·.1) <$> whole (before.bytes ++ ((Doc.object lead members).bytes ++ after.bytes)) := rfl
  constructor
  · intro r hr
    have hend : Reader.textEnd (after.bytes ++ []) = .ok ((), []) :=
      (Reader.peekToken_bind_gap _ after []).trans rfl
    rw [List.append_nil] at hend
    have hwhole :
        whole (before.bytes ++ ((Doc.object lead members).bytes ++ after.bytes)) = .ok (r, []) := by
      rw [hr] at hread
      exact (Reader.bind_of_ok hread).trans (Reader.bind_of_ok hend)
    rw [hrun, hwhole]
    rfl
  · intro hnone
    rw [hnone] at hread
    obtain ⟨fault, hfault⟩ := hread
    have hwhole :
        whole (before.bytes ++ ((Doc.object lead members).bytes ++ after.bytes)) = .error fault :=
      Reader.bind_of_error hfault
    exact ⟨fault, by rw [hrun, hwhole]; rfl⟩

/-! ## By name -/

section

variable {members : List (Member Doc)}

theorem known_cons_none {m : Member Doc} (h : m.name.text?.bind Field.ofName? = none) :
    known (m :: members) = known members := by
  rw [known, List.filterMap_cons, h]
  rfl

theorem known_cons_some {m : Member Doc} {f : Field}
    (h : m.name.text?.bind Field.ofName? = some f) :
    known (m :: members) = (f, m.value) :: known members := by
  rw [known, List.filterMap_cons, h]
  rfl

theorem lookup_known_eq_none {f : Field} (h : f ∉ (known members).map Prod.fst) :
    (known members).lookup f = none := by
  refine List.lookup_eq_none_iff.mpr fun p hp => ?_
  have hne : f ≠ p.1 := fun he => h (he ▸ List.mem_map_of_mem hp)
  simpa using hne

/-- With every field at most once, the order of values makes no difference to what is found. -/
theorem lookup_perm {values values' : List (Field × Doc)} (hperm : values.Perm values')
    (honce : (values.map Prod.fst).Nodup) (f : Field) : values.lookup f = values'.lookup f := by
  induction hperm with
  | nil => rfl
  | cons p _ ih => rw [List.lookup_cons, List.lookup_cons, ih (List.nodup_cons.mp honce).2]
  | swap p q values =>
      have hne : q.1 ≠ p.1 := fun h => (List.nodup_cons.mp honce).1 (h ▸ List.mem_cons_self)
      rw [List.lookup_cons, List.lookup_cons, List.lookup_cons, List.lookup_cons]
      by_cases hq : f = q.1
      · have hp : f ≠ p.1 := hq ▸ hne
        rw [beq_iff_eq.mpr hq, beq_eq_false_iff_ne.mpr hp]
      · rw [beq_eq_false_iff_ne.mpr hq]
  | trans hperm _ ih ih' => rw [ih honce, ih' ((hperm.map Prod.fst).nodup_iff.mp honce)]

/-! ### Setting fields -/

theorem Field.exists_set {f : Field} {d : Doc} (h : f.takes d) (r : CrackReport) :
    ∃ r', f.set? d r = some r' := by
  cases f <;> obtain ⟨v, hv⟩ :=
    Option.isSome_iff_exists.mp h <;> exact ⟨_, by rw [Field.set?, hv]; rfl⟩

/-- A field may be set before the others are filled in. -/
theorem filled_set {f : Field} {d : Doc} {r r' : CrackReport} (hset : f.set? d r = some r')
    {value : Field → Option Doc} (hf : value f = none) :
    filled r' value = filled r fun g => if g = f then some d else value g := by
  cases f <;> obtain ⟨v, hv, rfl⟩ := Option.map_eq_some_iff.mp hset <;> simp [filled, hv, hf]

/-- While no field occurs twice, what is gathered is what the members say by name. -/
theorem gather_eq_filled {seen : List Field} {r : CrackReport}
    (hnames : ∀ m ∈ members, m.name.text?.isSome) (honce : ((known members).map Prod.fst).Nodup)
    (hseen : ∀ p ∈ known members, p.1 ∉ seen) (htyped : ∀ p ∈ known members, p.1.takes p.2) :
    gather seen r members = some (filled r fun f => (known members).lookup f) := by
  induction members generalizing seen r with
  | nil => rfl
  | cons m members ih =>
      obtain ⟨name, hname⟩ := Option.isSome_iff_exists.mp (hnames m List.mem_cons_self)
      have hothers : ∀ m ∈ members, m.name.text?.isSome :=
        fun m hm => hnames m (List.mem_cons_of_mem _ hm)
      rw [gather, hname, Option.bind_some]
      cases hfield : Field.ofName? name with
      | none =>
          have hknown : known (m :: members) = known members :=
            known_cons_none (by rw [hname]; exact hfield)
          rw [hknown] at honce hseen htyped ⊢
          exact ih hothers honce hseen htyped
      | some f =>
          have hknown : known (m :: members) = (f, m.value) :: known members :=
            known_cons_some (by rw [hname]; exact hfield)
          rw [hknown] at honce hseen htyped ⊢
          obtain ⟨hnew, honce'⟩ := List.nodup_cons.mp honce
          obtain ⟨r', hset⟩ := Field.exists_set (htyped _ List.mem_cons_self) r
          have hunseen : seen.contains f = false := by
            simpa using hseen _ List.mem_cons_self
          have hseen' : ∀ p ∈ known members, p.1 ∉ f :: seen := by
            intro p hp hmem
            rcases List.mem_cons.mp hmem with he | hmem
            · exact hnew (List.mem_map.mpr ⟨p, hp, he⟩)
            · exact hseen p (List.mem_cons_of_mem _ hp) hmem
          have hrest : gather (f :: seen) r' members =
              some (filled r' fun g => (known members).lookup g) :=
            ih hothers honce' hseen' fun p hp => htyped p (List.mem_cons_of_mem _ hp)
          have hlookup : (fun g => if g = f then some m.value else (known members).lookup g) =
              fun g => ((f, m.value) :: known members).lookup g := by
            funext g
            rw [List.lookup_cons]
            by_cases hg : g = f
            · rw [if_pos hg, beq_iff_eq.mpr hg]
            · rw [if_neg hg, beq_eq_false_iff_ne.mpr hg]
          dsimp only
          rw [hunseen, if_neg Bool.false_ne_true, hset, Option.bind_some, hrest,
            filled_set hset (lookup_known_eq_none hnew), hlookup]

/-- What was gathered has no field twice. -/
theorem nodup_of_gather {seen : List Field} {r r' : CrackReport}
    (h : gather seen r members = some r') :
    ((known members).map Prod.fst).Nodup ∧ ∀ p ∈ known members, p.1 ∉ seen := by
  induction members generalizing seen r with
  | nil => exact ⟨.nil, fun p hp => absurd hp (List.not_mem_nil)⟩
  | cons m members ih =>
      rw [gather] at h
      obtain ⟨name, hname, h⟩ := Option.bind_eq_some_iff.mp h
      cases hfield : Field.ofName? name with
      | none =>
          rw [known_cons_none (by rw [hname]; exact hfield)]
          rw [hfield] at h
          exact ih h
      | some f =>
          rw [known_cons_some (by rw [hname]; exact hfield)]
          rw [hfield] at h
          dsimp only at h
          split at h
          · cases h
          · next hunseen =>
            obtain ⟨r₁, -, hrest⟩ := Option.bind_eq_some_iff.mp h
            obtain ⟨honce, hseen⟩ := ih hrest
            refine ⟨List.nodup_cons.mpr ⟨fun hf => ?_, honce⟩, fun p hp => ?_⟩
            · obtain ⟨p, hp, he⟩ := List.mem_map.mp hf
              exact hseen p hp (he ▸ List.mem_cons_self)
            · rcases List.mem_cons.mp hp with rfl | hp
              · simpa using hunseen
              · exact fun hmem => hseen p hp (List.mem_cons_of_mem _ hmem)

/-- **By name.** Let the names of the members of an object be texts, and let every known name occur
at most once, with a value of its type. Then the report has those values in their fields and the
defaults in the others. The same is read of every object that has the same members with known names
in any order, whatever other members it has. An object in which a known name occurs twice is no
report, whatever its names and values are. -/
theorem ofJson?_byName (before lead : Blanks) (members : List (Member Doc)) (after : Blanks) :
    ((∀ m ∈ members, m.name.text?.isSome) → ((known members).map Prod.fst).Nodup →
      (∀ p ∈ known members, p.1.takes p.2) →
      ofJson? (Doc.text before (.object lead members) after) =
        .ok (filled {} fun f => (known members).lookup f) ∧
      ∀ before' lead' members' after', (∀ m ∈ members', m.name.text?.isSome) →
        (known members').Perm (known members) →
        ofJson? (Doc.text before' (.object lead' members') after') =
          ofJson? (Doc.text before (.object lead members) after)) ∧
    (¬ ((known members).map Prod.fst).Nodup →
      ∃ fault, ofJson? (Doc.text before (.object lead members) after) = .error fault) := by
  constructor
  · intro hnames honce htyped
    have hread := (ofJson?_object before lead members after).1
      _ (gather_eq_filled hnames honce (by simp) htyped)
    refine ⟨hread, fun before' lead' members' after' hnames' hperm => ?_⟩
    have honce' : ((known members').map Prod.fst).Nodup := (hperm.map Prod.fst).nodup_iff.mpr honce
    have htyped' : ∀ p ∈ known members', p.1.takes p.2 := fun p hp => htyped p (hperm.mem_iff.mp hp)
    have hread' := (ofJson?_object before' lead' members' after').1 _
      (gather_eq_filled hnames' honce' (by simp) htyped')
    have hsame : (fun f => (known members').lookup f) = fun f => (known members).lookup f :=
      funext (lookup_perm hperm honce')
    rw [hread', hread, hsame]
  · intro htwice
    refine (ofJson?_object before lead members after).2 ?_
    cases hgather : gather [] {} members with
    | none => rfl
    | some r => exact absurd (nodup_of_gather hgather).1 htwice

/-- The last hexadecimal digit of a number, written as a small letter if it is one. -/
def smallDigit (n : Nat) : HexDigit := ⟨⟨n % 16, Nat.mod_lt n (by decide)⟩, false⟩

def unitOf (a b c d : Nat) : Piece :=
  .unit ⟨smallDigit a, smallDigit b, smallDigit c, smallDigit d⟩

/-- A name that is half of a surrogate pair. -/
def unpairedName : Literal := [unitOf 0xD 8 0 0]

def sourcesMember : Member Doc :=
  ⟨[], .ofText "sources", [], [], .list [] [⟨[], .string (.ofText "b.fs"), []⟩], []⟩

/-- The target, with its name on a new line and the first letter of it as an escape. -/
def targetMember : Member Doc :=
  ⟨[.lineFeed], unitOf 0 0 7 4 :: Literal.ofText "arget", [], [],
    .string (.ofText "a.dll"), []⟩

/-- A member with a name that no field has. -/
def otherMember : Member Doc :=
  ⟨[], .ofText "x", [], [.tab], .object [] [⟨[], unpairedName, [], [], .null, []⟩], []⟩

theorem ofJson?_byName_reordered :
    ofJson? (Doc.text [] (.object [] [sourcesMember, targetMember]) []) =
        .ok { sources := [⟨"b.fs"⟩], target := some ⟨"a.dll"⟩ } ∧
      ofJson? (Doc.text []
          (.object [.space] [targetMember, otherMember, sourcesMember]) [.space]) =
        .ok { sources := [⟨"b.fs"⟩], target := some ⟨"a.dll"⟩ } ∧
      ∃ fault, ofJson? (Doc.text [] (.object [] [targetMember, targetMember]) []) =
        .error fault := by
  obtain ⟨hread, hsame⟩ :=
    (ofJson?_byName [] [] [sourcesMember, targetMember] []).1 (by decide) (by decide) (by decide)
  have hvalue : filled {} (fun f => (known [sourcesMember, targetMember]).lookup f) =
      { sources := [⟨"b.fs"⟩], target := some ⟨"a.dll"⟩ } := by decide
  have hother := hsame [] [.space] [targetMember, otherMember, sourcesMember] [.space]
    (by decide) (List.Perm.swap _ _ [])
  rw [hread, hvalue] at hother
  rw [hvalue] at hread
  exact ⟨hread, hother, (ofJson?_byName [] [] [targetMember, targetMember] []).2 (by decide)⟩

/-- A name with half of a surrogate pair is no text, and an object with it is no report. -/
theorem ofJson?_unpairedName :
    ∃ members, Doc.text [] (.object [] members) [] = Utf8.encode "\x7b\"\\ud800\":0\x7d" ∧
      known members = [] ∧
      ∃ fault, ofJson? (Doc.text [] (.object [] members) []) = .error fault := by
  let zero : Doc := .number ⟨false, ⟨0, []⟩, none, none, fun _ => rfl⟩
  refine ⟨[⟨[], unpairedName, [], [], zero, []⟩], by decide, by decide, ?_⟩
  exact (ofJson?_object [] [] _ []).2 (by decide)

end

end FSharpWorkspace.CrackReport
