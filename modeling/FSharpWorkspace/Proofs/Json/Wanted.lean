import FSharpWorkspace.Proofs.Json.Skipping
/-!
# Reading values that are wanted

A reader of a wanted value takes a value of its type for what it is and stops at any other
(`Reads`). That holds of the reader of strings, and with a reader of other values it holds of the
readers of optional values and of lists of them.
-/

set_option autoImplicit false

namespace FSharpWorkspace.Json

/-! ## What a value is -/

namespace Doc

variable {α : Type}

def text? : Doc → Option String
  | .string s => s.text?
  | _ => none

/-- A value, or nothing for `null`. -/
def optional? (value? : Doc → Option α) : Doc → Option (Option α)
  | .null => some none
  | d => (value? d).map some

def list? (value? : Doc → Option α) : Doc → Option (List α)
  | .list _ items => items.mapM fun item => value? item.value
  | _ => none

/-- What a value starts with tells whether it is a string, `null` or a list. -/
theorem of_bytes {d : Doc} {b : UInt8} {more : List UInt8} (h : d.bytes = b :: more) :
    (b = 0x22 → ∃ s, d = .string s) ∧ (b = 0x6E → d = .null) ∧
      (b = 0x5B → ∃ lead items, d = .list lead items) := by
  cases d with
  | null | string | list | object =>
      cases h
      simp
  | flag flag =>
      cases flag <;> cases h <;> simp
  | number n =>
      rw [Doc.bytes, Numeral.bytes] at h
      split at h
      · cases h
        simp
      · cases h
        have hdigit : ∀ d, digitByte d ≠ 0x22 ∧ digitByte d ≠ 0x6E ∧ digitByte d ≠ 0x5B := by decide
        obtain ⟨hquote, hn, hbracket⟩ := hdigit n.whole.first
        exact ⟨fun h => absurd h hquote, fun h => absurd h hn, fun h => absurd h hbracket⟩

end Doc

namespace Reader

section

variable {α β : Type} {x : Reader α} {value? : Doc → Option α}

/-- The reader takes a value for what it is, or stops at it. -/
def Reads (x : Reader α) (value? : Doc → Option α) : Prop :=
  ∀ (d : Doc) (gap : Blanks) {rest : List UInt8}, Ends rest →
    Yields (x (gap.bytes ++ (d.bytes ++ rest))) (value? d) rest

theorem yields_map {bytes rest : List UInt8} {a? : Option α} (h : Yields (x bytes) a? rest)
    (f : α → β) :
    Yields ((x >>= fun a => pure (f a)) bytes) (a?.map f) rest := by
  rw [Option.map_eq_bind]
  exact yields_bind h fun a _ => rfl

theorem Reads.map (h : Reads x value?) (f : α → β) :
    Reads (x >>= fun a => pure (f a)) (fun d => (value? d).map f) :=
  fun d gap _ hrest => yields_map (h d gap hrest) f

/-! ## Readers that stop -/

/-- The reader stops at whatever it is given. -/
def Stops (x : Reader α) : Prop := ∀ bytes, ∃ fault, x bytes = .error fault

theorem stops_fail (cause : Cause) : Stops (fail cause : Reader α) := fun _ => ⟨_, rfl⟩

theorem stops_failAfterNext (cause : Cause) : Stops (failAfterNext cause : Reader α) :=
  fun _ => ⟨_, rfl⟩

theorem Stops.after {f : α → Reader β} (h : ∀ a, Stops (f a)) (x : Reader α) : Stops (x >>= f) := by
  intro bytes
  cases hx : x bytes with
  | error fault => exact ⟨fault, bind_of_error hx⟩
  | ok p =>
      rw [bind_of_ok (show x bytes = .ok (p.1, p.2) from hx)]
      exact h p.1 p.2

theorem Stops.before (h : Stops x) (f : α → Reader β) : Stops (x >>= f) := fun bytes =>
  (h bytes).imp fun _ hfault => bind_of_error hfault

/-- Where a value of another type was wanted, reading stops. -/
theorem stops_wrongType (expected : String) : Stops (wrongType expected : Reader α) := by
  refine Stops.after (fun c => ?_) peek
  split
  -- a word, a negative number or a string is read first, a list or an object is not
  iterate 5 exact Stops.after (fun _ => Stops.after (fun _ => stops_fail _) _) _
  iterate 2 exact stops_fail _
  · split
    · exact Stops.after (fun _ => stops_fail _) _
    · exact stops_failAfterNext _
  · exact stops_failAfterNext _

/-! ## Strings, optional values and lists -/

theorem stringValue_other (expected : String) {b : UInt8} (hb : b ∈ openings) (hne : b ≠ 0x22)
    (rest : List UInt8) :
    stringValue expected (b :: rest) = wrongType expected (b :: rest) := by
  unfold openings at hb
  fin_cases hb
  all_goals first | rfl | exact absurd rfl hne

theorem reads_stringValue (expected : String) : Reads (stringValue expected) Doc.text? := by
  intro d gap rest hrest
  have hgap : stringValue expected (gap.bytes ++ (d.bytes ++ rest)) =
      stringValue expected (d.bytes ++ rest) :=
    peekToken_bind_gap _ gap _
  rw [hgap]
  by_cases hstring : ∃ s, d = .string s
  · obtain ⟨s, rfl⟩ := hstring
    rw [Doc.bytes, literal_append]
    exact yields_string s rest
  · obtain ⟨b, more, hbytes, hb⟩ := d.exists_opening
    have hne : b ≠ 0x22 := fun h => hstring ((Doc.of_bytes hbytes).1 h)
    have hnone : d.text? = none := by
      cases d with
      | string s => exact absurd ⟨s, rfl⟩ hstring
      | null | flag | number | list | object => rfl
    rw [hbytes, List.cons_append, stringValue_other expected hb hne, hnone]
    exact stops_wrongType expected _

theorem optional_other {b : UInt8} (hb : b ∈ openings) (hne : b ≠ 0x6E) (rest : List UInt8) :
    optional x (b :: rest) = (x >>= fun a => pure (some a)) (b :: rest) := by
  unfold openings at hb
  fin_cases hb
  all_goals first | rfl | exact absurd rfl hne

theorem Reads.optional (h : Reads x value?) : Reads (optional x) (Doc.optional? value?) := by
  intro d gap rest hrest
  have hgap : Reader.optional x (gap.bytes ++ (d.bytes ++ rest)) =
      Reader.optional x (d.bytes ++ rest) :=
    peekToken_bind_gap _ gap _
  rw [hgap]
  by_cases hnull : d = .null
  · subst hnull
    rfl
  · obtain ⟨b, more, hbytes, hb⟩ := d.exists_opening
    have hne : b ≠ 0x6E := fun h => hnull ((Doc.of_bytes hbytes).2.1 h)
    have hsome : Doc.optional? value? d = (value? d).map some := by
      cases d with
      | null => exact absurd rfl hnull
      | string | flag | number | list | object => rfl
    have hread := yields_map (h d [] hrest) some
    rw [hsome]
    rw [hbytes] at hread ⊢
    exact (optional_other hb hne _) ▸ hread

/-! ### Elements -/

theorem peekToken_token (gap : Blanks) {b : UInt8} (hb : isBlank b = false) (rest : List UInt8) :
    peekToken (gap.bytes ++ b :: rest) = .ok (some (Char.ofNat b.toNat), b :: rest) :=
  peekToken_gap gap fun b' hb' => by
    cases hb'
    exact hb

theorem isBlank_of_mem_openings {b : UInt8} (hb : b ∈ openings) : isBlank b = false := by
  have hall : openings.all (fun b => isBlank b = false) = true := by decide
  exact of_decide_eq_true (List.all_eq_true.mp hall b hb)

theorem hasElement_end (first : Bool) (gap : Blanks) (rest : List UInt8) :
    hasElement first (gap.bytes ++ 0x5D :: rest) = .ok (false, 0x5D :: rest) :=
  (peekToken_bind_gap _ gap _).trans rfl

theorem hasElement_item (first : Bool) (gap before : Blanks) {b : UInt8} (hb : b ∈ openings)
    (rest : List UInt8) :
    hasElement first (gap.bytes ++ (comma first ++ (before.bytes ++ b :: rest))) =
      .ok (true, b :: rest) := by
  cases first with
  | true =>
      rw [comma, if_pos rfl, List.nil_append, gap_append]
      refine (peekToken_bind_gap _ (gap ++ before) _).trans ?_
      unfold openings at hb
      fin_cases hb <;> rfl
  | false =>
      have hcomma : peekToken (gap.bytes ++ (comma false ++ (before.bytes ++ b :: rest))) =
          .ok (some ',', 0x2C :: (before.bytes ++ b :: rest)) := peekToken_token gap rfl _
      unfold hasElement
      rw [bind_of_ok hcomma]
      simp only [Char.reduceEq, imp_self, ↓reduceIte, Bool.false_eq_true]
      rw [bind_of_ok (skip_cons _ _),
        bind_of_ok (peekToken_token before (isBlank_of_mem_openings hb) rest)]
      unfold openings at hb
      fin_cases hb <;> rfl

theorem mapM_cons_append (f : β → Option α) (done : List α) (y : β) (ys : List β) :
    ((y :: ys).mapM f).map (done ++ ·) = (f y).bind fun a =>
      (ys.mapM f).map (done ++ [a] ++ ·) := by
  rw [List.mapM_cons]
  cases f y with
  | none => rfl
  | some a => cases ys.mapM f <;> simp

/-- The elements of a list behind those that were read. -/
theorem Reads.elements (h : Reads x value?) (items : List (Item Doc)) {rounds : Nat}
    (hrounds : items.length < rounds) (done : List α) (gap : Blanks) (rest : List UInt8) :
    Yields (elements x rounds done (gap.bytes ++ (itemsBytes done.isEmpty items ++ 0x5D :: rest)))
      ((items.mapM fun item => value? item.value).map (done ++ ·)) (0x5D :: rest) := by
  induction items generalizing rounds done gap with
  | nil =>
      obtain ⟨r, rfl⟩ := Nat.exists_eq_add_of_lt hrounds
      have hdone : Reader.elements x (r + 1) done (gap.bytes ++ 0x5D :: rest) =
          .ok (done ++ [], 0x5D :: rest) := by
        rw [Reader.elements, bind_of_ok (hasElement_end done.isEmpty gap rest), List.append_nil]
        rfl
      simpa [Yields, itemsBytes] using hdone
  | cons item items ih =>
      obtain ⟨r, rfl⟩ := Nat.exists_eq_add_of_lt hrounds
      obtain ⟨before, value, after⟩ := item
      obtain ⟨b, more, hopening, hb⟩ := value.exists_opening
      have hends := ends_gap after (ends_items items rest)
      have hvalue := h value [] hends
      rw [hopening] at hvalue
      rw [mapM_cons_append, itemsBytes_cons, hopening, List.cons_append, Reader.elements,
        bind_of_ok (hasElement_item done.isEmpty gap before hb _)]
      refine yields_bind hvalue fun a _ => ?_
      have hlength : items.length < items.length + 1 + r := by omega
      have hrest := ih hlength (done ++ [a]) after
      have hlater : (done ++ [a]).isEmpty = false := by simp
      rw [hlater] at hrest
      exact hrest

theorem length_le_itemsBytes (first : Bool) (items : List (Item Doc)) :
    items.length ≤ (itemsBytes first items).length := by
  induction items generalizing first with
  | nil => exact Nat.zero_le _
  | cons item items ih =>
      obtain ⟨b, more, hopening, -⟩ := item.value.exists_opening
      have hrest := ih false
      simp only [itemsBytes, hopening, List.length_append, List.length_cons]
      omega

theorem list_other {b : UInt8} (hb : b ∈ openings) (hne : b ≠ 0x5B) (rest : List UInt8) :
    Reader.list x (b :: rest) = wrongType "a sequence" (b :: rest) := by
  unfold openings at hb
  fin_cases hb
  all_goals first | rfl | exact absurd rfl hne

theorem Reads.list (h : Reads x value?) : Reads (list x) (Doc.list? value?) := by
  intro d gap rest hrest
  have hgap : Reader.list x (gap.bytes ++ (d.bytes ++ rest)) = Reader.list x (d.bytes ++ rest) :=
    peekToken_bind_gap _ gap _
  rw [hgap]
  by_cases hlist : ∃ lead items, d = .list lead items
  · obtain ⟨lead, items, rfl⟩ := hlist
    have hstep (tail : List UInt8) : Reader.list x (0x5B :: tail) =
      (Reader.elements x (tail.length + 1) [] >>= fun values => listEnd >>=
          fun _ => pure values) tail :=
        rfl
    have hrounds :
        items.length < (lead.bytes ++ (itemsBytes true items ++ 0x5D :: rest)).length + 1 := by
      have hlength := length_le_itemsBytes true items
      rw [List.length_append, List.length_append]
      omega
    have helements := h.elements items hrounds [] lead rest
    have hspec : Doc.list? value? (.list lead items) =
        ((items.mapM fun item => value? item.value).map ([] ++ ·)).bind some := by
      simp [Doc.list?]
    rw [list_append, hstep, hspec]
    exact yields_bind helements fun values _ => rfl
  · -- the first byte tells the other values from a list
    obtain ⟨b, more, hbytes, hb⟩ := d.exists_opening
    have hne : b ≠ 0x5B := fun h => hlist ((Doc.of_bytes hbytes).2.2 h)
    have hnone : Doc.list? value? d = none := by
      cases d with
      | list lead items => exact absurd ⟨lead, items, rfl⟩ hlist
      | null | flag | number | string | object => rfl
    rw [hbytes, List.cons_append, list_other hb hne, hnone]
    exact stops_wrongType "a sequence" _

/-- A name that occurs again stops the reader. -/
theorem stops_repeated (name : String) : Stops (repeated name : Reader α) := by
  refine Stops.after (fun c => ?_) peekToken
  split
  · exact Stops.after (fun _ => stops_fail _) skip
  · exact stops_fail _

end

end Reader

end FSharpWorkspace.Json
