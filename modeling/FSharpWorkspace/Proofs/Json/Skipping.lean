import FSharpWorkspace.Proofs.Json.Strings
import Mathlib.Data.Fintype.Basic
import Mathlib.Tactic.FinCases
/-!
# Passing values

A value of the grammar that is not wanted is passed, whatever it is: it may nest to any depth, and
its strings and numbers may be of any kind (`skipValue_doc`). The reader keeps a stack of open
frames instead of nesting its own calls, so the invariant is about the stack: a value is passed in
as many rounds as it has values in it (`Doc.starts`), and after it the reader closes frames as after
any part (`skipParts_doc`).
-/

set_option autoImplicit false

namespace FSharpWorkspace.Json

/-! ## Parts and what is written behind them -/

theorem gap_append (gap before : Blanks) (rest : List UInt8) :
    gap.bytes ++ (before.bytes ++ rest) = Blanks.bytes (gap ++ before) ++ rest := by
  rw [Blanks.bytes, Blanks.bytes, Blanks.bytes, List.map_append, List.append_assoc]

theorem literal_append (s : Literal) (rest : List UInt8) :
    s.bytes ++ rest = 0x22 :: (s.inner ++ 0x22 :: rest) := by
  rw [Literal.bytes, List.cons_append, List.append_assoc]
  rfl

theorem list_append (lead : Blanks) (items : List (Item Doc)) (rest : List UInt8) :
    (Doc.list lead items).bytes ++ rest = 0x5B ::
      (lead.bytes ++ (itemsBytes true items ++ 0x5D :: rest)) := by
  simp [Doc.bytes]

theorem object_append (lead : Blanks) (members : List (Member Doc)) (rest : List UInt8) :
    (Doc.object lead members).bytes ++ rest = 0x7B ::
      (lead.bytes ++ (membersBytes true members ++ 0x7D :: rest)) := by
  simp [Doc.bytes]

theorem itemsBytes_cons (first : Bool) (item : Item Doc) (items : List (Item Doc))
    (rest : List UInt8) :
    itemsBytes first (item :: items) ++ rest =
      comma first ++ (item.before.bytes ++ (item.value.bytes ++
      (item.after.bytes ++ (itemsBytes false items ++ rest)))) := by
  simp [itemsBytes]

theorem membersBytes_cons (first : Bool) (m : Member Doc) (members : List (Member Doc))
    (rest : List UInt8) :
    membersBytes first (m :: members) ++ rest = comma first ++ (m.before.bytes ++ (m.name.bytes ++
      (m.afterName.bytes ++ 0x3A :: (m.beforeValue.bytes ++ (m.value.bytes ++
        (m.after.bytes ++ (membersBytes false members ++ rest))))))) := by
  simp [membersBytes]

/-! ## What stands behind a value -/

/-- The bytes that may stand right behind a value: blanks, the comma and the closing brackets. -/
def delimiters : List UInt8 := [0x20, 0x09, 0x0A, 0x0D, 0x2C, 0x5D, 0x7D]

/-- A value may end here. -/
def Ends (rest : List UInt8) : Prop := ∀ b ∈ rest.head?, b ∈ delimiters

theorem ends_cons {b : UInt8} (h : b ∈ delimiters) (rest : List UInt8) : Ends (b :: rest) := by
  intro b' hb'
  cases hb'
  exact h

theorem ends_gap (gap : Blanks) {rest : List UInt8} (h : Ends rest) : Ends (gap.bytes ++ rest) := by
  cases gap with
  | nil => exact h
  | cons blank gap => exact ends_cons (by cases blank <;> decide) _

theorem ends_items (items : List (Item Doc)) (rest : List UInt8) :
    Ends (itemsBytes false items ++ 0x5D :: rest) := by
  cases items with
  | nil => exact ends_cons (by decide) rest
  | cons item items => exact ends_cons (by decide) _

theorem ends_members (members : List (Member Doc)) (rest : List UInt8) :
    Ends (membersBytes false members ++ 0x7D :: rest) := by
  cases members with
  | nil => exact ends_cons (by decide) rest
  | cons member members => exact ends_cons (by decide) _

def openings : List UInt8 :=
  [0x6E, 0x74, 0x66, 0x22, 0x5B, 0x7B, 0x2D, 0x30, 0x31, 0x32, 0x33, 0x34,
    0x35, 0x36, 0x37, 0x38, 0x39]

theorem digitByte_mem_openings (d : Fin 10) : digitByte d ∈ openings := by
  revert d
  decide

theorem Doc.exists_opening (d : Doc) : ∃ b more, d.bytes = b :: more ∧ b ∈ openings := by
  cases d with
  | null => exact ⟨_, _, by rw [Doc.bytes], by decide⟩
  | flag b => cases b <;> exact ⟨_, _, by rw [Doc.bytes], by decide⟩
  | number n =>
      rw [Doc.bytes, Numeral.bytes]
      split
      · exact ⟨_, _, rfl, by decide⟩
      · exact ⟨_, _, rfl, digitByte_mem_openings n.whole.first⟩
  | string s => exact ⟨_, _, by rw [Doc.bytes, Literal.bytes], by decide⟩
  | list | object => exact ⟨_, _, by rw [Doc.bytes], by decide⟩

namespace Reader

section

variable {α : Type}

/-- Blanks before a token make no difference. -/
theorem peekToken_bind_gap (f : Option Char → Reader α) (gap : Blanks) (rest : List UInt8) :
    (peekToken >>= f) (gap.bytes ++ rest) = (peekToken >>= f) rest := by
  have hdrop : (gap.bytes ++ rest).dropWhile isBlank = rest.dropWhile isBlank :=
    List.dropWhile_append_of_pos fun b hb => isBlank_of_mem_gap hb
  have hpeek : peekToken (gap.bytes ++ rest) = peekToken rest := by
    show Except.ok (((gap.bytes ++ rest).dropWhile isBlank).head?.map _,
      (gap.bytes ++ rest).dropWhile isBlank) = _
    rw [hdrop]
    rfl
  show peekToken (gap.bytes ++ rest) >>= (fun p => f p.1 p.2) =
    peekToken rest >>= fun p => f p.1 p.2
  rw [hpeek]

end

/-! ## Numbers -/

def NoDigit (rest : List UInt8) : Prop := ∀ b ∈ rest.head?, isDigit b = false

theorem noDigit_of_ends {rest : List UInt8} (h : Ends rest) : NoDigit rest := by
  have hall : delimiters.all (fun b => isDigit b = false) = true := by decide
  exact fun b hb => of_decide_eq_true (List.all_eq_true.mp hall b (h b hb))

theorem noDigit_cons {b : UInt8} (h : isDigit b = false) (rest : List UInt8) :
    NoDigit (b :: rest) := by
  intro b' hb'
  cases hb'
  exact h

theorem isDigit_digitByte (d : Fin 10) : isDigit (digitByte d) = true := by
  revert d
  decide

theorem seen_digitByte (d : Fin 10) : (Char.ofNat (digitByte d).toNat).isDigit = true ∧
    (d ≠ 0 → Char.ofNat (digitByte d).toNat ≠ '0') := by
  revert d
  decide

theorem digits_append (ds : List (Fin 10)) {rest : List UInt8} (h : NoDigit rest) :
    digits (ds.map digitByte ++ rest) = .ok ((ds.map digitByte).map (·.toNat - 0x30), rest) := by
  have hdigits : ∀ b ∈ ds.map digitByte, isDigit b = true := by
    intro b hb
    obtain ⟨d, -, rfl⟩ := List.mem_map.mp hb
    exact isDigit_digitByte d
  unfold digits
  rw [bind_of_ok (takeWhile_append hdigits h)]
  rfl

theorem skipExponent_digit (b : UInt8) (d : Fin 10) (rest : List UInt8) :
    skipExponent (b :: digitByte d :: rest) = (discard digits : Reader Unit) rest := by
  fin_cases d <;> rfl

theorem skipExponent_sign (b : UInt8) (minus : Bool) (d : Fin 10) (rest : List UInt8) :
    skipExponent (b :: (if minus then 0x2D else 0x2B) :: digitByte d :: rest) =
      (discard digits : Reader Unit) rest := by
  cases minus <;> fin_cases d <;> rfl

theorem skipExponent_bytes (e : Exponent) {rest : List UInt8} (h : NoDigit rest) :
    skipExponent (e.bytes ++ rest) = .ok ((), rest) := by
  have hmore := discard_of_ok (digits_append e.digits.more h)
  obtain ⟨upper, sign, first, more⟩ := e
  cases sign with
  | none => exact (skipExponent_digit _ first _).trans hmore
  | some minus => exact (skipExponent_sign _ minus first _).trans hmore

/-- The bytes of an exponent, if there is one. -/
theorem skipOptionalExponent_bytes (e : Option Exponent) {rest : List UInt8} (h : Ends rest) :
    skipOptionalExponent ((e.map Exponent.bytes).getD [] ++ rest) = .ok ((), rest) := by
  cases e with
  | none =>
      cases rest with
      | nil => rfl
      | cons b more =>
          have hb : b ∈ delimiters := h b rfl
          unfold delimiters at hb
          fin_cases hb <;> rfl
  | some e =>
      have hexponent : skipOptionalExponent (e.bytes ++ rest) = skipExponent (e.bytes ++ rest) := by
        obtain ⟨upper, sign, digits⟩ := e
        cases upper <;> rfl
      exact hexponent.trans (skipExponent_bytes e (noDigit_of_ends h))

theorem noDigit_exponent (e : Option Exponent) {rest : List UInt8} (h : Ends rest) :
    NoDigit ((e.map Exponent.bytes).getD [] ++ rest) := by
  cases e with
  | none => exact noDigit_of_ends h
  | some e =>
      obtain ⟨upper, sign, digits⟩ := e
      cases upper <;> exact noDigit_cons rfl _

/-- The digits before the point are passed as a zero is. -/
theorem skipNumber_whole {whole : Digits} (hwhole : whole.first = 0 → whole.more = [])
    {rest : List UInt8} (h : NoDigit rest) :
    skipNumber (whole.bytes ++ rest) = skipNumber (0x30 :: rest) := by
  obtain ⟨first, more⟩ := whole
  by_cases hfirst : first = 0
  · have hmore : more = [] := hwhole hfirst
    subst hfirst hmore
    rfl
  · have hseen := (seen_digitByte first).1
    have hzero := (seen_digitByte first).2 hfirst
    have hdigits : digits ((digitByte first :: more.map digitByte) ++ rest) = .ok (_, rest) :=
      digits_append (first :: more) h
    have hhead : (rest.head?.map isDigit).getD false = false := by
      cases rest with
      | nil => rfl
      | cons b rest => exact h b rfl
    unfold skipNumber
    rw [Digits.bytes, List.cons_append, bind_of_ok (peek_cons _ _), bind_of_ok (peek_cons _ _)]
    dsimp only
    rw [if_neg (by simp [hseen]), if_neg hzero, if_neg (by decide), if_pos (by decide),
      bind_of_ok (skip_cons _ _)]
    refine (bind_of_ok (discard_of_ok hdigits)).trans ?_
    rw [bind_of_ok (rfl : (get : Reader (List UInt8)) rest = .ok (rest, rest)),
      bind_of_ok (rfl : (get : Reader (List UInt8)) rest = .ok (rest, rest)), hhead, Bool.and_false,
      Bool.and_false]

theorem skipNumber_fraction (e : Option Exponent) (ds : Digits) {rest : List UInt8}
    (h : Ends rest) :
    skipNumber (0x30 :: 0x2E :: (ds.bytes ++ ((e.map Exponent.bytes).getD [] ++ rest))) =
      .ok ((), rest) := by
  have hstep (tail : List UInt8) : skipNumber (0x30 :: 0x2E :: tail) =
    (digits >>= fun ds => if ds.isEmpty then failAfterNext .badNumber
        else skipOptionalExponent) tail :=
      rfl
  have hdigits : digits (ds.bytes ++ ((e.map Exponent.bytes).getD [] ++ rest)) = .ok (_, _) :=
    digits_append (ds.first :: ds.more) (noDigit_exponent e h)
  rw [hstep, bind_of_ok hdigits]
  exact skipOptionalExponent_bytes e h

theorem skipNumber_noFraction (e : Option Exponent) {rest : List UInt8} (h : Ends rest) :
    skipNumber (0x30 :: ((e.map Exponent.bytes).getD [] ++ rest)) = .ok ((), rest) := by
  have hoptional := skipOptionalExponent_bytes e h
  cases e with
  | none =>
      cases rest with
      | nil => rfl
      | cons b more =>
          have hb : b ∈ delimiters := h b rfl
          unfold delimiters at hb
          fin_cases hb <;> rfl
  | some e =>
      obtain ⟨upper, sign, digits⟩ := e
      refine Eq.trans ?_ hoptional
      cases upper <;> rfl

/-- A number behind its sign. -/
theorem skipNumber_unsigned (n : Numeral) {rest : List UInt8} (h : Ends rest) :
    skipNumber (n.unsigned ++ rest) = .ok ((), rest) := by
  rw [Numeral.unsigned, List.append_assoc, List.append_assoc]
  cases hfraction : n.fraction with
  | none =>
      show skipNumber (n.whole.bytes ++ ((n.exponent.map Exponent.bytes).getD [] ++ rest)) = _
      rw [skipNumber_whole n.unpadded (noDigit_exponent n.exponent h)]
      exact skipNumber_noFraction n.exponent h
  | some ds =>
      show skipNumber (n.whole.bytes ++
        (0x2E :: (ds.bytes ++ ((n.exponent.map Exponent.bytes).getD [] ++ rest)))) = _
      rw [skipNumber_whole n.unpadded (noDigit_cons rfl _)]
      exact skipNumber_fraction n.exponent ds h

end Reader

/-! ## Rounds -/

mutual

/-- How many values a value has in it, itself among them. -/
def Doc.starts : Doc → Nat
  | .null => 1
  | .flag _ => 1
  | .number _ => 1
  | .string _ => 1
  | .list _ items => itemsStarts items + 1
  | .object _ members => membersStarts members + 1

/-- How many values the elements of a list have in them. -/
def itemsStarts : List (Item Doc) → Nat
  | [] => 0
  | ⟨_, value, _⟩ :: rest => value.starts + itemsStarts rest

/-- How many values the members of an object have in them. -/
def membersStarts : List (Member Doc) → Nat
  | [] => 0
  | ⟨_, _, _, _, value, _⟩ :: rest => value.starts + membersStarts rest

end

mutual

/-- Every value in a value takes a byte. -/
theorem Doc.starts_le_length : ∀ d : Doc, d.starts ≤ d.bytes.length
  | .null => by simp [Doc.starts, Doc.bytes]
  | .flag true => by simp [Doc.starts, Doc.bytes]
  | .flag false => by simp [Doc.starts, Doc.bytes]
  | .number n => by
      obtain ⟨b, more, hbytes, -⟩ := Doc.exists_opening (.number n)
      simp [Doc.starts, hbytes]
  | .string s => by simp [Doc.starts, Doc.bytes, Literal.bytes]
  | .list lead items => by
      have hitems := itemsStarts_le_length true items
      simp only [Doc.starts, Doc.bytes, List.length_cons, List.length_append]
      omega
  | .object lead members => by
      have hmembers := membersStarts_le_length true members
      simp only [Doc.starts, Doc.bytes, List.length_cons, List.length_append]
      omega

theorem itemsStarts_le_length (first : Bool) : ∀ items : List (Item Doc),
    itemsStarts items ≤ (itemsBytes first items).length
  | [] => Nat.zero_le _
  | ⟨_, value, _⟩ :: rest => by
      have hvalue := value.starts_le_length
      have hrest := itemsStarts_le_length false rest
      simp only [itemsStarts, itemsBytes, List.length_append]
      omega

theorem membersStarts_le_length (first : Bool) : ∀ members : List (Member Doc),
    membersStarts members ≤ (membersBytes first members).length
  | [] => Nat.zero_le _
  | ⟨_, _, _, _, value, _⟩ :: rest => by
      have hvalue := value.starts_le_length
      have hrest := membersStarts_le_length false rest
      simp only [membersStarts, membersBytes, List.length_append, List.length_cons]
      omega

end

namespace Reader

/-! ## Frames -/

/-- Goes on with the innermost open frame. -/
def resume (rounds : Nat) : List Frame → Reader Unit
  | [] => pure ()
  | .list :: outer => skipParts rounds (.list :: outer)
  | .object :: outer => skipKey >>= fun _ => skipParts rounds (.object :: outer)

section

variable {frames : List Frame} {bytes rest : List UInt8} (rounds : Nat)

/-- A round passes the start of a value. A value with parts is then an open frame, and after one
without parts the frames that end here are closed. -/
theorem skipParts_start (frame? : Option Frame) (h : skipStart bytes = .ok (frame?, rest)) :
    skipParts (rounds + 1) frames bytes =
      (skipEnds frame?.isNone (frame?.toList ++ frames) >>= resume rounds) rest := by
  cases frame? with
  | none | some =>
      refine bind_congr (bind_of_ok h) fun frames rest => ?_
      cases frames with
      | nil => rfl
      | cons frame outer => cases frame <;> rfl

end

theorem skipEnds_comma (frame : Frame) (outer : List Frame) (gap : Blanks) (rest : List UInt8) :
    skipEnds true (frame :: outer) (gap.bytes ++ 0x2C :: rest) = .ok (frame :: outer, rest) := by
  refine (peekToken_bind_gap _ gap _).trans ?_
  cases frame <;> rfl

theorem skipEnds_closed (afterPart : Bool) (outer : List Frame) (gap : Blanks) (rest : List UInt8) :
    skipEnds afterPart (.list :: outer) (gap.bytes ++ 0x5D :: rest) = skipEnds true outer rest ∧
      skipEnds afterPart (.object :: outer) (gap.bytes ++ 0x7D :: rest) =
        skipEnds true outer rest := by
  constructor
  · refine (peekToken_bind_gap _ gap _).trans ?_
    cases afterPart <;> rfl
  · refine (peekToken_bind_gap _ gap _).trans ?_
    cases afterPart <;> rfl

/-- The next part of a list. Before the first part its blanks are passed as well. -/
theorem skipEnds_item (first : Bool) (outer : List Frame) (gap before : Blanks) (value : Doc)
    (rest : List UInt8) :
    ∃ left : Blanks,
      skipEnds (!first) (.list :: outer)
        (gap.bytes ++ (comma first ++ (before.bytes ++ (value.bytes ++ rest)))) =
        .ok (.list :: outer, left.bytes ++ (value.bytes ++ rest)) := by
  cases first with
  | true =>
      obtain ⟨b, more, hopening, hb⟩ := value.exists_opening
      refine ⟨[], ?_⟩
      rw [comma, if_pos rfl, List.nil_append, gap_append, hopening]
      refine (peekToken_bind_gap _ (gap ++ before) _).trans ?_
      unfold openings at hb
      fin_cases hb <;> rfl
  | false => exact ⟨before, skipEnds_comma .list outer gap _⟩

/-- The next part of an object. Before the first part its blanks are passed as well. -/
theorem skipEnds_member (first : Bool) (outer : List Frame) (gap before : Blanks) (name : Literal)
    (rest : List UInt8) :
    ∃ left : Blanks,
      skipEnds (!first) (.object :: outer)
        (gap.bytes ++ (comma first ++ (before.bytes ++ (name.bytes ++ rest)))) =
        .ok (.object :: outer, left.bytes ++ (name.bytes ++ rest)) := by
  cases first with
  | true =>
      refine ⟨[], ?_⟩
      rw [comma, if_pos rfl, List.nil_append, gap_append, literal_append]
      exact (peekToken_bind_gap _ (gap ++ before) _).trans rfl
  | false => exact ⟨before, skipEnds_comma .object outer gap _⟩

theorem colon_gap (gap : Blanks) (rest : List UInt8) :
    colon (gap.bytes ++ 0x3A :: rest) = .ok ((), rest) :=
  (peekToken_bind_gap _ gap _).trans rfl

/-- The name of a member and its colon. -/
theorem skipKey_member (before : Blanks) (name : Literal) (afterName : Blanks) (rest : List UInt8) :
    skipKey (before.bytes ++ (name.bytes ++ (afterName.bytes ++ 0x3A :: rest))) =
      .ok ((), rest) := by
  have hquote (tail : List UInt8) : skipKey (0x22 :: tail) = (skipString >>= fun _ => colon) tail :=
    rfl
  refine (peekToken_bind_gap _ before _).trans ?_
  rw [literal_append]
  refine (hquote _).trans ?_
  rw [bind_of_ok (skipString_inner name _), colon_gap]

/-! ## Values -/

theorem skipStart_gap (gap : Blanks) (rest : List UInt8) :
    skipStart (gap.bytes ++ rest) = skipStart rest :=
  peekToken_bind_gap _ gap rest

theorem skipStart_list (gap : Blanks) (rest : List UInt8) :
    skipStart (gap.bytes ++ 0x5B :: rest) = .ok (some .list, rest) :=
  (skipStart_gap gap _).trans rfl

theorem skipStart_object (gap : Blanks) (rest : List UInt8) :
    skipStart (gap.bytes ++ 0x7B :: rest) = .ok (some .object, rest) :=
  (skipStart_gap gap _).trans rfl

theorem skipStart_number (n : Numeral) {rest : List UInt8} (h : Ends rest) :
    skipStart (n.bytes ++ rest) = .ok (none, rest) := by
  have hnumber := skipNumber_unsigned n h
  rw [Numeral.bytes]
  split
  · have hminus (tail : List UInt8) : skipStart (0x2D :: tail) =
        (skipNumber >>= fun _ => pure none) tail :=
      rfl
    exact (hminus _).trans (bind_of_ok hnumber)
  · have hdigit (d : Fin 10) (tail : List UInt8) :
        skipStart (digitByte d :: tail) =
          (skipNumber >>= fun _ => pure none) (digitByte d :: tail) := by
      fin_cases d <;> rfl
    exact (hdigit n.whole.first _).trans (bind_of_ok hnumber)

theorem skipStart_string (s : Literal) (rest : List UInt8) :
    skipStart (s.bytes ++ rest) = .ok (none, rest) := by
  have hquote (tail : List UInt8) : skipStart (0x22 :: tail) =
      (skipString >>= fun _ => pure none) tail :=
    rfl
  rw [literal_append, hquote, bind_of_ok (skipString_inner s rest)]
  rfl

mutual

/-- A value is passed in as many rounds as it has values in it. -/
theorem skipParts_doc :
    ∀ (d : Doc) (gap : Blanks) (rounds : Nat) (frames : List Frame) {rest : List UInt8}, Ends rest →
    skipParts (d.starts + rounds) frames (gap.bytes ++ (d.bytes ++ rest)) =
      (skipEnds true frames >>= resume rounds) rest
  | .null, gap, rounds, frames, rest, _ => by
      rw [Doc.starts, Nat.add_comm]
      exact skipParts_start rounds none ((skipStart_gap gap _).trans rfl)
  | .flag b, gap, rounds, frames, rest, _ => by
      rw [Doc.starts, Nat.add_comm]
      refine skipParts_start rounds none ((skipStart_gap gap _).trans ?_)
      cases b <;> rfl
  | .number n, gap, rounds, frames, rest, h => by
      rw [Doc.starts, Nat.add_comm, Doc.bytes]
      exact skipParts_start rounds none ((skipStart_gap gap _).trans (skipStart_number n h))
  | .string s, gap, rounds, frames, rest, _ => by
      rw [Doc.starts, Nat.add_comm, Doc.bytes]
      exact skipParts_start rounds none ((skipStart_gap gap _).trans (skipStart_string s rest))
  | .list lead items, gap, rounds, frames, rest, _ => by
      rw [Doc.starts, Nat.add_right_comm, list_append, skipParts_start _ _ (skipStart_list gap _)]
      exact skipParts_items items true lead rounds frames rest
  | .object lead members, gap, rounds, frames, rest, _ => by
      rw [Doc.starts, Nat.add_right_comm, object_append,
        skipParts_start _ _ (skipStart_object gap _)]
      exact skipParts_members members true lead rounds frames rest

/-- The rest of a list. -/
theorem skipParts_items :
    ∀ (items : List (Item Doc)) (first : Bool) (gap : Blanks) (rounds : Nat) (outer : List Frame)
    (rest : List UInt8),
      (skipEnds (!first) (.list :: outer) >>= resume (itemsStarts items + rounds))
      (gap.bytes ++ (itemsBytes first items ++ 0x5D :: rest)) =
        (skipEnds true outer >>= resume rounds) rest
  | [], first, gap, rounds, outer, rest => by
      rw [itemsStarts, Nat.zero_add, itemsBytes]
      exact bind_congr (skipEnds_closed (!first) outer gap rest).1 fun _ _ => rfl
  | ⟨before, value, after⟩ :: items, first, gap, rounds, outer, rest => by
      obtain ⟨left, hends⟩ := skipEnds_item first outer gap before value
        (after.bytes ++ (itemsBytes false items ++ 0x5D :: rest))
      have hvalue := skipParts_doc value left (itemsStarts items + rounds) (.list :: outer)
        (ends_gap after (ends_items items rest))
      have hitems := skipParts_items items false after rounds outer rest
      rw [itemsStarts, itemsBytes_cons, bind_of_ok hends, Nat.add_assoc]
      exact hvalue.trans hitems

/-- The rest of an object. -/
theorem skipParts_members :
    ∀ (members : List (Member Doc)) (first : Bool) (gap : Blanks) (rounds : Nat)
    (outer : List Frame) (rest : List UInt8),
    (skipEnds (!first) (.object :: outer) >>= resume (membersStarts members + rounds))
      (gap.bytes ++ (membersBytes first members ++ 0x7D :: rest)) =
        (skipEnds true outer >>= resume rounds) rest
  | [], first, gap, rounds, outer, rest => by
      rw [membersStarts, Nat.zero_add, membersBytes]
      exact bind_congr (skipEnds_closed (!first) outer gap rest).2 fun _ _ => rfl
  | ⟨before, name, afterName, beforeValue, value, after⟩ :: members, first, gap,
      rounds, outer, rest => by
      obtain ⟨left, hends⟩ :=
        skipEnds_member first outer gap before name (afterName.bytes ++ 0x3A ::
        (beforeValue.bytes ++
          (value.bytes ++ (after.bytes ++ (membersBytes false members ++ 0x7D :: rest)))))
      have hvalue :=
        skipParts_doc value beforeValue (membersStarts members + rounds) (.object :: outer)
        (ends_gap after (ends_members members rest))
      have hmembers := skipParts_members members false after rounds outer rest
      rw [membersStarts, membersBytes_cons, bind_of_ok hends, Nat.add_assoc]
      exact (bind_of_ok (skipKey_member left name afterName _)).trans (hvalue.trans hmembers)

end

/-- **Skipping.** A value of the grammar that is not wanted is passed with the blanks before it. -/
theorem skipValue_doc (d : Doc) (gap : Blanks) {rest : List UInt8} (h : Ends rest) :
    skipValue (gap.bytes ++ (d.bytes ++ rest)) = .ok ((), rest) := by
  have hstarts := d.starts_le_length
  have hrounds : (gap.bytes ++ (d.bytes ++ rest)).length + 1 =
      d.starts + ((gap.bytes ++ (d.bytes ++ rest)).length + 1 - d.starts) := by
    rw [List.length_append, List.length_append]
    omega
  have hdoc := skipParts_doc d gap ((gap.bytes ++ (d.bytes ++ rest)).length + 1 - d.starts) [] h
  rw [← hrounds] at hdoc
  exact hdoc

end Reader

end FSharpWorkspace.Json
