import FSharpWorkspace.Json.Reader
import FSharpWorkspace.Proofs.Json.Grammar
import FSharpWorkspace.Proofs.Text.Utf8
/-!
# Reading strings

What a reader makes of bytes is told by `Yields`: it returns a value and stands right behind the
bytes, or without a value it stops at a fault. This follows the steps of a reader (`yields_bind`).

Every text can be written as a string (`Literal.text?_ofText`). A string that is wanted is read as
its text, and stops the reader if it has none (`yields_string`). A string that is not wanted is
passed whatever its units are (`skipString_inner`).
-/

set_option autoImplicit false

namespace FSharpWorkspace.Json

/-! ## Texts as strings -/

namespace Literal

theorem chars?_unit {u : Unit16} (h : u.value < 0xD800 ∨ 0xDFFF < u.value) (rest : Literal) :
    chars? (.unit u :: rest) = (chars? rest).map (Char.ofNat u.value :: ·) := by
  have hhalf : ¬ (0xD800 ≤ u.value ∧ u.value ≤ 0xDFFF) := by omega
  have hleading : ¬ (0xD800 ≤ u.value ∧ u.value ≤ 0xDBFF) := by omega
  have htrailing : ¬ (0xDC00 ≤ u.value ∧ u.value ≤ 0xDFFF) := by omega
  cases rest with
  | nil => exact if_neg hhalf
  | cons p rest =>
      cases p with
      | plain | escape => exact if_neg hhalf
      | unit v => exact (if_neg hleading).trans (if_neg htrailing)

theorem chars?_ofChar (c : Char) (rest : Literal) :
    chars? (.ofChar c :: rest) = (chars? rest).map (c :: ·) := by
  unfold Piece.ofChar
  split
  · rfl
  split
  · next h =>
    subst h
    rfl
  split
  · next h =>
    subst h
    rfl
  · next hplain hquote hslash =>
    have hsmall : c.toNat < 0x20 := by
      by_contra hc
      exact hplain ⟨by omega, hquote, hslash⟩
    have hvalue : Unit16.value ⟨⟨0, false⟩, ⟨0, false⟩, ⟨Fin.ofNat 16 (c.toNat / 16), false⟩,
        ⟨Fin.ofNat 16 c.toNat, false⟩⟩ = c.toNat := by
      simp [Unit16.value, Unit16.digits]
      omega
    rw [chars?_unit (by omega), hvalue, Char.ofNat_toNat]

/-- A text that is written character by character is read as this text. -/
theorem text?_map {written : Char → Piece}
    (h : ∀ c rest, chars? (written c :: rest) = (chars? rest).map (c :: ·)) (text : String) :
    Literal.text? (text.toList.map written) = some text := by
  have hchars : chars? (text.toList.map written) = some text.toList := by
    induction text.toList with
    | nil => rfl
    | cons c cs ih => rw [List.map_cons, h, ih, Option.map_some]
  rw [text?, hchars, Option.map_some, String.ofList_toList]

/-- Every text can be written as a string. -/
theorem text?_ofText (text : String) : (ofText text).text? = some text :=
  text?_map chars?_ofChar text

end Literal

/-! ## What readers yield -/

section

variable {α β : Type}

/-- A reader returns the value and leaves `rest`, or, without a value, stops at a fault. -/
def Yields (result : Except Fault (α × List UInt8)) (value : Option α) (rest : List UInt8) : Prop :=
  match value with
  | some a => result = .ok (a, rest)
  | none => ∃ fault, result = .error fault

namespace Reader

variable {x : Reader α} {f : α → Reader β} {bytes mid rest : List UInt8} {a : α}

theorem bind_of_ok (h : x bytes = .ok (a, mid)) : (x >>= f) bytes = f a mid := by
  show x bytes >>= (fun p => f p.1 p.2) = f a mid
  rw [h]
  rfl

theorem bind_of_error {fault : Fault} (h : x bytes = .error fault) :
    (x >>= f) bytes = .error fault := by
  show x bytes >>= (fun p => f p.1 p.2) = .error fault
  rw [h]
  rfl

theorem discard_of_ok (h : x bytes = .ok (a, mid)) : (discard x) bytes = .ok ((), mid) := by
  show x bytes >>= (fun p => .ok ((), p.2)) = .ok ((), mid)
  rw [h]
  rfl

theorem bind_congr {y : Reader α} {g : α → Reader β} (hx : x bytes = y mid)
    (hf : ∀ a rest, f a rest = g a rest) :
    (x >>= f) bytes = (y >>= g) mid := by
  have hfg : f = g := funext fun a => funext (hf a)
  show x bytes >>= (fun p => f p.1 p.2) = y mid >>= fun p => g p.1 p.2
  rw [hx, hfg]

/-- A step and the steps after it. -/
theorem yields_bind {value : Option α} {g : α → Option β} (hx : Yields (x bytes) value mid)
    (hf : ∀ a, value = some a → Yields (f a mid) (g a) rest) :
    Yields ((x >>= f) bytes) (value.bind g) rest := by
  cases value with
  | none =>
      obtain ⟨fault, hfault⟩ := hx
      exact ⟨fault, bind_of_error hfault⟩
  | some a =>
      rw [bind_of_ok hx]
      exact hf a rfl

/-! ## Bytes -/

theorem peek_cons (b : UInt8) (rest : List UInt8) :
    peek (b :: rest) = .ok (some (Char.ofNat b.toNat), b :: rest) := rfl

theorem skip_cons (b : UInt8) (rest : List UInt8) : skip (b :: rest) = .ok ((), rest) := rfl

/-- A byte that is seen as a character keeps its number. -/
theorem toNat_seen (b : UInt8) : (Char.ofNat b.toNat).toNat = b.toNat := by
  have hb : b.toNat < 256 := b.toNat_lt
  have hvalid : b.toNat.isValidChar := Or.inl (by omega)
  rw [Char.ofNat, dif_pos hvalid]
  rfl

theorem takeWhile_append {test : UInt8 → Bool} (h : ∀ b ∈ bytes, test b = true)
    (hrest : ∀ b ∈ rest.head?, test b = false) :
    takeWhile test (bytes ++ rest) = .ok (bytes, rest) := by
  have hnone : rest.takeWhile test = [] ∧ rest.dropWhile test = rest := by
    cases rest with
    | nil => exact ⟨rfl, rfl⟩
    | cons b rest => simp [hrest b rfl]
  unfold takeWhile
  rw [List.takeWhile_append_of_pos h, List.dropWhile_append_of_pos h, hnone.1, hnone.2,
    List.append_nil]

theorem isBlank_of_mem_gap {gap : Blanks} {b : UInt8} (h : b ∈ gap.bytes) : isBlank b = true := by
  obtain ⟨blank, -, rfl⟩ := List.mem_map.mp h
  cases blank <;> rfl

/-- Blanks are passed up to the next token. -/
theorem peekToken_gap (gap : Blanks) (hrest : ∀ b ∈ rest.head?, isBlank b = false) :
    peekToken (gap.bytes ++ rest) = .ok (rest.head?.map fun b => Char.ofNat b.toNat, rest) := by
  have htake : takeWhile isBlank (gap.bytes ++ rest) = .ok (gap.bytes, rest) :=
    takeWhile_append (fun b hb => isBlank_of_mem_gap hb) hrest
  exact bind_of_ok (discard_of_ok htake)

/-! ## Escapes -/

theorem hexValue?_byte (d : HexDigit) : hexValue? d.byte = some d.value.val := by
  obtain ⟨value, upper⟩ := d
  revert value upper
  decide

theorem hexUnit_digits (u : Unit16) (rest : List UInt8) :
    hexUnit (u.digits.map HexDigit.byte ++ rest) = .ok (u.value, rest) := by
  have hmap : [u.a.byte, u.b.byte, u.c.byte, u.d.byte].mapM hexValue? =
      some [u.a.value.val, u.b.value.val, u.c.value.val, u.d.value.val] := by
    simp only [List.mapM_cons, List.mapM_nil, hexValue?_byte]
    rfl
  simp only [hexUnit, Unit16.digits, List.map_cons, List.map_nil, List.cons_append, List.nil_append,
    hmap]
  rfl

theorem escape_mark (e : Escape) (rest : List UInt8) :
    escape (e.mark :: rest) = .ok (String.utf8EncodeChar e.char, rest) := by
  cases e <;> rfl

theorem skipEscape_mark (e : Escape) (rest : List UInt8) :
    skipEscape (e.mark :: rest) = .ok ((), rest) := by
  cases e <;> rfl

/-! ## Characters that stand for themselves -/

theorem mem_encodeChar {c : Char} {b : UInt8} (h : b ∈ String.utf8EncodeChar c) :
    b.toNat = c.toNat ∨ 0x80 ≤ b.toNat := by
  have hc : c.val.toNat = c.toNat := rfl
  rw [String.utf8EncodeChar.eq_1, hc] at h
  split_ifs at h with hone htwo hthree
  · obtain rfl := List.mem_singleton.mp h
    exact Or.inl (Utf8.toNat_ofNat_of_lt (by omega))
  all_goals
    right
    simp only [List.mem_cons, List.not_mem_nil, or_false] at h
    rcases h with rfl | rfl | rfl | rfl <;> rw [UInt8.toNat_ofNat'] <;> omega

theorem isPlain_of_mem {c : Char} (hc : 0x20 ≤ c.toNat ∧ c ≠ '"' ∧ c ≠ '\\') {b : UInt8}
    (hb : b ∈ String.utf8EncodeChar c) : isPlain b = true := by
  obtain ⟨hlow, hquote, hslash⟩ := hc
  have hquote' : c.toNat ≠ 0x22 := fun h => hquote (Char.toNat_inj.mp h)
  have hslash' : c.toNat ≠ 0x5C := fun h => hslash (Char.toNat_inj.mp h)
  have hnat := mem_encodeChar hb
  have hnumbers : 0x20 ≤ b.toNat ∧ b.toNat ≠ 0x22 ∧ b.toNat ≠ 0x5C := by omega
  simpa [isPlain, UInt8.le_iff_toNat_le, ← UInt8.toNat_inj, and_assoc] using hnumbers

/-- A unit that is no half of a pair is a character. -/
theorem codePoint_unit {u : Unit16} (h : u.value < 0xD800 ∨ 0xDFFF < u.value) (rest : List UInt8) :
    codePoint (u.digits.map HexDigit.byte ++ rest) = .ok (Char.ofNat u.value, rest) := by
  unfold codePoint
  rw [bind_of_ok (hexUnit_digits u rest), if_neg (by simp; omega), if_neg (by simp; omega)]
  rfl

theorem codePoint_trailing {u : Unit16} (h : 0xDC00 ≤ u.value ∧ u.value ≤ 0xDFFF)
    (rest : List UInt8) :
    ∃ fault, codePoint (u.digits.map HexDigit.byte ++ rest) = .error fault := by
  unfold codePoint
  rw [bind_of_ok (hexUnit_digits u rest), if_pos (by simpa using h)]
  exact ⟨_, rfl⟩

theorem pairMark_slash (rest : List UInt8) : pairMark '\\' (0x5C :: rest) = .ok ((), rest) := rfl

theorem pairMark_u (rest : List UInt8) : pairMark 'u' (0x75 :: rest) = .ok ((), rest) := rfl

/-- The first half of a pair is a character together with the second half. -/
theorem codePoint_pair {u v : Unit16} (hu : 0xD800 ≤ u.value ∧ u.value ≤ 0xDBFF)
    (hv : 0xDC00 ≤ v.value ∧ v.value ≤ 0xDFFF) (rest : List UInt8) :
    codePoint (u.digits.map HexDigit.byte ++ ((Piece.unit v).bytes ++ rest)) =
      .ok (Char.ofNat (0x10000 + (u.value - 0xD800) * 0x400 + (v.value - 0xDC00)), rest) := by
  unfold codePoint
  rw [bind_of_ok (hexUnit_digits u _), if_neg (by simp; omega), if_pos (by simpa using hu)]
  have hunit : (Piece.unit v).bytes ++ rest = 0x5C :: 0x75 ::
      (v.digits.map HexDigit.byte ++ rest) :=
    rfl
  rw [hunit, bind_of_ok (pairMark_slash _), bind_of_ok (pairMark_u _),
    bind_of_ok (hexUnit_digits v rest), if_pos (by simpa using hv)]
  rfl

theorem pairMark_cons {mark : Char} {b : UInt8} (h : Char.ofNat b.toNat ≠ mark)
    (rest : List UInt8) :
    ∃ fault, pairMark mark (b :: rest) = .error fault := by
  unfold pairMark
  rw [bind_of_ok (peek_cons b rest)]
  dsimp only
  rw [bind_of_ok (skip_cons b rest), if_neg h]
  exact ⟨_, rfl⟩

/-- The first half of a pair without the second half behind it. -/
theorem codePoint_leading {u : Unit16} (hu : 0xD800 ≤ u.value ∧ u.value ≤ 0xDBFF) {s : Literal}
    (hs : ∀ v more, s = .unit v :: more → ¬ (0xDC00 ≤ v.value ∧ v.value ≤ 0xDFFF))
    (rest : List UInt8) :
    ∃ fault, codePoint (u.digits.map HexDigit.byte ++ (s.inner ++ 0x22 :: rest)) =
      .error fault := by
  unfold codePoint
  rw [bind_of_ok (hexUnit_digits u _), if_neg (by simp; omega), if_pos (by simpa using hu)]
  cases s with
  | nil => exact ⟨_, rfl⟩
  | cons p more =>
      cases p with
      | plain c hc =>
          obtain ⟨b, bs, hbytes⟩ :=
            List.exists_cons_of_ne_nil (String.utf8EncodeChar_ne_nil (c := c))
          have hb : isPlain b = true := isPlain_of_mem hc (hbytes ▸ List.mem_cons_self)
          have hmark : Char.ofNat b.toNat ≠ '\\' := by
            intro h
            have hb' : b = 0x5C :=
              UInt8.toNat_inj.mp ((toNat_seen b).symm.trans (congrArg Char.toNat h))
            rw [hb'] at hb
            exact absurd hb (by decide)
          have hinner : Literal.inner (.plain c hc :: more) ++ 0x22 :: rest =
              b :: (bs ++ (Literal.inner more ++ 0x22 :: rest)) := by
            simp [Literal.inner, Piece.bytes, hbytes]
          obtain ⟨fault, hfault⟩ := pairMark_cons hmark (bs ++ (Literal.inner more ++ 0x22 :: rest))
          rw [hinner]
          exact ⟨fault, bind_of_error hfault⟩
      | escape e => cases e <;> exact ⟨_, rfl⟩
      | unit v =>
          have hinner : Literal.inner (.unit v :: more) ++ 0x22 :: rest =
              0x5C :: 0x75 ::
                (v.digits.map HexDigit.byte ++ (Literal.inner more ++ 0x22 :: rest)) := by
            simp [Literal.inner, Piece.bytes]
          rw [hinner, bind_of_ok (pairMark_slash _), bind_of_ok (pairMark_u _),
            bind_of_ok (hexUnit_digits v _), if_neg (by simpa using hs v more rfl)]
          exact ⟨_, rfl⟩

/-! ## Strings that are wanted -/

/-- Bytes that stand for themselves may as well have been read before. -/
theorem stringBytes_plain {plain : List UInt8} (h : ∀ b ∈ plain, isPlain b = true) (rounds : Nat)
    (done rest : List UInt8) :
    stringBytes (rounds + 1) done (plain ++ rest) =
      stringBytes (rounds + 1) (done ++ plain) rest := by
  have hboth : takeWhile isPlain (plain ++ rest) =
      .ok (plain ++ rest.takeWhile isPlain, rest.dropWhile isPlain) := by
    rw [takeWhile, List.takeWhile_append_of_pos h, List.dropWhile_append_of_pos h]
  have hrest : takeWhile isPlain rest = .ok (rest.takeWhile isPlain, rest.dropWhile isPlain) := rfl
  rw [stringBytes, stringBytes, bind_of_ok hboth, bind_of_ok hrest, List.append_assoc]

theorem stringBytes_quote (rounds : Nat) (done rest : List UInt8) :
    stringBytes (rounds + 1) done (0x22 :: rest) = .ok (done, rest) := by
  have hdone : stringBytes (rounds + 1) done (0x22 :: rest) = .ok (done ++ [], rest) := rfl
  rw [hdone, List.append_nil]

theorem stringBytes_escape (rounds : Nat) (done rest : List UInt8) :
    stringBytes (rounds + 1) done (0x5C :: rest) =
      (escape >>= fun bs => stringBytes rounds (done ++ bs)) rest := by
  have hstep : stringBytes (rounds + 1) done (0x5C :: rest) =
      (escape >>= fun bs => stringBytes rounds (done ++ [] ++ bs)) rest := rfl
  rw [hstep, List.append_nil]

theorem stringBytes_unit {u : Unit16} {c : Char} {bytes mid : List UInt8}
    (h : codePoint (u.digits.map HexDigit.byte ++ bytes) = .ok (c, mid)) (rounds : Nat)
    (done : List UInt8) :
    stringBytes (rounds + 1) done ((Piece.unit u).bytes ++ bytes) =
      stringBytes rounds (done ++ String.utf8EncodeChar c) mid := by
  have hescape : escape (0x75 :: (u.digits.map HexDigit.byte ++ bytes)) =
      .ok (String.utf8EncodeChar c, mid) := by
    have hstep : escape (0x75 :: (u.digits.map HexDigit.byte ++ bytes)) =
      (codePoint >>= fun c => pure (String.utf8EncodeChar c))
          (u.digits.map HexDigit.byte ++ bytes) :=
        rfl
    rw [hstep, bind_of_ok h]
    rfl
  exact (stringBytes_escape rounds done _).trans (bind_of_ok hescape)

theorem stringBytes_unit_fault {u : Unit16} {bytes : List UInt8}
    (h : ∃ fault, codePoint (u.digits.map HexDigit.byte ++ bytes) = .error fault) (rounds : Nat)
    (done : List UInt8) :
    ∃ fault, stringBytes (rounds + 1) done ((Piece.unit u).bytes ++ bytes) = .error fault := by
  obtain ⟨fault, hfault⟩ := h
  have hescape : escape (0x75 :: (u.digits.map HexDigit.byte ++ bytes)) = .error fault := by
    have hstep : escape (0x75 :: (u.digits.map HexDigit.byte ++ bytes)) =
      (codePoint >>= fun c => pure (String.utf8EncodeChar c))
          (u.digits.map HexDigit.byte ++ bytes) :=
        rfl
    rw [hstep, bind_of_error hfault]
  exact ⟨fault, (stringBytes_escape rounds done _).trans (bind_of_error hescape)⟩

theorem inner_cons (p : Piece) (s : Literal) (rest : List UInt8) :
    Literal.inner (p :: s) ++ rest = p.bytes ++ (Literal.inner s ++ rest) := by
  rw [Literal.inner, List.flatMap_cons, List.append_assoc]
  rfl

theorem map_cons_encode (done : List UInt8) (c : Char) (cs? : Option (List Char)) :
    (cs?.map (c :: ·)).map (fun cs => done ++ cs.flatMap String.utf8EncodeChar) =
      cs?.map fun cs => done ++ String.utf8EncodeChar c ++ cs.flatMap String.utf8EncodeChar := by
  cases cs? with
  | none => rfl
  | some cs => simp

/-- The bytes of a string that is wanted are those of its characters. -/
theorem yields_stringBytes (s : Literal) {rounds : Nat} (hrounds : s.length < rounds)
    (done rest : List UInt8) :
    Yields (stringBytes rounds done (s.inner ++ 0x22 :: rest))
      (s.chars?.map fun cs => done ++ cs.flatMap String.utf8EncodeChar) rest := by
  fun_induction Literal.chars? s generalizing rounds done with
  | case1 =>
      obtain ⟨r, rfl⟩ := Nat.exists_eq_add_of_lt hrounds
      have hdone := stringBytes_quote r done rest
      simpa [Yields, Literal.inner] using hdone
  | case2 c hc s ih =>
      obtain ⟨r, rfl⟩ := Nat.exists_eq_add_of_lt hrounds
      rw [inner_cons, Piece.bytes, stringBytes_plain (fun b => isPlain_of_mem hc), map_cons_encode]
      exact ih (by simp; omega) _
  | case3 e s ih =>
      obtain ⟨r, rfl⟩ := Nat.exists_eq_add_of_lt hrounds
      have hmark : (Piece.escape e).bytes ++ (Literal.inner s ++ 0x22 :: rest) =
          0x5C :: e.mark :: (Literal.inner s ++ 0x22 :: rest) := rfl
      rw [inner_cons, map_cons_encode, hmark, stringBytes_escape, bind_of_ok (escape_mark e _)]
      exact ih (by simp; omega) _
  | case4 u v s hu hv ih =>
      -- the two halves of a pair are one character, and one round
      obtain ⟨r, rfl⟩ := Nat.exists_eq_add_of_lt hrounds
      rw [inner_cons, inner_cons, stringBytes_unit (codePoint_pair hu hv _), map_cons_encode]
      exact ih (by simp; omega) _
  | case5 u v s hu hv =>
      -- a leading half before a unit that does not complete it
      obtain ⟨r, rfl⟩ := Nat.exists_eq_add_of_lt hrounds
      rw [inner_cons]
      refine stringBytes_unit_fault (codePoint_leading hu (fun w more h => ?_) rest) _ done
      cases h
      exact hv
  | case6 u v s hu hu' =>
      obtain ⟨r, rfl⟩ := Nat.exists_eq_add_of_lt hrounds
      rw [inner_cons]
      exact stringBytes_unit_fault (codePoint_trailing hu' _) _ done
  | case7 u v s hu hu' ih =>
      obtain ⟨r, rfl⟩ := Nat.exists_eq_add_of_lt hrounds
      rw [inner_cons, stringBytes_unit (codePoint_unit (by omega) _), map_cons_encode]
      exact ih (by simp; omega) _
  | case8 u s hs hu =>
      -- a half with no unit after it
      obtain ⟨r, rfl⟩ := Nat.exists_eq_add_of_lt hrounds
      rw [inner_cons]
      refine stringBytes_unit_fault ?_ _ done
      by_cases hfirst : u.value ≤ 0xDBFF
      · exact codePoint_leading ⟨hu.1, hfirst⟩ (fun v more h => (hs v more h).elim) rest
      · exact codePoint_trailing ⟨by omega, hu.2⟩ _
  | case9 u s hs hu ih =>
      obtain ⟨r, rfl⟩ := Nat.exists_eq_add_of_lt hrounds
      rw [inner_cons, stringBytes_unit (codePoint_unit (by omega) _), map_cons_encode]
      exact ih (by simp; omega) _

theorem length_le_inner (s : Literal) : s.length ≤ s.inner.length := by
  induction s with
  | nil => exact Nat.le_refl _
  | cons p s ih =>
      have hone : 0 < p.bytes.length := by
        cases p with
        | plain c _ => exact List.length_pos_iff.mpr String.utf8EncodeChar_ne_nil
        | escape | unit => exact Nat.succ_pos _
      rw [Literal.inner, List.flatMap_cons, List.length_append, List.length_cons]
      have htail : s.length ≤ (s.flatMap Piece.bytes).length := ih
      omega

/-- A string that is wanted is read as its text. -/
theorem yields_string (s : Literal) (rest : List UInt8) :
    Yields (string (s.inner ++ 0x22 :: rest)) s.text? rest := by
  have hrounds : s.length < (s.inner ++ 0x22 :: rest).length + 1 := by
    have hlength := length_le_inner s
    rw [List.length_append]
    omega
  have hbytes := yields_stringBytes s hrounds [] rest
  unfold string
  rw [bind_of_ok (rfl : (get : Reader (List UInt8)) (s.inner ++ 0x22 :: rest) = .ok (_, _))]
  unfold Literal.text?
  cases hs : s.chars? with
  | none =>
      rw [hs] at hbytes
      obtain ⟨fault, hfault⟩ := hbytes
      exact ⟨fault, bind_of_error hfault⟩
  | some cs =>
      rw [hs] at hbytes
      have hdecode : Utf8.decode? ([] ++ cs.flatMap String.utf8EncodeChar) =
          some (String.ofList cs) := by
        rw [List.nil_append, Utf8.decode?_encodeChars]
      rw [bind_of_ok hbytes]
      dsimp only
      rw [hdecode]
      rfl

/-! ## Strings that are not wanted -/

theorem skipStringBytes_plain {plain : List UInt8} (h : ∀ b ∈ plain, isPlain b = true)
    (rounds : Nat) (rest : List UInt8) :
    skipStringBytes (rounds + 1) (plain ++ rest) = skipStringBytes (rounds + 1) rest := by
  have hboth : takeWhile isPlain (plain ++ rest) =
      .ok (plain ++ rest.takeWhile isPlain, rest.dropWhile isPlain) := by
    rw [takeWhile, List.takeWhile_append_of_pos h, List.dropWhile_append_of_pos h]
  have hrest : takeWhile isPlain rest = .ok (rest.takeWhile isPlain, rest.dropWhile isPlain) := rfl
  rw [skipStringBytes, bind_of_ok (discard_of_ok hboth), bind_of_ok (discard_of_ok hrest)]

theorem skipStringBytes_escape (rounds : Nat) (rest : List UInt8) :
    skipStringBytes (rounds + 1) (0x5C :: rest) =
      (skipEscape >>= fun _ => skipStringBytes rounds) rest := rfl

theorem skipEscape_unit (u : Unit16) (rest : List UInt8) :
    skipEscape (0x75 :: (u.digits.map HexDigit.byte ++ rest)) = .ok ((), rest) := by
  have hstep : skipEscape (0x75 :: (u.digits.map HexDigit.byte ++ rest)) =
    (discard hexUnit : Reader Unit) (u.digits.map HexDigit.byte ++ rest) := rfl
  rw [hstep, discard_of_ok (hexUnit_digits u rest)]

theorem skipStringBytes_inner (s : Literal) {rounds : Nat} (hrounds : s.length < rounds)
    (rest : List UInt8) :
    skipStringBytes rounds (s.inner ++ 0x22 :: rest) = .ok ((), rest) := by
  induction s generalizing rounds with
  | nil =>
      obtain ⟨r, rfl⟩ := Nat.exists_eq_add_of_lt hrounds
      rfl
  | cons p s ih =>
      obtain ⟨r, rfl⟩ := Nat.exists_eq_add_of_lt hrounds
      have hlength : s.length < (p :: s).length + r := by
        rw [List.length_cons]
        omega
      rw [inner_cons]
      cases p with
      | plain c hc =>
          rw [Piece.bytes, skipStringBytes_plain fun b => isPlain_of_mem hc]
          exact ih (by omega)
      | escape e =>
          refine (skipStringBytes_escape _ _).trans ?_
          exact (bind_of_ok (skipEscape_mark e _)).trans (ih hlength)
      | unit u =>
          refine (skipStringBytes_escape _ _).trans ?_
          exact (bind_of_ok (skipEscape_unit u _)).trans (ih hlength)

/-- A string that is not wanted is passed. -/
theorem skipString_inner (s : Literal) (rest : List UInt8) :
    skipString (s.inner ++ 0x22 :: rest) = .ok ((), rest) := by
  have hrounds : s.length < (s.inner ++ 0x22 :: rest).length + 1 := by
    have hlength := length_le_inner s
    rw [List.length_append]
    omega
  exact skipStringBytes_inner s hrounds rest

end Reader

end

end FSharpWorkspace.Json
