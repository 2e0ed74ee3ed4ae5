import FSharpWorkspace.Text.Utf8
import Mathlib.Data.List.TakeWhile
import Mathlib.Tactic.SplitIfs
/-!
# Decoding what was encoded

A character is decoded from its bytes whatever stands after them (`decode_encodeChar`), so a text is
decoded from its bytes without a fault (`decode?_encode`).
-/

set_option autoImplicit false

namespace FSharpWorkspace.Utf8

/-! ## Ranges of bytes -/

theorem width_eq (b : UInt8) : width b =
    if b.toNat < 0x80 then 1
    else if 0xC2 ≤ b.toNat ∧ b.toNat ≤ 0xDF then 2
    else if 0xE0 ≤ b.toNat ∧ b.toNat ≤ 0xEF then 3
    else if 0xF0 ≤ b.toNat ∧ b.toNat ≤ 0xF4 then 4
    else 0 := by
  simp [width, UInt8.lt_iff_toNat_lt, UInt8.le_iff_toNat_le]

theorem secondRange_eq (b : UInt8) : secondRange b =
    if b.toNat = 0xE0 then (0xA0, 0xBF)
    else if b.toNat = 0xED then (0x80, 0x9F)
    else if b.toNat = 0xF0 then (0x90, 0xBF)
    else if b.toNat = 0xF4 then (0x80, 0x8F)
    else (0x80, 0xBF) := by
  simp [secondRange, ← UInt8.toNat_inj]

theorem toNat_ofNat_of_lt {n : Nat} (h : n < 256) : (UInt8.ofNat n).toNat = n := by
  rw [UInt8.toNat_ofNat']
  exact Nat.mod_eq_of_lt h

/-- What follows the first two bytes of a character is six bits and a mark. -/
theorem isNext_ofNat (n : Nat) : isNext (UInt8.ofNat (n % 64 + 128)) := by
  rw [isNext, toNat_ofNat_of_lt (by omega)]
  simp
  omega

/-! ## Characters -/

/-- A first byte and as many others as belong to it are decoded to one character. -/
theorem decode_cons (first : UInt8) (others rest : List UInt8)
    (hwidth : width first = others.length + 1)
    (hsecond : ∀ second ∈ others.head?, isSecond first second)
    (hnext : ∀ b ∈ others.tail, isNext b) :
    decode (first :: (others ++ rest)) =
      some (Char.ofNat (codePoint first others)) :: decode rest := by
  have hextent : extent first (others ++ rest) = others.length := by
    cases others with
    | nil =>
        cases rest with
        | nil => rfl
        | cons b rest => simp [extent, hwidth]
    | cons second others =>
        have hs := hsecond second rfl
        have htake : (others ++ rest).take (width first - 2) = others := by
          rw [hwidth]
          exact List.take_left
        have hall : others.takeWhile isNext = others := List.takeWhile_eq_self_iff.mpr hnext
        have hw : ¬ width first < 2 := by
          rw [hwidth, List.length_cons]
          omega
        rw [List.cons_append, extent, htake, hall, hs]
        simp [hw]
        omega
  rw [decode, hextent, if_pos hwidth.symm, List.take_left, List.drop_left]

section

variable {v : Nat} (rest : List UInt8)

theorem decode_one (h : v ≤ 0x7F) :
    decode (UInt8.ofNat v :: rest) = some (Char.ofNat v) :: decode rest := by
  have hfirst := toNat_ofNat_of_lt (show v < 256 by omega)
  have hwidth : width (UInt8.ofNat v) = 1 := by rw [width_eq, hfirst, if_pos (by omega)]
  have hpoint : codePoint (UInt8.ofNat v) [] = v := by
    simp [codePoint]
    omega
  have hdecode := decode_cons (UInt8.ofNat v) [] rest hwidth (by simp) (by simp)
  rwa [hpoint] at hdecode

theorem decode_two (h : 0x7F < v) (h' : v ≤ 0x7FF) :
    decode (UInt8.ofNat (v / 64 % 32 + 192) :: UInt8.ofNat (v % 64 + 128) :: rest) =
      some (Char.ofNat v) :: decode rest := by
  have hfirst := toNat_ofNat_of_lt (show v / 64 % 32 + 192 < 256 by omega)
  have hwidth : width (UInt8.ofNat (v / 64 % 32 + 192)) = 2 := by
    rw [width_eq, hfirst, if_neg (by omega), if_pos (by omega)]
  have hpoint : codePoint (UInt8.ofNat (v / 64 % 32 + 192)) [UInt8.ofNat (v % 64 + 128)] = v := by
    simp [codePoint, low]
    omega
  have hsecond : isSecond (UInt8.ofNat (v / 64 % 32 + 192)) (UInt8.ofNat (v % 64 + 128)) := by
    simp [isSecond, secondRange_eq]
    split_ifs <;> simp <;> omega
  have hdecode :=
    decode_cons _ [UInt8.ofNat (v % 64 + 128)] rest hwidth (by simpa using hsecond) (by simp)
  rwa [hpoint] at hdecode

theorem decode_three (h : 0x7FF < v) (h' : v ≤ 0xFFFF) (hvalid : v < 0xD800 ∨ 0xDFFF < v) :
    decode (UInt8.ofNat (v / 4096 % 16 + 224) :: UInt8.ofNat (v / 64 % 64 + 128) ::
      UInt8.ofNat (v % 64 + 128) ::
      rest) = some (Char.ofNat v) :: decode rest := by
  have hfirst := toNat_ofNat_of_lt (show v / 4096 % 16 + 224 < 256 by omega)
  have hwidth : width (UInt8.ofNat (v / 4096 % 16 + 224)) = 3 := by
    rw [width_eq, hfirst, if_neg (by omega), if_neg (by omega), if_pos (by omega)]
  have hpoint : codePoint (UInt8.ofNat (v / 4096 % 16 + 224))
      [UInt8.ofNat (v / 64 % 64 + 128), UInt8.ofNat (v % 64 + 128)] = v := by
    simp [codePoint, low]
    omega
  have hsecond :
      isSecond (UInt8.ofNat (v / 4096 % 16 + 224)) (UInt8.ofNat (v / 64 % 64 + 128)) := by
    simp [isSecond, secondRange_eq]
    split_ifs <;> simp <;> omega
  have hdecode :=
    decode_cons _ [UInt8.ofNat (v / 64 % 64 + 128), UInt8.ofNat (v % 64 + 128)] rest hwidth
    (by simpa using hsecond)
    (List.forall_mem_singleton.mpr (isNext_ofNat v))
  rwa [hpoint] at hdecode

theorem decode_four (h : 0xFFFF < v) (h' : v < 0x110000) :
    decode (UInt8.ofNat (v / 262144 % 8 + 240) :: UInt8.ofNat (v / 4096 % 64 + 128) ::
      UInt8.ofNat (v / 64 % 64 + 128) :: UInt8.ofNat (v % 64 + 128) :: rest) =
      some (Char.ofNat v) :: decode rest := by
  have hfirst := toNat_ofNat_of_lt (show v / 262144 % 8 + 240 < 256 by omega)
  have hwidth : width (UInt8.ofNat (v / 262144 % 8 + 240)) = 4 := by
    rw [width_eq, hfirst, if_neg (by omega), if_neg (by omega), if_neg (by omega),
      if_pos (by omega)]
  have hpoint : codePoint (UInt8.ofNat (v / 262144 % 8 + 240))
      [UInt8.ofNat (v / 4096 % 64 + 128), UInt8.ofNat (v / 64 % 64 + 128),
        UInt8.ofNat (v % 64 + 128)] = v := by
    simp [codePoint, low]
    omega
  have hsecond :
      isSecond (UInt8.ofNat (v / 262144 % 8 + 240)) (UInt8.ofNat (v / 4096 % 64 + 128)) := by
    simp [isSecond, secondRange_eq]
    split_ifs <;> simp <;> omega
  have hdecode := decode_cons _
    [UInt8.ofNat (v / 4096 % 64 + 128), UInt8.ofNat (v / 64 % 64 + 128),
      UInt8.ofNat (v % 64 + 128)] rest hwidth
    (by simpa using hsecond)
    (List.forall_mem_cons.mpr ⟨isNext_ofNat (v / 64),
      List.forall_mem_singleton.mpr (isNext_ofNat v)⟩)
  rwa [hpoint] at hdecode

end

/-- A character is decoded from its bytes, whatever follows. -/
theorem decode_encodeChar (c : Char) (rest : List UInt8) :
    decode (String.utf8EncodeChar c ++ rest) = some c :: decode rest := by
  have hc : Char.ofNat c.val.toNat = c := Char.ofNat_toNat c
  have hvalid : c.val.toNat < 0xD800 ∨ 0xDFFF < c.val.toNat ∧ c.val.toNat < 0x110000 := c.valid
  rw [String.utf8EncodeChar.eq_1]
  generalize c.val.toNat = v at hc hvalid
  subst hc
  split
  · next h => exact decode_one rest h
  split
  · next h h' => exact decode_two rest (by omega) h'
  split
  · next h h' => exact decode_three rest (by omega) h' (by omega)
  · next h => exact decode_four rest (by omega) (by omega)

/-! ## Texts -/

theorem encode_append (a b : String) : encode (a ++ b) = encode a ++ encode b := by
  simp [encode]

theorem encode_join (parts : List String) :
    encode (String.join parts) = parts.flatMap encode := by
  induction parts with
  | nil => rfl
  | cons part parts ih => rw [String.join_cons, encode_append, ih, List.flatMap_cons]

theorem decode_encodeChars (cs : List Char) (rest : List UInt8) :
    decode (cs.flatMap String.utf8EncodeChar ++ rest) = cs.map some ++ decode rest := by
  induction cs with
  | nil => rfl
  | cons c cs ih =>
      rw [List.flatMap_cons, List.append_assoc, decode_encodeChar, ih,
        List.map_cons, List.cons_append]

theorem mapM_id_map_some (cs : List Char) :
    (cs.map some).mapM (id : Option Char → Option Char) = some cs := by
  induction cs with
  | nil => rfl
  | cons c cs ih =>
      rw [List.map_cons, List.mapM_cons, ih]
      rfl

/-- The bytes of some characters are decoded to the text of these characters. -/
theorem decode?_encodeChars (cs : List Char) :
    decode? (cs.flatMap String.utf8EncodeChar) = some (String.ofList cs) := by
  have hdecode : decode (cs.flatMap String.utf8EncodeChar) = cs.map some := by
    rw [← List.append_nil (cs.flatMap String.utf8EncodeChar), decode_encodeChars, decode,
      List.append_nil]
  rw [decode?, hdecode, mapM_id_map_some, Option.map_some]

theorem decode?_encode (text : String) : decode? (encode text) = some text := by
  rw [encode, decode?_encodeChars, String.ofList_toList]

end FSharpWorkspace.Utf8
