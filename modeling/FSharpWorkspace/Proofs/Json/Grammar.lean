/-!
# The grammar of JSON texts

A JSON text as it was written: with its blanks, the escapes of its strings, the digits of its
numbers, and the order of its members. `Doc.bytes` writes it down. Every text of the grammar comes
out, and nothing else does.

A string is written in pieces. Pieces with four hexadecimal digits are units of UTF-16, so two of
them may make one character, and some strings of the grammar are no text (`Literal.text?`).
-/

set_option autoImplicit false

namespace FSharpWorkspace.Json

/-! ## Blanks -/

/-- What may stand between tokens. -/
inductive Blank where
  | space
  | tab
  | lineFeed
  | carriageReturn
deriving DecidableEq, Repr

def Blank.byte : Blank → UInt8
  | space => 0x20
  | tab => 0x09
  | lineFeed => 0x0A
  | carriageReturn => 0x0D

abbrev Blanks := List Blank

def Blanks.bytes (gap : Blanks) : List UInt8 := gap.map Blank.byte

/-! ## Strings -/

/-- A hexadecimal digit. A letter may be written in upper or in lower case. -/
structure HexDigit where
  value : Fin 16
  upper : Bool
deriving DecidableEq, Repr

def HexDigit.byte (d : HexDigit) : UInt8 :=
  UInt8.ofNat ((if d.value < 10 then 0x30 else if d.upper then 0x37 else 0x57) + d.value)

/-- A unit of UTF-16, written with four hexadecimal digits. -/
structure Unit16 where
  a : HexDigit
  b : HexDigit
  c : HexDigit
  d : HexDigit
deriving DecidableEq, Repr

namespace Unit16

def digits (u : Unit16) : List HexDigit := [u.a, u.b, u.c, u.d]

def value (u : Unit16) : Nat := u.digits.foldl (fun n d => 16 * n + d.value) 0

end Unit16

/-- A character that is written as a backslash and a mark. -/
inductive Escape where
  | quote
  | backslash
  | slash
  | backspace
  | formFeed
  | lineFeed
  | carriageReturn
  | tab
deriving DecidableEq, Repr

namespace Escape

def mark : Escape → UInt8
  | quote => 0x22
  | backslash => 0x5C
  | slash => 0x2F
  | backspace => 0x62
  | formFeed => 0x66
  | lineFeed => 0x6E
  | carriageReturn => 0x72
  | tab => 0x74

def char : Escape → Char
  | quote => '"'
  | backslash => '\\'
  | slash => '/'
  | backspace => '\x08'
  | formFeed => '\x0c'
  | lineFeed => '\n'
  | carriageReturn => '\r'
  | tab => '\t'

end Escape

/-- A piece of a string: a character that stands for itself, an escape, or a unit of UTF-16. -/
inductive Piece where
  | plain (c : Char) (h : 0x20 ≤ c.toNat ∧ c ≠ '"' ∧ c ≠ '\\')
  | escape (e : Escape)
  | unit (u : Unit16)

def Piece.bytes : Piece → List UInt8
  | plain c _ => String.utf8EncodeChar c
  | escape e => [0x5C, e.mark]
  | unit u => 0x5C :: 0x75 :: u.digits.map HexDigit.byte

/-- A piece for a character, with an escape where there has to be one. -/
def Piece.ofChar (c : Char) : Piece :=
  if h : 0x20 ≤ c.toNat ∧ c ≠ '"' ∧ c ≠ '\\' then .plain c h
  else if c = '"' then .escape .quote
  else if c = '\\' then .escape .backslash
  else
    .unit ⟨⟨0, false⟩, ⟨0, false⟩, ⟨Fin.ofNat 16 (c.toNat / 16), false⟩,
      ⟨Fin.ofNat 16 c.toNat, false⟩⟩

/-- A string without its quotes. -/
abbrev Literal := List Piece

namespace Literal

def inner (s : Literal) : List UInt8 := s.flatMap Piece.bytes

def bytes (s : Literal) : List UInt8 := 0x22 :: (s.inner ++ [0x22])

/-- The characters of a string. There are none if half of a surrogate pair stands alone. -/
def chars? : Literal → Option (List Char)
  | [] => some []
  | .plain c _ :: rest => (chars? rest).map (c :: ·)
  | .escape e :: rest => (chars? rest).map (e.char :: ·)
  | .unit u :: .unit v :: rest =>
    if 0xD800 ≤ u.value ∧ u.value ≤ 0xDBFF then
      if 0xDC00 ≤ v.value ∧ v.value ≤ 0xDFFF then
        (chars? rest).map
          (Char.ofNat (0x10000 + (u.value - 0xD800) * 0x400 + (v.value - 0xDC00)) :: ·)
      else none
    else if 0xDC00 ≤ u.value ∧ u.value ≤ 0xDFFF then none
    else (chars? (.unit v :: rest)).map (Char.ofNat u.value :: ·)
  | .unit u :: rest =>
    if 0xD800 ≤ u.value ∧ u.value ≤ 0xDFFF then none
    else (chars? rest).map (Char.ofNat u.value :: ·)

def text? (s : Literal) : Option String := s.chars?.map String.ofList

def ofText (text : String) : Literal := text.toList.map Piece.ofChar

end Literal

/-! ## Numbers -/

def digitByte (d : Fin 10) : UInt8 := UInt8.ofNat (0x30 + d)

/-- Digits, of which there is at least one. -/
structure Digits where
  first : Fin 10
  more : List (Fin 10)
deriving DecidableEq, Repr

def Digits.bytes (ds : Digits) : List UInt8 := digitByte ds.first :: ds.more.map digitByte

/-- An exponent with its letter and sign. -/
structure Exponent where
  upper : Bool
  sign : Option Bool
  digits : Digits
deriving DecidableEq, Repr

def Exponent.bytes (e : Exponent) : List UInt8 :=
  (if e.upper then 0x45 else 0x65) ::
    ((e.sign.map fun minus => if minus then 0x2D else 0x2B).toList ++ e.digits.bytes)

/-- A number. A first digit zero is the only one before the point. -/
structure Numeral where
  negative : Bool
  whole : Digits
  fraction : Option Digits
  exponent : Option Exponent
  unpadded : whole.first = 0 → whole.more = []
deriving DecidableEq, Repr

namespace Numeral

/-- The bytes after the sign. -/
def unsigned (n : Numeral) : List UInt8 :=
  n.whole.bytes ++
    ((n.fraction.map fun ds => 0x2E :: ds.bytes).getD [] ++ (n.exponent.map Exponent.bytes).getD [])

def bytes (n : Numeral) : List UInt8 := if n.negative then 0x2D :: n.unsigned else n.unsigned

end Numeral

/-! ## Values -/

/-- An element of a list with the blanks around it. -/
structure Item (δ : Type) where
  before : Blanks
  value : δ
  after : Blanks

/-- A member of an object with the blanks around its name and its value. -/
structure Member (δ : Type) where
  before : Blanks
  name : Literal
  afterName : Blanks
  beforeValue : Blanks
  value : δ
  after : Blanks

/-- A value as it was written. The blanks `lead` stand behind the opening bracket; with them a list
or an object without parts may have blanks too. -/
inductive Doc where
  | null
  | flag (b : Bool)
  | number (n : Numeral)
  | string (s : Literal)
  | list (lead : Blanks) (items : List (Item Doc))
  | object (lead : Blanks) (members : List (Member Doc))

/-- The comma before a part that is not the first one. -/
def comma (first : Bool) : List UInt8 := if first then [] else [0x2C]

mutual

def Doc.bytes : Doc → List UInt8
  | .null => [0x6E, 0x75, 0x6C, 0x6C]
  | .flag true => [0x74, 0x72, 0x75, 0x65]
  | .flag false => [0x66, 0x61, 0x6C, 0x73, 0x65]
  | .number n => n.bytes
  | .string s => s.bytes
  | .list lead items => 0x5B :: (lead.bytes ++ (itemsBytes true items ++ [0x5D]))
  | .object lead members => 0x7B :: (lead.bytes ++ (membersBytes true members ++ [0x7D]))

/-- The bytes of the elements of a list; `first` says that none comes before them. -/
def itemsBytes : Bool → List (Item Doc) → List UInt8
  | _, [] => []
  | first, ⟨before, value, after⟩ :: rest =>
    comma first ++ (before.bytes ++ (value.bytes ++ (after.bytes ++ itemsBytes false rest)))

/-- The bytes of the members of an object; `first` says that none comes before them. -/
def membersBytes : Bool → List (Member Doc) → List UInt8
  | _, [] => []
  | first, ⟨before, name, afterName, beforeValue, value, after⟩ :: rest =>
    comma first ++
      (before.bytes ++ (name.bytes ++ (afterName.bytes ++ (0x3A :: (beforeValue.bytes ++
      (value.bytes ++ (after.bytes ++ membersBytes false rest)))))))

end

/-- The bytes of a text that has one value. -/
def Doc.text (before : Blanks) (d : Doc) (after : Blanks) : List UInt8 :=
  before.bytes ++ (d.bytes ++ after.bytes)

end FSharpWorkspace.Json
