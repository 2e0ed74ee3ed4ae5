/-!
# UTF-8

Bytes are decoded into characters; a byte that starts no character, and the longest start of a
character that is broken off, count as one fault each. `decode?` accepts only texts without faults,
`decodeLossy` puts the replacement character in place of each fault.
-/

set_option autoImplicit false

namespace FSharpWorkspace.Utf8

def encode (text : String) : List UInt8 := text.toList.flatMap String.utf8EncodeChar

/-- The second bytes that may follow a first byte of a character of three or four bytes. -/
def secondRange (first : UInt8) : Nat × Nat :=
  if first = 0xE0 then (0xA0, 0xBF)
  else if first = 0xED then (0x80, 0x9F)
  else if first = 0xF0 then (0x90, 0xBF)
  else if first = 0xF4 then (0x80, 0x8F)
  else (0x80, 0xBF)

def isNext (b : UInt8) : Bool := 0x80 ≤ b.toNat && b.toNat ≤ 0xBF

def isSecond (first b : UInt8) : Bool :=
  (secondRange first).1 ≤ b.toNat && b.toNat ≤ (secondRange first).2

/-- How many bytes a character with this first byte has; zero if there is none. -/
def width (first : UInt8) : Nat :=
  if first < 0x80 then 1
  else if 0xC2 ≤ first && first ≤ 0xDF then 2
  else if 0xE0 ≤ first && first ≤ 0xEF then 3
  else if 0xF0 ≤ first && first ≤ 0xF4 then 4
  else 0

def low (b : UInt8) : Nat := b.toNat % 64

/-- The code point of a character with this first byte and these others. -/
def codePoint (first : UInt8) (others : List UInt8) : Nat :=
  let bits := if others.length = 0 then 128 else if others.length = 1 then 32
    else if others.length = 2 then 16 else 8
  others.foldl (fun n b => n * 64 + low b) (first.toNat % bits)

/-- How many of the bytes after `first` belong to the same character or fault. -/
def extent (first : UInt8) (rest : List UInt8) : Nat :=
  match rest with
  | [] => 0
  | second :: others =>
    if width first < 2 || !isSecond first second then 0
    else 1 + ((others.take (width first - 2)).takeWhile isNext).length

/-- The characters of some bytes, with `none` for each fault. -/
def decode : List UInt8 → List (Option Char)
  | [] => []
  | first :: rest =>
    let n := extent first rest
    (if n + 1 = width first then some (Char.ofNat (codePoint first (rest.take n))) else none) ::
      decode (rest.drop n)
termination_by bytes => bytes.length
decreasing_by simp only [List.length_drop, List.length_cons]; omega

def soundLength (bytes : List UInt8) : Nat :=
  ((decode bytes).takeWhile Option.isSome).foldl (fun n c => n + (c.map (·.utf8Size)).getD 0) 0

def decode? (bytes : List UInt8) : Option String := (decode bytes).mapM id |>.map String.ofList

def decodeLossy (bytes : List UInt8) : String :=
  String.ofList ((decode bytes).map (·.getD (Char.ofNat 0xFFFD)))

end FSharpWorkspace.Utf8
