import FSharpWorkspace.Text.Utf8
/-!
# Globs

A glob is a pattern for the bytes of a relative path. `?` stands for one byte and `*` for any number
of bytes, but never for a slash; `**` between slashes stands for any number of directories; `[a-z]`
stands for one byte of a class, `\x7ba,b\x7d` for one of several patterns, and a backslash takes the
next character literally. `Glob.ofText?` reads a pattern and `Glob.accepts` matches it: the rests of
a text after all matches of a token sequence (`Glob.rests`) are followed through the pattern, and
one of them must be empty.
-/

set_option autoImplicit false

namespace FSharpWorkspace

/-! ## Tokens -/

inductive Glob.Token where
  | byte (b : UInt8)
  /-- One byte that is no slash. -/
  | one
  /-- Any bytes without a slash. -/
  | many
  /-- Any directories in front of the pattern. -/
  | leadingDirectories
  /-- Everything inside a directory. -/
  | inside
  /-- A slash, or any directories between two slashes. -/
  | innerDirectories
  /-- One byte in one of some ranges, or in none of them. -/
  | oneOf (negated : Bool) (ranges : List (UInt8 × UInt8))
  | alternatives (patterns : List (List Glob.Token))
deriving Repr, Inhabited

structure Glob where
  tokens : List Glob.Token
deriving Repr

namespace Glob

/-! ## Matching -/

def slash : UInt8 := 0x2F

/-- The rests of a text after some bytes without a slash. -/
def restsOfMany : List UInt8 → List (List UInt8)
  | [] => [[]]
  | b :: text => (b :: text) :: if b = slash then [] else restsOfMany text

/-- The rests of a text after each of its slashes. -/
def restsAfterSlash : List UInt8 → List (List UInt8)
  | [] => []
  | b :: text => if b = slash then text :: restsAfterSlash text else restsAfterSlash text

/-- All rests of a text. -/
def allRests : List UInt8 → List (List UInt8)
  | [] => [[]]
  | b :: text => (b :: text) :: allRests text

/-- The rests of a text after one byte that passes a test. -/
def restsOfOne (test : UInt8 → Bool) : List UInt8 → List (List UInt8)
  | [] => []
  | b :: text => if test b then [text] else []

def isIn (negated : Bool) (ranges : List (UInt8 × UInt8)) (b : UInt8) : Bool :=
  ranges.any (fun (first, last) => first ≤ b && b ≤ last) != negated

mutual

/-- Whether a sequence of tokens demands nothing: it is empty, or made of alternatives that
all demand nothing. -/
def isBlank (ts : List Token) : Bool :=
  match ts with
  | [] => true
  | .alternatives patterns :: ts => areBlank patterns && isBlank ts
  | _ :: _ => false

/-- Whether all of some patterns demand nothing. -/
def areBlank (patterns : List (List Token)) : Bool :=
  match patterns with
  | [] => true
  | pattern :: others => isBlank pattern && areBlank others

end

mutual

/-- The rests of a text after one token. -/
def restsOf (t : Token) (text : List UInt8) : List (List UInt8) :=
  match t with
  | .byte b => restsOfOne (· = b) text
  | .one => restsOfOne (· ≠ slash) text
  | .many => restsOfMany text
  | .leadingDirectories => text :: restsAfterSlash text
  | .inside => (restsOfOne (· = slash) text).flatMap allRests
  | .innerDirectories =>
    (restsOfOne (· = slash) text).flatMap fun rest => rest :: restsAfterSlash rest
  | .oneOf negated ranges => restsOfOne (isIn negated ranges) text
  | .alternatives patterns => if areBlank patterns then [text] else restsOfAny patterns text

/-- The rests of a text after a sequence of tokens. -/
def rests (ts : List Token) (text : List UInt8) : List (List UInt8) :=
  match ts with
  | [] => [text]
  | t :: ts => ((restsOf t text).flatMap (rests ts)).eraseDups

/-- The rests of a text after one of several patterns; a blank pattern is none of them. -/
def restsOfAny (patterns : List (List Token)) (text : List UInt8) : List (List UInt8) :=
  match patterns with
  | [] => []
  | pattern :: others =>
    (if isBlank pattern then [] else rests pattern text) ++ restsOfAny others text

end

/-- Whether a glob matches a whole text. A glob of nothing but leading directories
matches everything. -/
def accepts (g : Glob) (text : List UInt8) : Bool :=
  match g.tokens with
  | [.leadingDirectories] => true
  | ts => (rests ts text).contains []

/-! ## Nesting -/

mutual

/-- How many parts of an expression a token is, and how deep they nest. The expression has a group
for alternatives and for directories, a repetition for whatever may occur often, and a class for
whatever is one of many bytes. -/
def shapeOf (t : Token) : Nat × Nat :=
  match t with
  | .byte _ => (1, 0)
  | .one => (1, 1)
  | .many => (1, 2)
  | .leadingDirectories => (1, 4)
  | .inside => (2, 1)
  | .innerDirectories => (1, 4)
  | .oneOf _ ranges => (1, if ranges.length = 1 then 1 else 2)
  | .alternatives patterns =>
    match choices patterns with
    | (0, _) => (0, 0)
    | (1, depth) => (1, 1 + depth)
    | (_, depth) => (1, 2 + depth)

/-- How many parts a sequence of tokens has, and how deep they nest. -/
def shape (ts : List Token) : Nat × Nat :=
  match ts with
  | [] => (0, 0)
  | t :: ts =>
    let (parts, depth) := shapeOf t
    let (others, depth') := shape ts
    (parts + others, max depth depth')

/-- How many of some patterns are not blank, and how deep they nest. -/
def choices (patterns : List (List Token)) : Nat × Nat :=
  match patterns with
  | [] => (0, 0)
  | pattern :: others =>
    let (parts, depth) := shape pattern
    let (count, depth') := choices others
    if parts = 0 then (count, depth')
    else (count + 1, max (if parts = 1 then depth else 1 + depth) depth')

end

def nestingLimit : Nat := 250

def isTooDeep (g : Glob) : Bool := 1 + (shape g.tokens).2 > nestingLimit

/-! ## Reading -/

/-- A group whose end has not been read: the patterns before its last comma, and the tokens
since, the latest first. -/
structure Group where
  patterns : List (List Token)
  latest : List Token

/-- A pattern that is being read: its open groups, the innermost first. The last one is
the pattern itself. -/
structure Draft where
  innermost : Group
  outer : List Group

namespace Draft

def empty : Draft := ⟨⟨[], []⟩, []⟩

def isNested (d : Draft) : Bool := !d.outer.isEmpty

def push (d : Draft) (t : Token) : Draft :=
  { d with innermost := { d.innermost with latest := t :: d.innermost.latest } }

def pushChar (d : Draft) (c : Char) : Draft :=
  (String.utf8EncodeChar c).foldl (fun d b => d.push (.byte b)) d

def openGroup (d : Draft) : Draft := ⟨⟨[], []⟩, d.innermost :: d.outer⟩

def groupPatterns (d : Draft) : List (List Token) :=
  d.innermost.patterns ++ [d.innermost.latest.reverse]

/-- The draft after the end of a group, if one is open. -/
def closeGroup? (d : Draft) : Option Draft :=
  match d.outer with
  | [] => none
  | group :: outer => some (push ⟨group, outer⟩ (.alternatives d.groupPatterns))

/-- The draft after a comma. -/
def comma (d : Draft) : Draft :=
  if d.isNested then { d with innermost := ⟨d.groupPatterns, []⟩ } else d.pushChar ','

/-- The draft with a token for directories in place of the one that was read last, which is a slash
or an escaped mark of a group. -/
def replaceSlash (d : Draft) (t : Token) : Draft :=
  match d.innermost.latest with
  | .leadingDirectories :: _ => d
  | .inside :: _ => d
  | _ :: before => push { d with innermost := { d.innermost with latest := before } } t
  | [] => d.push t

def tokens? (d : Draft) : Option (List Token) :=
  if d.isNested then none else some d.innermost.latest.reverse

end Draft

/-- The byte ranges of a range of characters: the bytes of its ends, those between the last byte of
the first end and the first byte of the last end as a range. -/
def byteRanges (first last : Char) : List (UInt8 × UInt8) :=
  let single := fun b : UInt8 => (b, b)
  let a := String.utf8EncodeChar first
  let b := String.utf8EncodeChar last
  if first = last then a.map single
  else a.dropLast.map single ++ [(a.getLast?.getD 0, b.head?.getD 0)] ++ b.tail.map single

/-- Reads the characters of a class up to its closing bracket. `ranges` holds what was read,
the latest first; `open_` says that a dash waits for the end of the latest range. A range may
not run backwards. -/
def readClass (first open_ : Bool) (ranges : List (Char × Char)) :
    List Char → Option (Option (List (Char × Char)) × List Char)
  | [] => none
  | c :: text =>
    if c = ']' && !first then some (some (if open_ then ('-', '-') :: ranges else ranges), text)
    else if open_ then
      match ranges with
      | (low, _) :: others =>
        if c < low then some (none, text) else readClass false false ((low, c) :: others) text
      | [] => readClass false false [(c, c)] text
    else if c = '-' && !first then readClass false true ranges text
    else readClass false false ((c, c) :: ranges) text

/-- Reads a star that follows `before`, and the star after it. -/
def readStar (before : Option Char) (d : Draft) (text : List Char) : Draft × List Char :=
  match text with
  | '*' :: text =>
    let two := (d.push .many).push .many
    if d.innermost.latest.isEmpty then
      match text with
      | [] => (d.push .leadingDirectories, [])
      | '/' :: text => (d.push .leadingDirectories, text)
      | _ => (two, text)
    else if before ≠ some '/' && !(d.isNested && (before = some ',' || before = some '\x7b')) then
      (two, text)
    else
      match text with
      | [] => (d.replaceSlash .inside, [])
      | '/' :: text => (d.replaceSlash .innerDirectories, text)
      | c :: _ =>
        if d.isNested && (c = ',' || c = '\x7d') then (d.replaceSlash .inside, text)
        else (two, text)
  | text => (d.push .many, text)

/-- Reads a pattern. A bracket that no other bracket closes stands for itself, and so do all that
follow: then there are no more `classes`. Every round takes a character. -/
def readFrom : Nat → Bool → Option Char → Draft → List Char → Option (List Token)
  | 0, _, _, _, _ => none
  | _ + 1, _, _, d, [] => d.tokens?
  | rounds + 1, classes, before, d, c :: text =>
    match c with
    | '?' => readFrom rounds classes (some c) (d.push .one) text
    | '*' =>
      let (d, rest) := readStar before d text
      readFrom rounds classes ((c :: text).take (text.length + 1 - rest.length)).getLast? d rest
    | '[' =>
      let (negated, inside) := match text with
        | '!' :: inside => (true, inside)
        | '^' :: inside => (true, inside)
        | inside => (false, inside)
      match if classes then readClass true false [] inside else none with
      | none => readFrom rounds false (some c) (d.pushChar c) text
      | some (none, _) => none
      | some (some ranges, rest) =>
        readFrom rounds classes (some ']')
          (d.push (.oneOf negated (ranges.flatMap fun (first, last) => byteRanges first last))) rest
    | '\x7b' => readFrom rounds classes (some c) d.openGroup text
    | '\x7d' => d.closeGroup?.bind fun d => readFrom rounds classes (some c) d text
    | ',' => readFrom rounds classes (some c) d.comma text
    | '\\' =>
      match text with
      | [] => none
      | e :: text => readFrom rounds classes (some e) (d.pushChar e) text
    | c => readFrom rounds classes (some c) (d.pushChar c) text

def ofText? (text : List Char) : Option Glob :=
  (readFrom (text.length + 1) true none .empty text).map (⟨·⟩)

end Glob

end FSharpWorkspace
