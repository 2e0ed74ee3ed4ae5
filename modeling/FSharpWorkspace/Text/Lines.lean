/-!
# Lines and blanks of a text

Texts are read as lists of characters. `splitOn` cuts a list at a separator and loses nothing else
(`intercalate_splitOn`); `lines` cuts at line feeds and drops one carriage return before each of
them; `trim` removes the characters with the Unicode property `White_Space` from both ends.
-/

set_option autoImplicit false

namespace FSharpWorkspace.Text

/-! ## Cutting at a separator -/

section Cutting

variable {α : Type} [DecidableEq α]

/-- The pieces between the occurrences of `sep`; there is one more piece than
there are separators. -/
def splitOn (sep : α) : List α → List (List α)
  | [] => [[]]
  | c :: rest =>
    match splitOn sep rest with
    | [] => [[c]]
    | piece :: pieces => if c = sep then [] :: piece :: pieces else (c :: piece) :: pieces

theorem splitOn_ne_nil (sep : α) (text : List α) : splitOn sep text ≠ [] := by
  cases text with
  | nil => simp [splitOn]
  | cons c rest =>
    rw [splitOn]
    split
    · simp
    · split <;> simp

/-- No piece holds the separator. -/
theorem not_mem_of_mem_splitOn (sep : α) (text : List α) :
    ∀ piece ∈ splitOn sep text, sep ∉ piece := by
  induction text with
  | nil => simp [splitOn]
  | cons c rest ih =>
    intro piece hp
    rw [splitOn] at hp
    split at hp
    · rename_i h
      exact absurd h (splitOn_ne_nil sep rest)
    · rename_i first others h
      rw [h] at ih
      split at hp
      · rcases List.mem_cons.1 hp with rfl | hp
        · simp
        · exact ih piece hp
      · rename_i hc
        rcases List.mem_cons.1 hp with rfl | hp
        · have := ih first (by simp)
          simp [this, Ne.symm hc]
        · exact ih piece (by simp [hp])

/-- Putting the separators back gives the text. -/
theorem intercalate_splitOn (sep : α) (text : List α) :
    List.intercalate [sep] (splitOn sep text) = text := by
  induction text with
  | nil => simp [splitOn, List.intercalate]
  | cons c rest ih =>
    rw [splitOn]
    split
    · rename_i h
      exact absurd h (splitOn_ne_nil sep rest)
    · rename_i first others h
      rw [h] at ih
      split
      · rename_i hc
        subst hc
        rw [← ih]
        simp [List.intercalate]
      · cases others with
        | nil => simp_all [List.intercalate]
        | cons o os => simp_all [List.intercalate]

end Cutting

/-! ## Lines -/

def dropReturn (line : List Char) : List Char :=
  if line.getLast? = some '\r' then line.dropLast else line

/-- The lines of a text given by its pieces between line feeds: every piece but the last was ended
by a line feed, and an empty last piece is no line. -/
def linesOf : List (List Char) → List (List Char)
  | [] => []
  | [last] => if last.isEmpty then [] else [last]
  | piece :: pieces => dropReturn piece :: linesOf pieces

/-- The lines of a text. A line ends at a line feed, with an optional carriage return before it; the
last line needs no line feed, and then keeps its carriage return. -/
def lines (text : String) : List String :=
  (linesOf (splitOn '\n' text.toList)).map String.ofList

/-! ## Blanks -/

/-- The code points with the property `White_Space`. -/
def blanks : List Nat :=
  [0x9, 0xA, 0xB, 0xC, 0xD, 0x20, 0x85, 0xA0, 0x1680, 0x2000, 0x2001,
    0x2002, 0x2003, 0x2004, 0x2005,
    0x2006, 0x2007, 0x2008, 0x2009, 0x200A, 0x2028, 0x2029, 0x202F, 0x205F, 0x3000]

/-- Whether a character has the property `White_Space`. -/
def isBlank (c : Char) : Bool := blanks.contains c.toNat

theorem isBlank_of_isWhitespace {c : Char} (h : c.isWhitespace = true) : isBlank c = true := by
  simp only [Char.isWhitespace, Bool.or_eq_true, decide_eq_true_eq] at h
  rcases h with ((h | h) | h) | h <;> subst h <;> decide

def trimStart (text : List Char) : List Char := text.dropWhile isBlank

def trimEnd (text : List Char) : List Char := (text.reverse.dropWhile isBlank).reverse

def trim (text : List Char) : List Char := trimEnd (trimStart text)

/-! ## Parts of a text -/

/-- What follows `start` in `text`, if `text` begins with it. -/
def afterStart? : List Char → List Char → Option (List Char)
  | [], text => some text
  | _ :: _, [] => none
  | c :: start, d :: text => if c = d then afterStart? start text else none

theorem afterStart?_eq_some_iff {start text rest : List Char} :
    afterStart? start text = some rest ↔ text = start ++ rest := by
  induction start generalizing text with
  | nil => simp [afterStart?, eq_comm]
  | cons c start ih =>
    cases text with
    | nil => simp [afterStart?]
    | cons d text =>
      simp only [afterStart?]
      split
      · rename_i h
        simp [ih, h]
      · rename_i h
        simp [Ne.symm h]

/-- Whether `part` occurs in `text` as a block. -/
def occursIn (part : List Char) : List Char → Bool
  | [] => part.isEmpty
  | c :: text => part.isPrefixOf (c :: text) || occursIn part text

theorem occursIn_iff {part text : List Char} : occursIn part text = true ↔ part <:+: text := by
  induction text with
  | nil => simp [occursIn]
  | cons c text ih => simp [occursIn, ih, List.infix_cons_iff]

def mentions (text part : String) : Bool := occursIn part.toList text.toList

def replaceChar (old new : Char) (text : String) : String :=
  String.ofList (text.toList.map fun c => if c = old then new else c)

end FSharpWorkspace.Text
