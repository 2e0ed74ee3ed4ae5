import FSharpWorkspace.Solution
import FSharpWorkspace.Proofs.Places
import FSharpWorkspace.Proofs.Scripts.Literals
/-!
# Project lines

A text is made of rows (`Text.MadeOf`): each of them was ended by a line feed, with or without a
carriage return before it, and the last one may stand without either. Whatever the ends are, the
lines read from the text are the rows up to blanks (`Text.map_trim_linesOf`), and blanks around a
row do not show (`Text.trim_surrounded`).

A project line can be read in one way only: no field holds a quote, so the quotes of the line say
where its fields end. `ProjectLine.ofLine?_eq_some_iff` says that reading undoes writing and
reads nothing else.
-/

set_option autoImplicit false

namespace FSharpWorkspace

namespace Text

variable {a b l text row : List Char} {rows : List (List Char)}

/-! ## Blanks at the ends -/

def Blank (b : List Char) : Prop := ∀ c ∈ b, isBlank c = true

instance (b : List Char) : Decidable (Blank b) := List.decidableBAll (fun c => isBlank c = true) b

theorem trimStart_append (l : List Char) (ha : Blank a) : trimStart (a ++ l) = trimStart l :=
  List.dropWhile_append_of_pos ha

theorem trimEnd_append (l : List Char) (hb : Blank b) : trimEnd (l ++ b) = trimEnd l := by
  have hrev : ∀ c ∈ b.reverse, isBlank c = true := fun c hc => hb c (List.mem_reverse.mp hc)
  rw [trimEnd, List.reverse_append, List.dropWhile_append_of_pos hrev]
  rfl

theorem trim_append (l : List Char) (hb : Blank b) : trim (l ++ b) = trim l := by
  have hnil : trimStart b = [] := List.dropWhile_eq_nil_iff.mpr hb
  unfold trim
  rw [trimStart, List.dropWhile_append]
  split
  · next hl =>
      -- all of `l` is blank as well
      rw [← trimStart, hnil, trimStart, List.isEmpty_iff.mp hl]
  · exact trimEnd_append _ hb

/-- Blanks around a row do not show. -/
theorem trim_surrounded (l : List Char) (ha : Blank a) (hb : Blank b) :
    trim (a ++ l ++ b) = trim l := by
  rw [trim_append _ hb, trim, trimStart_append l ha]
  rfl

/-- A row that starts and ends with other characters keeps them. -/
theorem trim_enclosed {c d : Char} (l : List Char) (hc : isBlank c = false)
    (hd : isBlank d = false) :
    trim (c :: (l ++ [d])) = c :: (l ++ [d]) := by
  have hstart : trimStart (c :: (l ++ [d])) = c :: (l ++ [d]) :=
    List.dropWhile_cons_of_neg (by simp [hc])
  have hrev : (c :: (l ++ [d])).reverse = d :: (l.reverse ++ [c]) := by simp
  rw [trim, hstart, trimEnd, hrev, List.dropWhile_cons_of_neg (by simp [hd]), ← hrev,
    List.reverse_reverse]

theorem trim_dropReturn (row : List Char) : trim (dropReturn row) = trim row := by
  unfold dropReturn
  split
  · next h =>
      obtain ⟨init, rfl⟩ := List.getLast?_eq_some_iff.mp h
      rw [List.dropLast_concat, trim_append init (show Blank ['\r'] by decide)]
  · rfl

/-! ## Rows of a text -/

/-- A text is made of rows, each with its end. -/
inductive MadeOf : List Char → List (List Char) → Prop where
  | nil : MadeOf [] []
  | last {row : List Char} : '\n' ∉ row → row ≠ [] → MadeOf row [row]
  | feed {row rest : List Char} {rows : List (List Char)} :
      '\n' ∉ row → MadeOf rest rows → MadeOf (row ++ '\n' :: rest) (row :: rows)
  | returnFeed {row rest : List Char} {rows : List (List Char)} :
      '\n' ∉ row → MadeOf rest rows → MadeOf (row ++ '\r' :: '\n' :: rest) (row :: rows)

theorem linesOf_cons (piece : List Char) {pieces : List (List Char)} (h : pieces ≠ []) :
    linesOf (piece :: pieces) = dropReturn piece :: linesOf pieces := by
  rw [linesOf]
  exact h

/-- **The lines of a text are its rows, up to blanks.** -/
theorem map_trim_linesOf (h : MadeOf text rows) :
    (linesOf (splitOn '\n' text)).map trim = rows.map trim := by
  induction h with
  | nil => rfl
  | last hrow hne =>
      rw [splitOn_of_not_mem hrow, linesOf, if_neg (by simpa using hne)]
  | feed hrow _ ih =>
      rw [splitOn_append _ hrow, linesOf_cons _ (splitOn_ne_nil _ _), List.map_cons, List.map_cons,
        trim_dropReturn, ih]
  | @returnFeed row rest rows hrow _ ih =>
      have hpiece : '\n' ∉ row ++ ['\r'] := by simpa using hrow
      have hcut : row ++ '\r' :: '\n' :: rest = (row ++ ['\r']) ++ '\n' :: rest := by simp
      rw [hcut, splitOn_append _ hpiece, linesOf_cons _ (splitOn_ne_nil _ _), List.map_cons,
        List.map_cons, trim_dropReturn, trim_append row (show Blank ['\r'] by decide), ih]

/-- Rows that are each ended by a line feed. -/
theorem madeOf_flatMap (h : ∀ row ∈ rows, '\n' ∉ row) :
    MadeOf (rows.flatMap (· ++ ['\n'])) rows := by
  induction rows with
  | nil => exact .nil
  | cons row rows ih =>
      rw [List.flatMap_cons, List.append_assoc]
      exact .feed (h row (by simp)) (ih fun other ho => h other (List.mem_cons_of_mem row ho))

end Text

/-! ## Fields -/

theorem quotedField?_eq_some_iff {text field rest : List Char} :
    quotedField? text = some (field, rest) ↔ text = field ++ '"' :: rest ∧ '"' ∉ field := by
  constructor
  · intro h
    have hcut : text.takeWhile (· ≠ '"') ++ text.dropWhile (· ≠ '"') = text :=
      List.takeWhile_append_dropWhile
    unfold quotedField? at h
    split at h
    · cases h
    · next c tail hdrop =>
        obtain ⟨hfield, rfl⟩ := Prod.mk.inj (Option.some.inj h)
        have hc : c = '"' := by
          have hhead := List.head?_dropWhile_not (· ≠ '"') text
          rw [hdrop] at hhead
          simpa using hhead
        rw [hdrop, hfield, hc] at hcut
        constructor
        · exact hcut.symm
        · intro hq
          rw [← hfield] at hq
          simpa using List.mem_takeWhile_imp hq
  · rintro ⟨rfl, hfield⟩
    unfold quotedField?
    rw [dropWhile_unquoted rest hfield, takeWhile_unquoted rest hfield]

namespace ProjectLine

variable {line : List Char} {l : ProjectLine}

/-- A field with its closing quote, between what starts it and what follows. -/
def enclosed (start field rest : List Char) : List Char := start ++ (field ++ '"' :: rest)

/-- A text is read on behind a start and a field exactly in one way. -/
theorem bind_quotedField?_eq_some_iff {α : Type} {start text : List Char}
    {next : List Char × List Char → Option α} {a : α} :
    ((Text.afterStart? start text).bind quotedField?).bind next = some a ↔
      ∃ field rest, text = enclosed start field rest ∧ '"' ∉ field ∧
        next (field, rest) = some a := by
  constructor
  · intro h
    obtain ⟨⟨field, rest⟩, hfield, hnext⟩ := Option.bind_eq_some_iff.mp h
    obtain ⟨after, hafter, hquoted⟩ := Option.bind_eq_some_iff.mp hfield
    obtain ⟨rfl, hquote⟩ := quotedField?_eq_some_iff.mp hquoted
    exact ⟨field, rest, Text.afterStart?_eq_some_iff.mp hafter, hquote, hnext⟩
  · rintro ⟨field, rest, rfl, hquote, hnext⟩
    rw [Text.afterStart?_eq_some_iff.mpr
      (rfl : enclosed start field rest = start ++ (field ++ '"' :: rest)),
      Option.bind_some, quotedField?_eq_some_iff.mpr ⟨rfl, hquote⟩, Option.bind_some, hnext]

/-- No field holds a quote. -/
structure Unquoted (l : ProjectLine) : Prop where
  type : '"' ∉ l.type
  name : '"' ∉ l.name
  path : '"' ∉ l.path
  guid : '"' ∉ l.guid

theorem text_eq (l : ProjectLine) :
    l.text = enclosed "Project(\"".toList l.type (enclosed ") = \"".toList l.name
      (enclosed ", \"".toList l.path (enclosed ", \"".toList l.guid []))) := by
  have hname : "\") = \"".toList = '"' :: ") = \"".toList := by simp
  have hfield : "\", \"".toList = '"' :: ", \"".toList := by simp
  unfold text enclosed
  simp only [hname, hfield, List.append_assoc, List.cons_append]

/-- **Reading a project line undoes writing it**, and nothing else is read as one. -/
theorem ofLine?_eq_some_iff : ofLine? line = some l ↔ line = l.text ∧ l.Unquoted := by
  unfold ofLine?
  simp only [Option.bind_eq_bind, bind_quotedField?_eq_some_iff]
  rw [text_eq]
  constructor
  · rintro ⟨type, _, rfl, htype, name, _, rfl, hname, path, _, rfl, hpath,
      guid, rest, rfl, hguid, hend⟩
    by_cases hrest : rest = []
    · rw [if_pos hrest] at hend
      cases hend
      cases hrest
      exact ⟨rfl, htype, hname, hpath, hguid⟩
    · rw [if_neg hrest] at hend
      cases hend
  · rintro ⟨rfl, htype, hname, hpath, hguid⟩
    exact ⟨l.type, _, rfl, htype, l.name, _, rfl, hname, l.path, _, rfl, hpath, l.guid,
      [], rfl, hguid, if_pos rfl⟩

theorem trim_text (l : ProjectLine) : Text.trim l.text = l.text := by
  obtain ⟨middle, hmiddle⟩ : ∃ middle, l.text = 'P' :: (middle ++ ['"']) := by
    refine ⟨"roject(\"".toList ++ l.type ++ "\") = \"".toList ++ l.name ++
      "\", \"".toList ++ l.path ++ "\", \"".toList ++ l.guid, ?_⟩
    have hstart : "Project(\"".toList = 'P' :: "roject(\"".toList := by simp
    unfold text
    simp only [hstart, List.cons_append]
  rw [hmiddle]
  exact Text.trim_enclosed middle (by decide) (by decide)

/-- The row is no project line, whatever blanks stand around it. -/
def Foreign (row : List Char) : Prop := ∀ l : ProjectLine, l.Unquoted → Text.trim row ≠ l.text

theorem foreign_iff {row : List Char} : Foreign row ↔ ofLine? (Text.trim row) = none := by
  constructor
  · intro h
    refine Option.eq_none_iff_forall_ne_some.mpr fun l hl => ?_
    obtain ⟨htext, hunquoted⟩ := ofLine?_eq_some_iff.mp hl
    exact h l hunquoted htext
  · intro h l hunquoted htext
    rw [ofLine?_eq_some_iff.mpr ⟨htext, hunquoted⟩] at h
    cases h

instance (row : List Char) : Decidable (Foreign row) := decidable_of_iff _ foreign_iff.symm

end ProjectLine

end FSharpWorkspace
