import FSharpWorkspace.LoadDirective
import Mathlib.Data.List.Forall2
import Mathlib.Data.List.TakeWhile
/-!
# The literals on a line

The quotes of a line are paired from left to right (`Encloses`). A reader that looks for the next
literal with something in it does not pair them: if a literal is empty, the quote that closes it
opens the next one. So what is read is what the pairs enclose as long as behind every empty literal
there is no other quote, or one right behind it (`Undisturbed`). Otherwise a text that stands
between two literals is read as one (`Gap`).

`loadDirectives_paired` says this of all lines of a source text.
-/

set_option autoImplicit false

namespace FSharpWorkspace

/-! ## Reading one literal -/

section

variable {before literal rest : List Char}

theorem takeWhile_unquoted (rest : List Char) (h : '"' ∉ literal) :
    (literal ++ '"' :: rest).takeWhile (· ≠ '"') = literal := by
  have hall : ∀ c ∈ literal, decide (c ≠ '"') = true :=
    fun c hc => decide_eq_true fun hq => h (hq ▸ hc)
  rw [List.takeWhile_append_of_pos hall]
  simp

theorem dropWhile_unquoted (rest : List Char) (h : '"' ∉ literal) :
    (literal ++ '"' :: rest).dropWhile (· ≠ '"') = '"' :: rest := by
  have hall : ∀ c ∈ literal, decide (c ≠ '"') = true :=
    fun c hc => decide_eq_true fun hq => h (hq ▸ hc)
  rw [List.dropWhile_append_of_pos hall]
  simp

theorem quotedLiterals_unquoted_append (line : List Char) (h : '"' ∉ before) :
    quotedLiterals (before ++ line) = quotedLiterals line := by
  induction before with
  | nil => rfl
  | cons c before ih =>
      obtain ⟨hc, hb⟩ := not_or.mp (List.mem_cons.not.mp h)
      rw [List.cons_append, quotedLiterals, if_neg (Ne.symm hc), ih hb]

theorem quotedLiterals_unquoted (h : '"' ∉ before) : quotedLiterals before = [] := by
  rw [← List.append_nil before, quotedLiterals_unquoted_append [] h, quotedLiterals]

theorem quotedLiterals_unclosed (h : '"' ∉ rest) : quotedLiterals ('"' :: rest) = [] := by
  have hdrop : rest.dropWhile (· ≠ '"') = [] :=
    List.dropWhile_eq_nil_iff.mpr fun c hc => decide_eq_true fun hq => h (hq ▸ hc)
  rw [quotedLiterals, if_pos rfl, hdrop]

/-- The quote that closes an empty literal may open the next. -/
theorem quotedLiterals_empty (rest : List Char) :
    quotedLiterals ('"' :: '"' :: rest) = quotedLiterals ('"' :: rest) := by
  rw [quotedLiterals, if_pos rfl, List.dropWhile_cons_of_neg (by simp)]
  exact if_pos (by simp)

theorem quotedLiterals_literal (rest : List Char) (h : '"' ∉ literal) (hne : literal ≠ []) :
    quotedLiterals ('"' :: (literal ++ '"' :: rest)) = literal :: quotedLiterals rest := by
  rw [quotedLiterals, if_pos rfl, dropWhile_unquoted rest h, takeWhile_unquoted rest h]
  exact if_neg hne

end

/-! ## Pairs of quotes -/

/-- The quotes of a line, paired from left to right, enclose the texts `contents`. A last quote
without another one encloses nothing. -/
inductive Encloses : List Char → List (List Char) → Prop where
  | unquoted {line : List Char} : '"' ∉ line → Encloses line []
  | unpaired {before after : List Char} :
      '"' ∉ before → '"' ∉ after → Encloses (before ++ '"' :: after) []
  | pair {before literal rest : List Char} {contents : List (List Char)} :
      '"' ∉ before → '"' ∉ literal → Encloses rest contents →
      Encloses (before ++ '"' :: (literal ++ '"' :: rest)) (literal :: contents)

/-- Every line is cut at its quotes in one of three ways. -/
theorem cut_at_quotes (line : List Char) :
    '"' ∉ line ∨ (∃ before after, '"' ∉ before ∧ '"' ∉ after ∧ line = before ++ '"' :: after) ∨
      ∃ before literal rest, '"' ∉ before ∧ '"' ∉ literal ∧
        line = before ++ '"' :: (literal ++ '"' :: rest) := by
  by_cases hline : '"' ∈ line
  · obtain ⟨before, after, rfl, hbefore⟩ := List.eq_append_cons_of_mem hline
    by_cases hafter : '"' ∈ after
    · obtain ⟨literal, rest, rfl, hliteral⟩ := List.eq_append_cons_of_mem hafter
      exact Or.inr (Or.inr ⟨before, literal, rest, hbefore, hliteral, rfl⟩)
    · exact Or.inr (Or.inl ⟨before, after, hbefore, hafter, rfl⟩)
  · exact Or.inl hline

theorem exists_encloses (line : List Char) : ∃ contents, Encloses line contents := by
  induction hn : line.length using Nat.strong_induction_on generalizing line with
  | _ n ih =>
      rcases cut_at_quotes line
        with hline | ⟨before, after, hb, ha, rfl⟩ | ⟨before, literal, rest, hb, hl, rfl⟩
      · exact ⟨[], .unquoted hline⟩
      · exact ⟨[], .unpaired hb ha⟩
      · have hless : rest.length < n := by
          rw [← hn]
          simp only [List.length_append, List.length_cons]
          omega
        obtain ⟨contents, h⟩ := ih _ hless rest rfl
        exact ⟨literal :: contents, .pair hb hl h⟩

/-- Behind an empty literal there is no other quote, or one right behind it. -/
def Undisturbed (line : List Char) : Prop :=
  ∀ before after, line = before ++ '"' :: '"' :: after → before.count '"' % 2 = 0 →
    '"' ∉ after ∨ after.head? = some '"'

/-- The text `gap` stands between two literals. -/
def Gap (line gap : List Char) : Prop :=
  ∃ before after, line = before ++ '"' :: (gap ++ '"' :: after) ∧
    before.count '"' % 2 = 1 ∧ '"' ∉ gap

section

variable {line before before' literal rest rest' gap : List Char} {contents : List (List Char)}

theorem append_quote_inj (hb : '"' ∉ before) (hb' : '"' ∉ before')
    (h : before ++ '"' :: rest = before' ++ '"' :: rest') :
    before = before' ∧ rest = rest' := by
  have htake := congrArg (List.takeWhile (· ≠ '"')) h
  have hdrop := congrArg (List.dropWhile (· ≠ '"')) h
  rw [takeWhile_unquoted _ hb, takeWhile_unquoted _ hb'] at htake
  rw [dropWhile_unquoted _ hb, dropWhile_unquoted _ hb'] at hdrop
  exact ⟨htake, (List.cons.inj hdrop).2⟩

/-- The quotes of a pair count for two. -/
theorem count_pair (hb : '"' ∉ before) (hl : '"' ∉ literal) (front : List Char) :
    (before ++ '"' :: (literal ++ '"' :: front)).count '"' = front.count '"' + 2 := by
  simp only [List.count_append, List.count_cons_self, List.count_eq_zero_of_not_mem hb,
    List.count_eq_zero_of_not_mem hl]
  omega

theorem undisturbed_of_unquoted (h : '"' ∉ line) : Undisturbed line := by
  rintro before after rfl -
  exact absurd (by simp) h

theorem undisturbed_of_unpaired (hb : '"' ∉ before) (hl : '"' ∉ rest) :
    Undisturbed (before ++ '"' :: rest) := by
  rintro front after heq -
  have hcount := congrArg (List.count '"') heq
  simp only [List.count_append, List.count_cons_self, List.count_eq_zero_of_not_mem hb,
    List.count_eq_zero_of_not_mem hl] at hcount
  omega

/-- Whether a line is undisturbed shows at its first literal and behind it. -/
theorem undisturbed_pair_iff (hb : '"' ∉ before) (hl : '"' ∉ literal) :
    Undisturbed (before ++ '"' :: (literal ++ '"' :: rest)) ↔
      (literal = [] → '"' ∉ rest ∨ rest.head? = some '"') ∧ Undisturbed rest := by
  constructor
  · refine fun h => ⟨?_, ?_⟩
    · rintro rfl
      exact h before rest rfl (by rw [List.count_eq_zero_of_not_mem hb])
    · rintro front after rfl heven
      refine h (before ++ '"' :: (literal ++ '"' :: front)) after (by simp) ?_
      rw [count_pair hb hl]
      omega
  · rintro ⟨hfirst, hrest⟩ front after heq heven
    by_cases hfront : '"' ∈ front
    · -- there are two quotes before the empty literal, those of the first pair
      obtain ⟨before', front', rfl, hb'⟩ := List.eq_append_cons_of_mem hfront
      obtain ⟨rfl, htail⟩ := append_quote_inj hb hb' (heq.trans (List.append_assoc _ _ _))
      have hfront' : '"' ∈ front' := by
        by_contra hnone
        simp [List.count_eq_zero_of_not_mem hb, List.count_eq_zero_of_not_mem hnone] at heven
      obtain ⟨literal', front'', rfl, hl'⟩ := List.eq_append_cons_of_mem hfront'
      obtain ⟨rfl, rfl⟩ := append_quote_inj hl hl' (htail.trans (List.append_assoc _ _ _))
      rw [count_pair hb hl] at heven
      exact hrest front'' after rfl (by omega)
    · obtain ⟨-, heq⟩ := append_quote_inj hb hfront heq
      cases literal with
      | nil =>
          obtain ⟨-, rfl⟩ := List.cons.inj heq
          exact hfirst rfl
      | cons c literal => exact absurd ((List.cons.inj heq).1 ▸ List.mem_cons_self) hl

theorem Gap.of_rest (h : Gap rest gap) (hb : '"' ∉ before) (hl : '"' ∉ literal) :
    Gap (before ++ '"' :: (literal ++ '"' :: rest)) gap := by
  obtain ⟨front, after, rfl, hodd, hg⟩ := h
  refine ⟨before ++ '"' :: (literal ++ '"' :: front), after, by simp, ?_, hg⟩
  rw [count_pair hb hl]
  omega

/-- What the pairs of quotes enclose is read, unless it is empty. -/
theorem quotedLiterals_of_undisturbed (h : Encloses line contents) (hu : Undisturbed line) :
    quotedLiterals line = contents.filter (· ≠ []) := by
  induction h with
  | unquoted hline => exact quotedLiterals_unquoted hline
  | unpaired hb ha => exact (quotedLiterals_unquoted_append _ hb).trans (quotedLiterals_unclosed ha)
  | @pair before literal rest contents hb hl hrest ih =>
      obtain ⟨hfirst, hu⟩ := (undisturbed_pair_iff hb hl).mp hu
      have hread := ih hu
      rw [quotedLiterals_unquoted_append _ hb]
      by_cases hempty : literal = []
      · rw [hempty, List.nil_append, quotedLiterals_empty, List.filter_cons_of_neg (by simp),
          ← hread]
        rcases hfirst hempty with hnone | hnext
        · rw [quotedLiterals_unclosed hnone, quotedLiterals_unquoted hnone]
        · -- the quote right behind an empty literal opens the next one for both readings
          obtain ⟨after, rfl⟩ := List.head?_eq_some_iff.mp hnext
          exact quotedLiterals_empty after
      · rw [quotedLiterals_literal rest hl hempty, List.filter_cons_of_pos (by simpa using hempty),
          hread]

/-- Otherwise a text that stands between two literals is read. -/
theorem exists_gap_of_not_undisturbed (h : Encloses line contents) (hu : ¬ Undisturbed line) :
    ∃ gap, gap ≠ [] ∧ Gap line gap ∧ gap ∈ quotedLiterals line := by
  induction h with
  | unquoted hline => exact absurd (undisturbed_of_unquoted hline) hu
  | unpaired hb ha => exact absurd (undisturbed_of_unpaired hb ha) hu
  | @pair before literal rest contents hb hl hrest ih =>
      rw [undisturbed_pair_iff hb hl] at hu
      rw [quotedLiterals_unquoted_append _ hb]
      by_cases hempty : literal = []
      · subst hempty
        rw [List.nil_append, quotedLiterals_empty]
        by_cases hnone : '"' ∈ rest
        · obtain ⟨between, after, rfl, hbetween⟩ := List.eq_append_cons_of_mem hnone
          by_cases hgap : between = []
          · -- nothing stands between this literal and the next
            subst hgap
            obtain ⟨gap, hne, hg, hread⟩ := ih fun hr => hu ⟨fun _ => Or.inr rfl, hr⟩
            exact ⟨gap, hne, hg.of_rest hb hl, (quotedLiterals_empty after).symm ▸ hread⟩
          · refine ⟨between, hgap, ⟨before ++ ['"'], after, by simp, ?_, hbetween⟩, ?_⟩
            · simp [List.count_eq_zero_of_not_mem hb]
            · rw [quotedLiterals_literal after hbetween hgap]
              exact List.mem_cons_self
        · exact absurd ⟨fun _ => Or.inl hnone, undisturbed_of_unquoted hnone⟩ hu
      · obtain ⟨gap, hne, hg, hread⟩ := ih fun hr => hu ⟨fun h => absurd h hempty, hr⟩
        rw [quotedLiterals_literal rest hl hempty]
        exact ⟨gap, hne, hg.of_rest hb hl, List.mem_cons_of_mem _ hread⟩

end

/-! ## Lines that load -/

/-- The line starts with `#load` after blanks, and goes on with `rest`. -/
def StartsLoad (line : String) (rest : List Char) : Prop :=
  ∃ blanks : List Char, (∀ c ∈ blanks, Text.isBlank c = true) ∧
    line.toList = blanks ++ "#load".toList ++ rest

theorem loadRest?_eq_some_iff {line : String} {rest : List Char} :
    loadRest? line = some rest ↔ StartsLoad line rest := by
  unfold loadRest? Text.trimStart StartsLoad
  rw [Text.afterStart?_eq_some_iff]
  constructor
  · intro h
    refine ⟨line.toList.takeWhile Text.isBlank, fun c hc => List.mem_takeWhile_imp hc, ?_⟩
    rw [List.append_assoc, ← h, List.takeWhile_append_dropWhile]
  · rintro ⟨blanks, hblank, hline⟩
    rw [hline, List.append_assoc, List.dropWhile_append_of_pos hblank]
    exact List.dropWhile_cons_of_neg (by decide)

/-- The names that one line loads. -/
structure NamesOn (line : String) (names : List String) : Prop where
  other : (∀ rest, ¬ StartsLoad line rest) → names = []
  paired : ∀ rest, StartsLoad line rest → Undisturbed rest →
    ∃ contents, Encloses rest contents ∧ names = (contents.filter (· ≠ [])).map String.ofList
  disturbed : ∀ rest, StartsLoad line rest → ¬ Undisturbed rest →
    ∃ gap, gap ≠ [] ∧ Gap rest gap ∧ String.ofList gap ∈ names

def namesOn (line : String) : List String :=
  (loadRest? line).toList.flatMap fun rest => (quotedLiterals rest).map String.ofList

theorem namesOn_of_startsLoad {line : String} {rest : List Char} (h : StartsLoad line rest) :
    namesOn line = (quotedLiterals rest).map String.ofList := by
  simp [namesOn, loadRest?_eq_some_iff.mpr h]

theorem namesOn_spec (line : String) : NamesOn line (namesOn line) where
  other h := by
    have hnone : loadRest? line = none :=
      Option.eq_none_iff_forall_ne_some.mpr fun rest hrest =>
        h rest (loadRest?_eq_some_iff.mp hrest)
    simp [namesOn, hnone]
  paired rest h hu := by
    obtain ⟨contents, hc⟩ := exists_encloses rest
    exact ⟨contents, hc, by rw [namesOn_of_startsLoad h, quotedLiterals_of_undisturbed hc hu]⟩
  disturbed rest h hu := by
    obtain ⟨contents, hc⟩ := exists_encloses rest
    obtain ⟨gap, hne, hg, hread⟩ := exists_gap_of_not_undisturbed hc hu
    exact ⟨gap, hne, hg, by rw [namesOn_of_startsLoad h]; exact List.mem_map_of_mem hread⟩

theorem loadDirectives_eq_flatMap (source : String) :
    loadDirectives source = (Text.lines source).flatMap namesOn := by
  unfold loadDirectives namesOn
  induction Text.lines source with
  | nil => rfl
  | cons line lines ih =>
      rw [List.filterMap_cons, List.flatMap_cons, ← ih]
      cases loadRest? line with
      | none => simp
      | some rest => simp

/-- **Load directives are read literal by literal**, line by line, on the lines that start with
`#load` after blanks: what the pairs of quotes enclose, if it is not empty. That is so if behind
every empty literal of the line there is no other quote, or one right behind it. On the other lines
a text that stands between two literals is read as a name. -/
theorem loadDirectives_paired (source : String) :
    ∃ names, loadDirectives source = names.flatten ∧
      List.Forall₂ NamesOn (Text.lines source) names := by
  refine ⟨(Text.lines source).map namesOn, ?_, ?_⟩
  · rw [loadDirectives_eq_flatMap, List.flatMap_def]
  · rw [List.forall₂_map_right_iff, List.forall₂_same]
    exact fun line _ => namesOn_spec line

def emptyFirst : String := "#load \"\" \"a.fsx\""

/-- The pairs of quotes enclose one name, and what is read is the blank between the two literals. -/
theorem loadDirectives_emptyFirst :
    ∃ rest contents, Text.lines emptyFirst = [emptyFirst] ∧
      StartsLoad emptyFirst rest ∧ Encloses rest contents ∧
      (contents.filter (· ≠ [])).map String.ofList = ["a.fsx"] ∧
        loadDirectives emptyFirst = [" "] := by
  have hsecond : Encloses ([' '] ++ '"' :: ("a.fsx".toList ++ '"' :: [])) ["a.fsx".toList] :=
    .pair (by decide) (by decide) (.unquoted (by decide))
  refine ⟨[' '] ++ '"' :: ([] ++ '"' :: ([' '] ++ '"' :: ("a.fsx".toList ++ '"' :: []))),
    _, by decide +kernel,
    ⟨[], by simp, by decide⟩, .pair (by decide) (by decide) hsecond, by decide, by decide +kernel⟩

end FSharpWorkspace
