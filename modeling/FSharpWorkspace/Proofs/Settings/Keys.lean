import FSharpWorkspace.Settings
import Mathlib.Data.List.TakeWhile
/-!
# Keys that stand for themselves

A key at the top of a configuration file may describe a way through tables and lists instead of
itself (`stepsOf`). A way is a word and, behind it, keys after dots or positions in brackets. So a
key without dots stands for itself unless it is a word with positions behind it
(`stepsOf_of_isPlain`).
-/

set_option autoImplicit false

namespace FSharpWorkspace.Toml

theorem takeWhile_append_drop {α : Type} (test : α → Bool) (l : List α) :
    l.takeWhile test ++ l.drop (l.takeWhile test).length = l := by
  obtain ⟨rest, hrest⟩ := List.takeWhile_prefix test (l := l)
  calc l.takeWhile test ++ l.drop (l.takeWhile test).length
      = l.takeWhile test ++ (l.takeWhile test ++ rest).drop (l.takeWhile test).length := by
        rw [hrest]
    _ = l.takeWhile test ++ rest := by rw [List.drop_left]
    _ = l := hrest

/-! ## Positions -/

/-- A position as it may be spelled behind a word. -/
structure Position where
  before : List Char
  negative : Bool
  digits : List Char
  after : List Char
  blank : ∀ c ∈ before ++ after, c = ' ' ∨ c = '\t'
  digits_ne_nil : digits ≠ []
  isDigit : ∀ c ∈ digits, c.isDigit = true

def Position.value (p : Position) : Int :=
  if p.negative then -Scalar.valueOf 10 p.digits else Scalar.valueOf 10 p.digits

def Position.spelling (p : Position) : List Char :=
  '[' :: (p.before ++ ((if p.negative then ['-'] else []) ++ (p.digits ++ (p.after ++ [']']))))

/-- A bracket that goes on a way starts a position. -/
theorem stepsFrom_bracket {rounds : Nat} {rest : List Char} {steps : List Step}
    (h : stepsFrom (rounds + 1) ('[' :: rest) = some steps) :
    ∃ (p : Position) (more : List Char) (steps' : List Step), '[' :: rest = p.spelling ++ more ∧
      (-0x8000000000000000 ≤ p.value ∧ p.value < 0x8000000000000000) ∧
        stepsFrom rounds more = some steps' := by
  rw [stepsFrom] at h
  split at h
  next negative rest₂ hpair =>
  have hsign : (rest.dropWhile fun c => decide (c = ' ') || decide (c = '\t')) =
      (if negative then ['-'] else []) ++ rest₂ := by
    split at hpair <;> cases hpair
    · assumption
    · rfl
  dsimp only at h
  generalize hi : (if negative = true then -(Scalar.valueOf 10 (rest₂.takeWhile Char.isDigit) : Int)
    else (Scalar.valueOf 10 (rest₂.takeWhile Char.isDigit) : Int)) = i at h
  split at h
  · -- no digits
    cases h
  next hdigits =>
  split at h
  · -- a position outside 64 bits
    cases h
  next hbounds =>
  split at h
  next more heq =>
    obtain ⟨steps', hsteps, -⟩ := Option.map_eq_some_iff.mp h
    let p : Position := {
      before := rest.takeWhile fun c => decide (c = ' ') || decide (c = '\t')
      negative
      digits := rest₂.takeWhile Char.isDigit
      after :=
        (rest₂.drop (rest₂.takeWhile Char.isDigit).length).takeWhile fun c =>
          decide (c = ' ') || decide (c = '\t')
      blank := by
        intro c hc
        rcases List.mem_append.mp hc with hc | hc <;> simpa using List.mem_takeWhile_imp hc
      digits_ne_nil := by simpa using hdigits
      isDigit := fun c hc => List.mem_takeWhile_imp hc }
    refine ⟨p, more, steps', ?_, ?_, hsteps⟩
    · have hbefore : rest = p.before ++ ((if negative then ['-'] else []) ++ rest₂) :=
        hsign ▸ List.takeWhile_append_dropWhile.symm
      have hdigits : rest₂ = p.digits ++ rest₂.drop p.digits.length :=
        (takeWhile_append_drop _ rest₂).symm
      have hafter : rest₂.drop p.digits.length = p.after ++ ']' :: more := by
        rw [← heq]
        exact List.takeWhile_append_dropWhile.symm
      calc '[' :: rest
          = '[' :: (p.before ++
            ((if negative then ['-'] else []) ++ (p.digits ++ (p.after ++ ']' :: more)))) := by
            rw [← hafter, ← hdigits, ← hbefore]
        _ = p.spelling ++ more := by simp [Position.spelling, p]
    · have hp : p.value = i := hi
      omega
  · cases h

/-- What follows the first word of a way without dots is made of positions. -/
theorem stepsFrom_positions {rounds : Nat} {text : List Char} {steps : List Step}
    (h : stepsFrom rounds text = some steps) (hdot : '.' ∉ text) :
    ∃ positions : List Position, text = positions.flatMap Position.spelling ∧
      ∀ p ∈ positions, -0x8000000000000000 ≤ p.value ∧ p.value < 0x8000000000000000 := by
  induction rounds generalizing text steps with
  | zero =>
      cases text with
      | nil => exact ⟨[], rfl, nofun⟩
      | cons c rest => cases h
  | succ rounds ih =>
      cases text with
      | nil => exact ⟨[], rfl, nofun⟩
      | cons c rest =>
          obtain ⟨hc, hrest⟩ := not_or.mp (List.mem_cons.not.mp hdot)
          by_cases hbracket : c = '['
          · subst hbracket
            obtain ⟨p, more, steps', htext, hbounds, hmore⟩ := stepsFrom_bracket h
            have hdot' : '.' ∉ more := by
              intro hm
              exact hdot (htext ▸ List.mem_append_right _ hm)
            obtain ⟨positions, rfl, hall⟩ := ih hmore hdot'
            refine ⟨p :: positions, htext, fun q hq => ?_⟩
            rcases List.mem_cons.mp hq with rfl | hq
            · exact hbounds
            · exact hall q hq
          · -- any other character ends the way
            rw [stepsFrom.eq_def] at h
            split at h
            all_goals simp_all

/-! ## Plain keys -/

/-- The key has no dots and is no word with positions of 64 bits behind it. -/
structure IsPlain (key : String) : Prop where
  undotted : '.' ∉ key.toList
  unpositioned : ∀ (word : List Char) (positions : List Position), word ≠ [] →
    (∀ c ∈ word, Reader.isBare c = true) → positions ≠ [] →
    (∀ p ∈ positions, -0x8000000000000000 ≤ p.value ∧ p.value < 0x8000000000000000) →
    key.toList ≠ word ++ positions.flatMap Position.spelling

/-- A plain key stands for itself. -/
theorem stepsOf_of_isPlain {key : String} (h : IsPlain key) : stepsOf key = [.key key] := by
  have hkey := takeWhile_append_drop Reader.isBare key.toList
  unfold stepsOf
  dsimp only
  split
  · rfl
  · next hword =>
    split
    · next steps hsteps =>
        have hdot : '.' ∉ key.toList.drop (key.toList.takeWhile Reader.isBare).length := fun hm =>
          h.undotted (hkey ▸ List.mem_append_right _ hm)
        obtain ⟨positions, htext, hbounds⟩ := stepsFrom_positions hsteps hdot
        cases positions with
        | nil =>
            -- the whole key is one word
            rw [List.flatMap_nil] at htext
            rw [htext] at hsteps
            rw [htext, List.append_nil] at hkey
            have hnil : steps = [] := by
              unfold stepsFrom at hsteps
              exact (Option.some.inj hsteps).symm
            rw [hnil, hkey, String.ofList_toList]
        | cons p positions =>
            have hne := h.unpositioned (key.toList.takeWhile Reader.isBare)
              (p :: positions) (by simpa using hword)
              (fun c hc => List.mem_takeWhile_imp hc) (List.cons_ne_nil _ _) hbounds
            rw [← htext, hkey] at hne
            exact absurd rfl hne
    · rfl

/-- A key of one word is plain. -/
theorem isPlain_of_bare {key : String}
    (h : ∀ c ∈ key.toList, Reader.isBare c = true) : IsPlain key where
  undotted hm := absurd (h _ hm) (by decide)
  unpositioned word positions _ _ hne _ hkey := by
    cases positions with
    | nil => exact hne rfl
    | cons p positions =>
        have hbracket : '[' ∈ key.toList := by
          rw [hkey]
          simp [Position.spelling]
        exact absurd (h _ hbracket) (by decide)

end FSharpWorkspace.Toml
