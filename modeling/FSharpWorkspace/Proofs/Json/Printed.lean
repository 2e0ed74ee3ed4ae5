import FSharpWorkspace.Json.Printer
import FSharpWorkspace.Proofs.Json.Strings
/-!
# What is printed says the value

A printed value is a text of the grammar, and whoever reads it finds the value again
(`Value.exists_doc_print`). Where a line ends and how far it is indented are blanks
between the tokens.
-/

set_option autoImplicit false

namespace FSharpWorkspace.Json

/-! ## What a document says -/

mutual

/-- The value that a document says. Values to print have no numbers. -/
def Doc.value? : Doc → Option Value
  | .null => some .null
  | .flag b => some (.flag b)
  | .number _ => none
  | .string s => s.text?.map .text
  | .list _ items => (itemValues? items).map .list
  | .object _ members => (memberValues? members).map .object

def itemValues? : List (Item Doc) → Option (List Value)
  | [] => some []
  | ⟨_, value, _⟩ :: rest => value.value?.bind fun v => (itemValues? rest).map (v :: ·)

def memberValues? : List (Member Doc) → Option (List (String × Value))
  | [] => some []
  | ⟨_, name, _, _, value, _⟩ :: rest =>
    name.text?.bind fun n => value.value?.bind fun v => (memberValues? rest).map ((n, v) :: ·)

end

/-! ## Strings -/

/-- The escapes that are printed with a mark of their own. -/
def Escape.printed : List Escape :=
  [.quote, .backslash, .backspace, .formFeed, .lineFeed, .carriageReturn, .tab]

/-- A character as it is printed. -/
def Piece.printed (c : Char) : Piece :=
  match Escape.printed.find? (·.char = c) with
  | some e => .escape e
  | none => .ofChar c

def Literal.printed (text : String) : Literal := text.toList.map Piece.printed

/-- Control characters with no mark of their own are printed as units. -/
theorem encode_writtenChar_control :
    ∀ n : Fin 32,
      Utf8.encode (writtenChar (Char.ofNat n)) = (Piece.printed (Char.ofNat n)).bytes := by
  decide +kernel

/-- A mark stands for a control character, or for what would end or bend a string. -/
theorem char_of_mem_printed : ∀ e ∈ Escape.printed,
    e.char.toNat < 0x20 ∨ e.char = '"' ∨ e.char = '\\' := by
  decide

theorem encode_writtenChar (c : Char) :
    Utf8.encode (writtenChar c) = (Piece.printed c).bytes := by
  by_cases hcontrol : c.toNat < 0x20
  · have hc := encode_writtenChar_control ⟨c.toNat, hcontrol⟩
    rwa [Char.ofNat_toNat] at hc
  by_cases hquote : c = '"'
  · subst hquote
    decide
  by_cases hslash : c = '\\'
  · subst hslash
    decide
  have hescape : Escape.printed.find? (·.char = c) = none := by
    refine List.find?_eq_none.mpr fun e he hc => ?_
    obtain rfl := of_decide_eq_true hc
    rcases char_of_mem_printed e he with h | h | h
    · exact hcontrol h
    · exact hquote h
    · exact hslash h
  have hwritten : writtenChar c = c.toString := by
    unfold writtenChar
    split
    all_goals first | exact if_neg hcontrol | simp_all
  have hplain : Piece.printed c = .plain c ⟨Nat.not_lt.mp hcontrol, hquote, hslash⟩ := by
    rw [Piece.printed, hescape]
    exact dif_pos ⟨Nat.not_lt.mp hcontrol, hquote, hslash⟩
  rw [hwritten, hplain, Piece.bytes]
  simp [Utf8.encode]

theorem bytes_printed (text : String) :
    (Literal.printed text).bytes = Utf8.encode (written text) := by
  have hinner : (Literal.printed text).inner =
      Utf8.encode (String.join (text.toList.map writtenChar)) := by
    rw [Utf8.encode_join, List.flatMap_map, Literal.inner, Literal.printed, List.flatMap_map]
    simp only [encode_writtenChar]
  have hquote : Utf8.encode "\"" = [0x22] := by decide
  rw [written, Utf8.encode_append, Utf8.encode_append, Literal.bytes, hinner, hquote]
  rfl

theorem chars?_printed (c : Char) (rest : Literal) :
    Literal.chars? (Piece.printed c :: rest) = (Literal.chars? rest).map (c :: ·) := by
  rw [Piece.printed]
  cases hescape : Escape.printed.find? (·.char = c) with
  | none => exact Literal.chars?_ofChar c rest
  | some e =>
      have hc : e.char = c := by simpa using List.find?_some hescape
      rw [Literal.chars?, hc]

theorem text?_printed (text : String) : (Literal.printed text).text? = some text :=
  Literal.text?_map chars?_printed text

/-! ## Values -/

/-- Parts on lines of their own, from the opening bracket to the closing one. -/
theorem encode_enclosed (opening closing : String) {indent : String} {parts : List String}
    (hparts : parts ≠ []) :
    Utf8.encode (enclosed opening closing indent parts) = Utf8.encode opening ++
      (0x0A :: (Utf8.encode (String.intercalate ",\n" parts) ++
        0x0A :: (Utf8.encode indent ++ Utf8.encode closing))) := by
  have hempty : parts.isEmpty = false := by simpa using hparts
  have hfeed : Utf8.encode "\n" = [0x0A] := by decide
  simp [enclosed, hempty, Utf8.encode_append, hfeed]

theorem encode_enclosed_nil {opening closing indent : String} :
    Utf8.encode (enclosed opening closing indent []) =
      Utf8.encode opening ++ Utf8.encode closing :=
  Utf8.encode_append opening closing

/-- The bytes of parts on lines of their own, but for the first line feed. -/
theorem encode_intercalate (part : String) {parts : List String} (hparts : parts ≠ []) :
    Utf8.encode (String.intercalate ",\n" (part :: parts)) =
      Utf8.encode part ++ 0x2C :: 0x0A :: Utf8.encode (String.intercalate ",\n" parts) := by
  have hcomma : Utf8.encode ",\n" = [0x2C, 0x0A] := by decide
  rw [String.intercalate_cons_of_ne_nil hparts, Utf8.encode_append, Utf8.encode_append, hcomma]
  simp

theorem encode_deeper {indent : String} {gap : Blanks} (h : Utf8.encode indent = gap.bytes) :
    Utf8.encode (indent ++ "  ") = Blanks.bytes (gap ++ [.space, .space]) := by
  rw [Utf8.encode_append, h, Blanks.bytes, Blanks.bytes, List.map_append]
  rfl

/-- A field is its name as a string, a colon and a blank, and its value. -/
theorem encode_field (indent name : String) (value : Value) :
    Utf8.encode (indent ++ written name ++ ": " ++ value.printed indent) =
      Utf8.encode indent ++ ((Literal.printed name).bytes ++
        0x3A :: 0x20 :: Utf8.encode (value.printed indent)) := by
  have hcolon : Utf8.encode ": " = [0x3A, 0x20] := by decide
  rw [Utf8.encode_append, Utf8.encode_append, Utf8.encode_append, ← bytes_printed, hcolon]
  simp

mutual

/-- On a line with any indent, a printed value is a document that says it. -/
theorem Value.exists_doc : ∀ (v : Value) {indent : String} {gap : Blanks},
    Utf8.encode indent = gap.bytes →
      ∃ d : Doc, d.bytes = Utf8.encode (v.printed indent) ∧ d.value? = some v
  | .null, _, _, _ => ⟨.null, by rw [Value.printed]; decide, rfl⟩
  | .flag b, _, _, _ => ⟨.flag b, by rw [Value.printed]; cases b <;> decide, rfl⟩
  | .text s, _, _, _ =>
      ⟨.string (.printed s), bytes_printed s, by rw [Doc.value?, text?_printed, Option.map_some]⟩
  | .list [], _, _, _ => ⟨.list [] [], by
      rw [Value.printed, printedItems, encode_enclosed_nil]
      decide, rfl⟩
  | .object [], _, _, _ => ⟨.object [] [], by
      rw [Value.printed, printedFields, encode_enclosed_nil]
      decide, rfl⟩
  | .list (item :: items), indent, gap, h => by
      obtain ⟨docs, hbytes, hvalues⟩ :=
        exists_items (item :: items) (by simp) true gap (encode_deeper h)
      refine ⟨.list [] docs, ?_, by rw [Doc.value?, hvalues, Option.map_some]⟩
      rw [Value.printed, encode_enclosed "[" "]" (by simp [printedItems]), Doc.bytes, hbytes, h]
      have hbrackets : Utf8.encode "[" = [0x5B] ∧ Utf8.encode "]" = [0x5D] := by decide
      rw [hbrackets.1, hbrackets.2]
      simp [Blanks.bytes, comma]
  | .object (field :: fields), indent, gap, h => by
      obtain ⟨docs, hbytes, hvalues⟩ :=
        exists_members (field :: fields) (by simp) true gap (encode_deeper h)
      refine ⟨.object [] docs, ?_, by rw [Doc.value?, hvalues, Option.map_some]⟩
      rw [Value.printed, encode_enclosed _ _ (by simp [printedFields]), Doc.bytes, hbytes, h]
      have hbraces : Utf8.encode "\x7b" = [0x7B] ∧ Utf8.encode "\x7d" = [0x7D] := by decide
      rw [hbraces.1, hbraces.2]
      simp [Blanks.bytes, comma]

/-- The items of a list. The last one is followed by the end of its line and the indent of the
bracket. -/
theorem exists_items : ∀ items : List Value, items ≠ [] → ∀ (first : Bool) (gap : Blanks)
    {inner : String} {innerGap : Blanks}, Utf8.encode inner = innerGap.bytes →
      ∃ docs : List (Item Doc), itemsBytes first docs = comma first ++
        (0x0A :: (Utf8.encode (String.intercalate ",\n" (printedItems inner items)) ++
          0x0A :: gap.bytes)) ∧ itemValues? docs = some items
  | [], h, _, _, _, _, _ => absurd rfl h
  | [item], _, first, gap, inner, innerGap, hinner => by
      obtain ⟨d, hbytes, hvalue⟩ := item.exists_doc hinner
      refine ⟨[⟨.lineFeed :: innerGap, d, .lineFeed :: gap⟩], ?_, ?_⟩
      · rw [printedItems, printedItems, String.intercalate_singleton, Utf8.encode_append, hinner,
          itemsBytes, hbytes]
        simp [itemsBytes, Blanks.bytes, Blank.byte]
      · rw [itemValues?, hvalue]
        rfl
  | item :: next :: items, _, first, gap, inner, innerGap, hinner => by
      obtain ⟨d, hbytes, hvalue⟩ := item.exists_doc hinner
      obtain ⟨docs, hrest, hvalues⟩ := exists_items (next :: items) (by simp) false gap hinner
      refine ⟨⟨.lineFeed :: innerGap, d, []⟩ :: docs, ?_, ?_⟩
      · have hnext : printedItems inner (next :: items) ≠ [] := by simp [printedItems]
        rw [printedItems, encode_intercalate _ hnext, Utf8.encode_append, hinner, itemsBytes,
          hbytes, hrest]
        simp [Blanks.bytes, Blank.byte, comma]
      · rw [itemValues?, hvalue, hvalues]
        rfl

/-- The fields of an object, in the same way. -/
theorem exists_members : ∀ fields : List (String × Value), fields ≠ [] →
    ∀ (first : Bool) (gap : Blanks) {inner : String} {innerGap : Blanks},
      Utf8.encode inner = innerGap.bytes →
      ∃ docs : List (Member Doc), membersBytes first docs = comma first ++
        (0x0A :: (Utf8.encode (String.intercalate ",\n" (printedFields inner fields)) ++
          0x0A :: gap.bytes)) ∧ memberValues? docs = some fields
  | [], h, _, _, _, _, _ => absurd rfl h
  | [(name, value)], _, first, gap, inner, innerGap, hinner => by
      obtain ⟨d, hbytes, hvalue⟩ := value.exists_doc hinner
      refine ⟨[⟨.lineFeed :: innerGap, .printed name, [], [.space], d, .lineFeed :: gap⟩], ?_, ?_⟩
      · rw [printedFields, printedFields, String.intercalate_singleton, encode_field, hinner,
          membersBytes, hbytes]
        simp [membersBytes, Blanks.bytes, Blank.byte]
      · rw [memberValues?, text?_printed, hvalue]
        rfl
  | (name, value) :: next :: fields, _, first, gap, inner, innerGap, hinner => by
      obtain ⟨d, hbytes, hvalue⟩ := value.exists_doc hinner
      obtain ⟨docs, hrest, hvalues⟩ := exists_members (next :: fields) (by simp) false gap hinner
      refine ⟨⟨.lineFeed :: innerGap, .printed name, [], [.space], d, []⟩ :: docs, ?_, ?_⟩
      · have hnext : printedFields inner (next :: fields) ≠ [] := by
          obtain ⟨name', value'⟩ := next
          simp [printedFields]
        rw [printedFields, encode_intercalate _ hnext, encode_field, hinner, membersBytes, hbytes,
          hrest]
        simp [Blanks.bytes, Blank.byte, comma]
      · rw [memberValues?, text?_printed, hvalue, hvalues]
        rfl

end

end FSharpWorkspace.Json
