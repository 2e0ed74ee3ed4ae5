import FSharpWorkspace.Text.Quoted
/-!
# Printing JSON

A `Value` is printed over several lines: every item of a list and every field of an object has a
line of its own, indented by two more spaces than the line that opens the list or object. A list
or object without items stays on its line. Strings escape quotes, backslashes and control
characters, and nothing else.
-/

set_option autoImplicit false

namespace FSharpWorkspace.Json

/-- A value to print. Fields are printed in the order in which they stand. -/
inductive Value where
  | null
  | flag (b : Bool)
  | text (s : String)
  | list (items : List Value)
  | object (fields : List (String × Value))
deriving Repr

/-! ## Strings -/

/-- How a character is written between double quotes. -/
def writtenChar (c : Char) : String :=
  match c with
  | '"' => "\\\""
  | '\\' => "\\\\"
  | '\x08' => "\\b"
  | '\x0c' => "\\f"
  | '\n' => "\\n"
  | '\r' => "\\r"
  | '\t' => "\\t"
  | c => if c.toNat < 0x20 then "\\u" ++ Text.hexPadded 4 c.toNat else c.toString

def written (s : String) : String := "\"" ++ String.join (s.toList.map writtenChar) ++ "\""

/-! ## Values -/

/-- Items between brackets, each on a line of its own; `indent` stands before
the closing bracket. -/
def enclosed (opening closing indent : String) (items : List String) : String :=
  if items.isEmpty then opening ++ closing
  else opening ++ "\n" ++ String.intercalate ",\n" items ++ "\n" ++ indent ++ closing

mutual

/-- A value as it is printed where the line starts with `indent`. -/
def Value.printed (indent : String) : Value → String
  | .null => "null"
  | .flag b => if b then "true" else "false"
  | .text s => written s
  | .list items => enclosed "[" "]" indent (printedItems (indent ++ "  ") items)
  | .object fields => enclosed "\x7b" "\x7d" indent (printedFields (indent ++ "  ") fields)

/-- The lines of the items of a list. -/
def printedItems (indent : String) : List Value → List String
  | [] => []
  | item :: rest => (indent ++ item.printed indent) :: printedItems indent rest

/-- The lines of the fields of an object. -/
def printedFields (indent : String) : List (String × Value) → List String
  | [] => []
  | (name, value) :: rest =>
    (indent ++ written name ++ ": " ++ value.printed indent) :: printedFields indent rest

end

def Value.print (v : Value) : String := v.printed ""

def Value.listOf {α : Type} (f : α → Value) (xs : List α) : Value := .list (xs.map f)

/-- A value that may be absent. -/
def Value.optional {α : Type} (f : α → Value) : Option α → Value
  | some a => f a
  | none => .null

/-! ## Small lemmas -/

theorem length_printedItems (indent : String) (items : List Value) :
    (printedItems indent items).length = items.length := by
  induction items with
  | nil => rfl
  | cons item rest ih => simp [printedItems, ih]

theorem length_printedFields (indent : String) (fields : List (String × Value)) :
    (printedFields indent fields).length = fields.length := by
  induction fields with
  | nil => rfl
  | cons field rest ih => simp [printedFields, ih]

end FSharpWorkspace.Json
