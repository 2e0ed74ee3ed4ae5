import FSharpWorkspace.Text.Visible
/-!
# Quoted text

A text between double quotes, in which everything that a reader could not see or could mistake is
escaped. The escapes are those for quotes, backslashes and line ends, and otherwise the code point
in hexadecimal digits.
-/

set_option autoImplicit false

namespace FSharpWorkspace.Text

/-! ## Hexadecimal digits -/

def hexDigits (n : Nat) : String := String.ofList (Nat.toDigits 16 n)

def hexPadded (width n : Nat) : String := "".pushn '0' (width - (hexDigits n).length) ++ hexDigits n

/-! ## Quoting -/

/-- How a character is written between double quotes. -/
def quotedChar (c : Char) : String :=
  match c with
  | '\x00' => "\\0"
  | '\t' => "\\t"
  | '\n' => "\\n"
  | '\r' => "\\r"
  | '"' => "\\\""
  | '\\' => "\\\\"
  | c => if isVisible c then c.toString else "\\u\x7b" ++ hexDigits c.toNat ++ "\x7d"

def quoted (text : String) : String := "\"" ++ String.join (text.toList.map quotedChar) ++ "\""

end FSharpWorkspace.Text
