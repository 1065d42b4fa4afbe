import Hinting.Text.Concealed

/-!
# Quoted text

Text inside a message stands between double quotes. Quotes and backslashes are
escaped, the usual controls have short escapes, and every other concealed
character is written as its code point in lower-case hexadecimal digits.
-/

namespace Hinting.Text

/-- The escape `\u` with the code point in braces. -/
def escapeCode (c : Char) : List Char :=
  '\\' :: 'u' :: '\x7b' :: Nat.toDigits 16 c.toNat ++ ['\x7d']

/-- How one character is written inside quotes. -/
def escape (c : Char) : List Char :=
  match c with
  | '\x00' => ['\\', '0']
  | '\t' => ['\\', 't']
  | '\r' => ['\\', 'r']
  | '\n' => ['\\', 'n']
  | '"' => ['\\', '"']
  | '\\' => ['\\', '\\']
  | c => if isConcealed c then escapeCode c else [c]

/-- The text between double quotes. -/
def quoted (text : String) : String :=
  String.ofList ('"' :: text.toList.flatMap escape ++ ['"'])

end Hinting.Text
