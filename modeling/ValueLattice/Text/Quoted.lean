import ValueLattice.Text.Visible
/-!
# Quoted text

A text is quoted between double quotes. Inside, the quote and the backslash stand behind a
backslash; line feed, carriage return, tab and the null character have letters of their own;
any other hidden character is written by its code point in hexadecimal digits between braces.

* `Text.quote`: the quoted form of a text.
-/

namespace ValueLattice.Text

/-- The quoted form of a character. -/
def quoteChar (c : Char) : List Char :=
  match c with
  | '"' => ['\\', '"']
  | '\\' => ['\\', '\\']
  | '\n' => ['\\', 'n']
  | '\r' => ['\\', 'r']
  | '\t' => ['\\', 't']
  | '\x00' => ['\\', '0']
  | c =>
    if isVisible c then [c]
    else '\\' :: 'u' :: '\x7b' :: Nat.toDigits 16 c.toNat ++ ['\x7d']

/-- The quoted form of a text. -/
def quote (s : String) : String :=
  String.ofList ('"' :: s.toList.flatMap quoteChar ++ ['"'])

end ValueLattice.Text
