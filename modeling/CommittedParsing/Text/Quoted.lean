import CommittedParsing.Text.Printable

/-!
# Quoted texts

A text in double quotes, in which the quote, the backslash and everything that does not print as
itself is escaped.
-/

namespace CommittedParsing.Text

/-- The code point of a character in hexadecimal, within braces. -/
def codePointEscape (c : Char) : List Char :=
  ['\\', 'u', '\x7b'] ++ Nat.toDigits 16 c.toNat ++ ['\x7d']

/-- How a character stands in a quoted text. -/
def escape (c : Char) : List Char :=
  match c with
  | '"' => ['\\', '"']
  | '\\' => ['\\', '\\']
  | '\n' => ['\\', 'n']
  | '\t' => ['\\', 't']
  | '\r' => ['\\', 'r']
  | '\x00' => ['\\', '0']
  | c => if printsAsItself c then [c] else codePointEscape c

/-- A text in quotes. -/
def quoted (cs : List Char) : List Char := '"' :: cs.flatMap escape ++ ['"']

end CommittedParsing.Text
