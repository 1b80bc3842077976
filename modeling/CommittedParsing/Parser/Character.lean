import CommittedParsing.Parser.Basic

/-!
# Parsers of characters and texts

These parsers look at the text itself. Each of them fails, if it does, with one diagnostic where
it began, and without a commit.

Main statements:
* `Parser.satisfy_eq_of_cons`, `Parser.satisfy_eq_of_nil` — one character is looked at;
* `dropPrefix?_eq_some_iff` — a text matches exactly where it stands at the front.
-/

namespace CommittedParsing

/-! ## Matching a text -/

/-- What follows a text that stands at the front of another. -/
def dropPrefix? : List Char → List Char → Option (List Char)
  | [], cs => some cs
  | _ :: _, [] => none
  | e :: es, c :: cs => if e = c then dropPrefix? es cs else none

/-- A prefix is dropped exactly if the text begins with it. -/
theorem dropPrefix?_eq_some_iff {expected cs rest : List Char} :
    dropPrefix? expected cs = some rest ↔ cs = expected ++ rest := by
  induction expected generalizing cs with
  | nil => simp [dropPrefix?]
  | cons e es ih =>
    cases cs with
    | nil => simp [dropPrefix?]
    | cons c cs =>
      by_cases h : e = c
      · simp [dropPrefix?, h, ih]
      · simp [dropPrefix?, h, Ne.symm h]

namespace Parser

/-! ## Primitive parsers -/

/-- One character that passes a test. -/
def satisfy (accepts : Char → Bool) (description : String) : Parser Char := fun _ c =>
  match c.value? with
  | some ch =>
    if accepts ch then Run.succeed ch c.next
    else Run.fail (Failure.expected description c.position)
  | none => Run.fail (Failure.expected description c.position)

/-- An exact text. The match is atomic: if any character differs, nothing is consumed, so that
words with a common beginning may be alternatives. -/
def text (expected : String) : Parser String := fun _ c =>
  match dropPrefix? expected.toList c.rest with
  | some rest => Run.succeed expected (c.skip expected.toList rest)
  | none => Run.fail (Failure.expected ("\"" ++ expected ++ "\"") c.position)

/-- The end of the text. -/
def endOfInput : Parser Unit := fun _ c =>
  if c.atEnd then Run.succeed () c
  else Run.fail (Failure.expected "end of input" c.position)

/-- At a character the parser asks whether to accept it. -/
theorem satisfy_eq_of_cons {c : Cursor} {ch : Char} {rest : List Char} (h : c.rest = ch :: rest)
    (accepts : Char → Bool) (description : String) (n : Nat) :
    satisfy accepts description n c =
      if accepts ch then Run.succeed ch (c.skip [ch] rest)
      else Run.fail (Failure.expected description c.position) := by
  have hvalue : c.value? = some ch := by simp [Cursor.value?, h]
  simp only [satisfy, hvalue, Cursor.next_of_cons h]

theorem satisfy_eq_of_nil {c : Cursor} (h : c.rest = []) (accepts : Char → Bool)
    (description : String) (n : Nat) :
    satisfy accepts description n c = Run.fail (Failure.expected description c.position) := by
  have hvalue : c.value? = none := by simp [Cursor.value?, h]
  simp only [satisfy, hvalue]

/-! ## Classes of characters -/

/-- One given character. -/
def literal (expected : Char) : Parser Char :=
  satisfy (fun ch => ch == expected) ("'" ++ expected.toString ++ "'")

/-- Any character. -/
def anyChar : Parser Char := satisfy (fun _ => true) "any character"

/-- A decimal digit, `0` to `9`. -/
def digit : Parser Char := satisfy Char.isDigit "digit"

/-- A letter, `a` to `z` or `A` to `Z`. -/
def letter : Parser Char := satisfy Char.isAlpha "letter"

/-- A letter or a digit. -/
def alphanumeric : Parser Char := satisfy Char.isAlphanum "letter or digit"

/-- A blank: space, tab, line feed or carriage return. -/
def isBlank (ch : Char) : Bool := ch == ' ' || ch == '\t' || ch == '\n' || ch == '\r'

/-- One blank. -/
def whitespace : Parser Char := satisfy isBlank "whitespace"

end Parser

end CommittedParsing
