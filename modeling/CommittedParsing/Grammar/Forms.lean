import CommittedParsing.Grammar.Syntax
import CommittedParsing.Parser.Character
import CommittedParsing.Value.Functions

/-!
# Derived forms of grammars

Forms that are written with the basic ones: classes of characters, sequences that drop or collect
values, choices given as lists, binders, and functions of the cursor.

Main definitions:
* `Grammar.times` — a grammar so many times in a row;
* `Grammar.andThen`, `Grammar.sameText`, `Grammar.andYield`, `Grammar.andRepeat`, `Grammar.andMatch` —
  binders, from one that does not look at the value to one that chooses by its text.
-/

namespace CommittedParsing.Grammar

/-! ## Characters -/

/-- One given character. -/
def literal (expected : Char) : Grammar :=
  satisfy (fun ch => ch == expected) ("'" ++ expected.toString ++ "'")

/-- Any character. -/
def anyChar : Grammar := satisfy (fun _ => true) "any character"

/-- A decimal digit. -/
def digit : Grammar := satisfy Char.isDigit "digit"

/-- A letter from `a` to `z` or `A` to `Z`. -/
def letter : Grammar := satisfy Char.isAlpha "letter"

/-- A letter or a digit. -/
def alphanumeric : Grammar := satisfy Char.isAlphanum "letter or digit"

/-- One blank. -/
def whitespace : Grammar := satisfy Parser.isBlank "whitespace"

/-! ## Sequences -/

/-- Two grammars in order, their values paired. -/
def and (first second : Grammar) : Grammar := seq2 first second Value.pair

/-- A grammar and a trailer whose value is dropped. -/
def skipTrailing (body trailer : Grammar) : Grammar := seq2 body trailer fun v _ => v

/-- A grammar between two delimiters whose values are dropped. -/
def surround (opening inner closing : Grammar) : Grammar :=
  seq3 opening inner closing fun _ v _ => v

/-- Grammars in order, their values in pairs that nest to the left. -/
def allOf (first : Grammar) (others : List Grammar) : Grammar := others.foldl and first

/-- Two grammars of which the first to succeed is meant, and so on to the right. -/
def anyOf (first : Grammar) (others : List Grammar) : Grammar := others.foldl or first

/-- The first of several grammars that does not fail uncommitted. -/
def alternatives (gs : List Grammar) : Grammar := choice gs.length fun i => gs.get i

/-- Negative lookahead that says what it rejects. -/
def notA (body : Grammar) (description : String) : Grammar := not body ("not " ++ description)

/-- A grammar so many times in a row, with the values as a list. -/
def times (body : Grammar) : Nat → Grammar
  | 0 => pure (.list [])
  | n + 1 => seq2 (times body n) body Value.snoc

/-! ## Binders -/

/-- Always the same second grammar. -/
def andThen (first second : Grammar) : Grammar := bind first second.freeNames fun _ => .ok second

/-- The same text once more. -/
def sameText (first : Grammar) : Grammar := bind first [] fun v => .ok (text v.text)

/-- The value, changed. -/
def andYield (first : Grammar) (change : Value → Except Fault Value) : Grammar :=
  bind first [] fun v => (change v).map pure

/-- The second grammar as often as the number of the value says; a negative number is none. -/
def andRepeat (first second : Grammar) : Grammar :=
  bind first second.freeNames fun v => .ok (second.times v.number.toInt.toNat)

/-- The grammar of the first case whose text is that of the value, or another. -/
def andMatch (first : Grammar) (cases : List (String × Grammar)) (otherwise : Grammar) : Grammar :=
  bind first (cases.flatMap (fun (_, g) => g.freeNames) ++ otherwise.freeNames) fun v =>
    .ok ((cases.lookup v.text).getD otherwise)

/-! ## Functions of the cursor -/

/-- The byte position. -/
def here : Grammar := custom fun c => .ok (.success (.int (Int64.ofNat c.position)) c)

/-- The text that is left, without consuming it. -/
def unparsed : Grammar := custom fun c => .ok (.success (.string (String.ofList c.rest)) c)

/-- Back to the start of the source. -/
def rewind : Grammar := custom fun c => .ok (.success .unit (Cursor.start c.source))

/-- So many characters as a text. -/
def take (count : Nat) : Grammar := custom fun c =>
  .ok (if count ≤ c.rest.length then
      .success (.string (String.ofList (c.rest.take count)))
        (c.skip (c.rest.take count) (c.rest.drop count))
    else .failure (Failure.expected (toString count ++ " characters") c.position))

/-- A failure as it is given. -/
def failWith (failure : Failure) : Grammar := custom fun _ => .ok (.failure failure)

end CommittedParsing.Grammar
