import CommittedParsing.Value

/-!
# Functions on values

The changes, tests, combinations and folds that grammars apply to their values. On a value of another
shape each of them does nothing, or works on the value's text. One of them may fault: the length of a
span is a difference of positions, which an inverted span does not have.

Main statements:
* `Value.chars_gather` — listing keeps the text;
* `Value.chars_concat`, `Value.chars_cons` — so do joining texts and putting a value in front.
-/

namespace CommittedParsing.Value

/-! ## Changes -/

/-- The text as a value. -/
def asText (v : Value) : Value := .string v.text

/-- The number as a value. -/
def asNumber (v : Value) : Value := .int v.number

/-- The count as a value. -/
def asCount (v : Value) : Value := .int (Int64.ofNat v.count)

/-- The text in capitals; letters other than `a` to `z` stay. -/
def asCapitals (v : Value) : Value := .string (String.ofList (v.chars.map Char.toUpper))

/-- One more than the number. -/
def increment (v : Value) : Value := .int (v.number + 1)

/-- The number with its sign changed. -/
def negate (v : Value) : Value := .int (-v.number)

/-- The first of a pair. -/
def firstOfPair : Value → Value
  | .pair first _ => first
  | v => v

/-- The second of a pair. -/
def secondOfPair : Value → Value
  | .pair _ second => second
  | v => v

/-- A list backwards. -/
def reversed : Value → Value
  | .list items => .list items.reverse
  | v => v

/-- The content of an option, or another value. -/
def orElse (other : Value) : Value → Value
  | .some content => content
  | .none => other
  | v => v

/-- The length of a span; an inverted one is a fault. -/
def spanLength : Value → Except Fault Value
  | .span s => s.length.map fun n => .int (Int64.ofNat n)
  | v => .ok v

/-- Whether a span is empty. -/
def spanEmpty : Value → Value
  | .span s => .bool s.isEmpty
  | v => v

/-! ## Combinations -/

/-- Values as a list. -/
def gather (items : List Value) : Value := .list items

/-- The texts of values as one string. -/
def concat (items : List Value) : Value := .string (String.ofList (items.flatMap chars))

/-- A value in front of a list; in front of another value, the list of the two. -/
def cons (first : Value) : Value → Value
  | .list items => .list (first :: items)
  | second => .list [first, second]

/-- A value behind a list; behind another value, the list of the two. -/
def snoc : Value → Value → Value
  | .list items, last => .list (items ++ [last])
  | first, last => .list [first, last]

/-- An optional value. -/
def ofOption : Option Value → Value
  | Option.some v => .some v
  | Option.none => .none

/-- A value paired with its span. -/
def withSpan : Value × Span → Value
  | (v, s) => .pair v (.span s)

theorem chars_gather (items : List Value) : (gather items).chars = items.flatMap chars :=
  chars_list items

theorem chars_concat (items : List Value) : (concat items).chars = items.flatMap chars := by
  simp only [concat, chars, String.toList_ofList]

theorem chars_cons (first second : Value) : (cons first second).chars = first.chars ++ second.chars := by
  unfold cons
  split <;> simp [chars_list]

/-! ## Folds -/

/-- Two operands in brackets with the operator between them. -/
def inBrackets (operator left right : Value) : Value :=
  .string (String.ofList ('(' :: left.chars ++ (operator.chars ++ (right.chars ++ [')']))))

/-- A power by repeated multiplication, wrapping around. -/
def power (base : Int64) : Nat → Int64
  | 0 => 1
  | n + 1 => power base n * base

/-- Arithmetic on numbers by the text of the operator. Division by zero gives zero, and a power is
zero unless its exponent lies between 0 and 64; an unknown operator gives the right operand. -/
def arithmetic (operator left right : Value) : Value :=
  let a := left.number
  let b := right.number
  .int <| match operator.chars with
    | ['+'] => a + b
    | ['-'] => a - b
    | ['*'] => a * b
    -- truncated toward zero; the one quotient that is too large wraps around
    | ['/'] => if b = 0 then 0 else a / b
    | ['^'] => if 0 ≤ b ∧ b ≤ 64 then power a b.toInt.toNat else 0
    | _ => b

/-! ## Tests -/

/-- The text is one of several. -/
def textIn (texts : List String) (v : Value) : Bool := texts.contains v.text

/-- The number is larger than a bound. -/
def numberAbove (bound : Int64) (v : Value) : Bool := decide (bound < v.number)

/-- The count reaches a bound. -/
def countAtLeast (bound : Int) (v : Value) : Bool := decide (bound ≤ Int.ofNat v.count)

end CommittedParsing.Value
