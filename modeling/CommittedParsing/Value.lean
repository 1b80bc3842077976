import CommittedParsing.Span

/-!
# Values

What a grammar yields. Every value can be read as a text, as a number and as a count, so that
tests, folds and binders may work on any of them.

Main statements:
* `Value.induct` — induction that gives the hypothesis for every item of a list;
* `Value.chars_list` — the text of a list is the texts of its items one after another.
-/

namespace CommittedParsing

/-- A value yielded by a grammar. -/
inductive Value where
  | unit
  | bool (b : Bool)
  /-- A whole number of 64 bits; arithmetic on it wraps around. -/
  | int (i : Int64)
  | char (c : Char)
  | string (s : String)
  | list (items : List Value)
  | pair (first second : Value)
  | some (content : Value)
  | none
  | span (s : Span)
  /-- Two operands joined by an operator. -/
  | binary (operator left right : Value)
  /-- A value under a tag. -/
  | node (tag : String) (content : Value)

namespace Value

/-! ## Induction -/

/-- Induction on values, with the hypothesis for every item of a list. -/
@[elab_as_elim, induction_eliminator]
theorem induct {motive : Value → Prop} (unit : motive .unit) (bool : ∀ b, motive (.bool b))
    (int : ∀ i, motive (.int i)) (char : ∀ c, motive (.char c)) (string : ∀ s, motive (.string s))
    (list : ∀ items, (∀ item ∈ items, motive item) → motive (.list items))
    (pair : ∀ first second, motive first → motive second → motive (.pair first second))
    (some : ∀ content, motive content → motive (.some content)) (none : motive .none)
    (span : ∀ s, motive (.span s))
    (binary : ∀ operator left right, motive operator → motive left → motive right →
      motive (.binary operator left right))
    (node : ∀ tag content, motive content → motive (.node tag content)) (v : Value) : motive v :=
  Value.rec (motive_1 := motive) (motive_2 := fun items => ∀ item ∈ items, motive item)
    unit bool int char string list pair some none span binary node
    (fun _ h => nomatch h)
    (fun _ _ head tail _ h => by
      cases h with
      | head => exact head
      | tail _ h => exact tail _ h)
    v

/-! ## Text, number and count -/

/-- A whole number in decimal. -/
def decimal (i : Int) : List Char :=
  if i < 0 then '-' :: Nat.toDigits 10 i.natAbs else Nat.toDigits 10 i.natAbs

mutual

/-- The characters of a value in order. A tag does not count, an operator stands between its
operands, and a value without text has none. -/
def chars : Value → List Char
  | .int i => decimal i.toInt
  | .char c => [c]
  | .string s => s.toList
  | .list items => charsOfAll items
  | .pair first second => first.chars ++ second.chars
  | .some content => content.chars
  | .node _ content => content.chars
  | .binary operator left right => left.chars ++ (operator.chars ++ right.chars)
  | .unit | .bool _ | .none | .span _ => []

/-- The characters of several values, one after another. -/
def charsOfAll : List Value → List Char
  | [] => []
  | item :: items => item.chars ++ charsOfAll items

end

/-- The text of a value. -/
def text (v : Value) : String := String.ofList v.chars

/-- The number that the decimal digits of a text make, wrapping around. -/
def digitsNumber (cs : List Char) : Int64 :=
  (cs.filter Char.isDigit).foldl (fun n c => n * 10 + Int64.ofNat (c.toNat - '0'.toNat)) 0

/-- The number of a value: itself, or what the digits of its text make. -/
def number : Value → Int64
  | .int i => i
  | v => digitsNumber v.chars

/-- The count of a value: the items of a list, or the characters of its text. -/
def count : Value → Nat
  | .list items => items.length
  | v => v.chars.length

theorem charsOfAll_eq_flatMap (items : List Value) : charsOfAll items = items.flatMap chars := by
  induction items with
  | nil => simp [charsOfAll]
  | cons item items ih => simp [charsOfAll, ih]

theorem chars_list (items : List Value) : (list items).chars = items.flatMap chars := by
  simp only [chars, charsOfAll_eq_flatMap]

end Value

end CommittedParsing
