import CommittedParsing.Parser.Character
import CommittedParsing.Parser.Repetition
import CommittedParsing.Value

/-!
# The language of arithmetic

Sums of products of powers of signed numbers, given by a grammar of their texts, with the tree that
each derivation builds. From the loosest to the tightest: `+` and `-` group to the left, `*` and `/`
group to the left, `^` groups to the right, then a sign in front, then a numeral or a sum in
brackets. Blanks may follow every token.

Main statements:
* `Derives.loosen` — what is derived at a level is derived at every looser one;
* `Derives.starts` — a derived text begins with a token and not with a blank;
* `Tree.value_injective` — different trees have different values.
-/

namespace CommittedParsing.Arithmetic

open CommittedParsing.Parser (isBlank)

/-! ## Tokens -/

/-- The blanks behind a token. -/
structure Blanks where
  chars : List Char
  blank : ∀ ch ∈ chars, isBlank ch = true

/-- A run of digits. -/
structure Numeral where
  digits : List Char
  nonempty : digits ≠ []
  digit : ∀ ch ∈ digits, ch.isDigit = true

/-- No digit is a blank. -/
theorem isBlank_of_isDigit {ch : Char} (h : ch.isDigit = true) : isBlank ch = false := by
  cases hblank : isBlank ch with
  | false => rfl
  | true =>
    simp only [isBlank, Bool.or_eq_true, beq_iff_eq] at hblank
    rcases hblank with ((rfl | rfl) | rfl) | rfl <;> cases h

/-- Operators that bind equally tight. -/
inductive Tier where
  | sum
  | product
  | power
deriving DecidableEq, Repr

/-- A token between two operands. -/
inductive Operator where
  | plus
  | minus
  | times
  | divide
  | power
deriving DecidableEq, Repr

namespace Operator

/-- How an operator is written. -/
def symbol : Operator → Char
  | plus => '+'
  | minus => '-'
  | times => '*'
  | divide => '/'
  | power => '^'

/-- How tight an operator binds. -/
def tier : Operator → Tier
  | plus | minus => .sum
  | times | divide => .product
  | power => .power

/-- No operator is written as a blank. -/
theorem isBlank_symbol (op : Operator) : isBlank op.symbol = false := by
  cases op <;> rfl

/-- No operator is written as a digit. -/
theorem isDigit_symbol (op : Operator) : op.symbol.isDigit = false := by
  cases op <;> rfl

/-- An operator is known by its symbol. -/
theorem symbol_injective {op op' : Operator} (h : op.symbol = op'.symbol) : op = op' := by
  revert h
  cases op <;> cases op' <;> decide

end Operator

/-! ## Levels -/

/-- What a part of a text may be derived as: a chain of operators of one tier, an operand with signs
in front of it, or an operand without. -/
inductive Level where
  | tier (tier : Tier)
  | unary
  | atom
deriving DecidableEq, Repr

/-- The level of the operands of a tier. -/
def Tier.operand : Tier → Level
  | sum => .tier .product
  | product => .tier .power
  | power => .unary

/-- How tight a level binds. -/
def Level.rank : Level → Nat
  | tier .sum => 0
  | tier .product => 1
  | tier .power => 2
  | unary => 3
  | atom => 4

/-- The operands of a tier bind tighter than the tier, by one. -/
theorem Tier.rank_operand (tier : Tier) : tier.operand.rank = (Level.tier tier).rank + 1 := by
  cases tier <;> rfl

/-- Nothing binds tighter than an atom. -/
theorem Level.rank_le_atom (level : Level) : level.rank ≤ Level.atom.rank := by
  rcases level with (_ | _ | _) | _ | _ <;> decide

/-- A level is known by its rank. -/
theorem Level.rank_injective {level level' : Level} (h : level.rank = level'.rank) :
    level = level' := by
  rcases level with (_ | _ | _) | _ | _ <;> rcases level' with (_ | _ | _) | _ | _ <;>
    first | rfl | cases h

/-! ## Trees -/

/-- What a text means. -/
inductive Tree where
  | number (numeral : Numeral)
  | negation (operand : Tree)
  | binary (operator : Operator) (left right : Tree)

namespace Tree

/-- The tree as a value: a numeral as its digits, an operator as its symbol. -/
def value : Tree → Value
  | number numeral => .string (String.ofList numeral.digits)
  | negation operand => .node "negation" operand.value
  | binary op left right => .binary (.char op.symbol) left.value right.value

/-- Join operands to the first one, the left ones first. -/
def joinLeft (first : Tree) : List (Operator × Tree) → Tree
  | [] => first
  | (op, operand) :: steps => joinLeft (binary op first operand) steps

/-- Join operands to the first one, the right ones first. -/
def joinRight (first : Tree) : List (Operator × Tree) → Tree
  | [] => first
  | (op, operand) :: steps => binary op first (joinRight operand steps)

/-- One more operand is joined to all that stands before it. -/
theorem joinLeft_append (first : Tree) (steps : List (Operator × Tree)) (op : Operator)
    (operand : Tree) :
    joinLeft first (steps ++ [(op, operand)]) = binary op (joinLeft first steps) operand := by
  induction steps generalizing first with
  | nil => rfl
  | cons step steps ih => exact ih _

/-- Different trees have different values. -/
theorem value_injective {t t' : Tree} (h : t.value = t'.value) : t = t' := by
  -- values of different forms are built by different constructors
  induction t generalizing t' with
  | number numeral =>
    cases t' with
    | number numeral' =>
      rcases numeral with ⟨digits, _, _⟩
      rcases numeral' with ⟨digits', _, _⟩
      have hdigits : String.ofList digits = String.ofList digits' := Value.string.inj h
      have : digits = digits' := by simpa using congrArg String.toList hdigits
      subst this
      rfl
    | negation operand => cases h
    | binary op left right => cases h
  | negation operand ih =>
    cases t' with
    | number numeral => cases h
    | negation operand' => rw [ih (Value.node.inj h).2]
    | binary op left right => cases h
  | binary op left right ihLeft ihRight =>
    cases t' with
    | number numeral => cases h
    | negation operand => cases h
    | binary op' left' right' =>
      rcases Value.binary.inj h with ⟨hop, hleft, hright⟩
      rw [Operator.symbol_injective (Value.char.inj hop), ihLeft hleft, ihRight hright]

end Tree

/-- Sums and products group to the left, powers to the right. -/
def Tier.join : Tier → Tree → List (Operator × Tree) → Tree
  | sum | product => Tree.joinLeft
  | power => Tree.joinRight

/-- Without a step there is only the first operand. -/
theorem Tier.join_nil (tier : Tier) (first : Tree) : tier.join first [] = first := by
  cases tier <;> rfl

/-! ## Derivations -/

/-- An operator, the blanks behind it, and the operand that it joins to what stands before it, with
its text. -/
structure Step where
  operator : Operator
  blanks : Blanks
  text : List Char
  operand : Tree

namespace Step

/-- How a step is written. -/
def spelling (step : Step) : List Char := step.operator.symbol :: (step.blanks.chars ++ step.text)

/-- What a step adds to a chain. -/
def pair (step : Step) : Operator × Tree := (step.operator, step.operand)

end Step

/-- A text is derived at a level, with a tree. -/
inductive Derives : Level → List Char → Tree → Prop where
  /-- An operand, and any number of steps with operators of one tier. -/
  | chain {tier : Tier} {text : List Char} {first : Tree} (steps : List Step) :
    Derives tier.operand text first → (∀ step ∈ steps, step.operator.tier = tier) →
    (∀ step ∈ steps, Derives tier.operand step.text step.operand) →
    Derives (.tier tier) (text ++ steps.flatMap Step.spelling)
      (tier.join first (steps.map Step.pair))
  | negation (blanks : Blanks) {text : List Char} {operand : Tree} :
    Derives .unary text operand → Derives .unary ('-' :: (blanks.chars ++ text)) (.negation operand)
  | atom {text : List Char} {t : Tree} : Derives .atom text t → Derives .unary text t
  | number (numeral : Numeral) (blanks : Blanks) :
    Derives .atom (numeral.digits ++ blanks.chars) (.number numeral)
  | group (blanks blanks' : Blanks) {text : List Char} {t : Tree} : Derives (.tier .sum) text t →
    Derives .atom ('(' :: (blanks.chars ++ (text ++ ')' :: blanks'.chars))) t

/-- A whole text: a sum, with blanks before it. -/
def DerivesProgram (text : List Char) (t : Tree) : Prop :=
  ∃ (blanks : Blanks) (sum : List Char), text = blanks.chars ++ sum ∧ Derives (.tier .sum) sum t

namespace Derives

variable {level level' : Level} {tier : Tier} {text : List Char} {t : Tree}

/-- An operand alone is a chain. -/
theorem chain_of_operand (h : Derives tier.operand text t) : Derives (.tier tier) text t := by
  have hchain := chain [] h (by simp) (by simp)
  simpa [Tier.join_nil] using hchain

/-- What is derived at a level is derived at every looser one. -/
theorem loosen (h : Derives level text t) (hrank : level'.rank ≤ level.rank) :
    Derives level' text t := by
  -- by the number of levels between the two, from the one that is asked for upwards
  generalize hbetween : level.rank - level'.rank = between
  induction between generalizing level' with
  | zero =>
    have hlevel : level = level' := Level.rank_injective (by omega)
    rw [← hlevel]
    exact h
  | succ between ih =>
    cases level' with
    | tier tier =>
      have hoperand := tier.rank_operand
      exact chain_of_operand (ih (by omega) (by omega))
    | unary =>
      have hatom : Derives .atom text t := by
        simp only [Level.rank] at hbetween
        exact ih (by simp only [Level.rank]; omega) (by simp only [Level.rank]; omega)
      exact hatom.atom
    | atom =>
      have := level.rank_le_atom
      omega

/-- A derived text begins with a token and not with a blank; that of an atom not with a sign. -/
theorem starts (h : Derives level text t) :
    ∃ ch rest, text = ch :: rest ∧ isBlank ch = false ∧ (level = .atom → ch ≠ '-') := by
  -- a text begins as its first part does; an atom begins with a digit or a bracket
  induction h with
  | chain _ hfirst _ _ ih _ =>
    rcases ih with ⟨ch, rest, rfl, hblank, _⟩
    exact ⟨ch, _, rfl, hblank, fun h => by cases h⟩
  | negation blanks _ _ => exact ⟨'-', _, rfl, rfl, fun h => by cases h⟩
  | atom _ ih =>
    rcases ih with ⟨ch, rest, rfl, hblank, _⟩
    exact ⟨ch, rest, rfl, hblank, fun h => by cases h⟩
  | number numeral blanks =>
    rcases numeral with ⟨digits, hnonempty, hdigit⟩
    cases digits with
    | nil => exact absurd rfl hnonempty
    | cons d digits =>
      have hd : d.isDigit = true := hdigit d List.mem_cons_self
      refine ⟨d, _, rfl, isBlank_of_isDigit hd, ?_⟩
      rintro _ rfl
      cases hd
  | group _ _ _ _ => exact ⟨'(', _, rfl, rfl, fun _ => by decide⟩

end Derives

end CommittedParsing.Arithmetic
