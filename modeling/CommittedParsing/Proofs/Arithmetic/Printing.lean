import CommittedParsing.Proofs.Arithmetic.Language

/-!
# Printing trees

A tree is printed as a list of tokens, with brackets around every operand that binds less tightly
than its place asks for. However the tokens are spelled, with blanks behind any of them, the text is
derived with the tree that was printed.

Main statements:
* `Derives.snoc`, `Derives.cons` — one more operand for a chain, where its tier groups to;
* `Spells.derives` — a spelling of a printed tree is derived with that tree.
-/

namespace CommittedParsing.Arithmetic

/-! ## Tokens of trees -/

/-- The level that the left operand of a tier is printed at. -/
def Tier.left : Tier → Level
  | sum => .tier .sum
  | product => .tier .product
  | power => .unary

/-- The level that the right operand of a tier is printed at. -/
def Tier.right : Tier → Level
  | sum => .tier .product
  | product => .tier .power
  | power => .tier .power

/-- Tokens of a part of one level in a place that asks for another: in brackets unless the part
binds at least as tight. -/
def enclose (inside outside : Level) (tokens : List (List Char)) : List (List Char) :=
  if outside.rank ≤ inside.rank then tokens else ['('] :: (tokens ++ [[')']])

/-- The tokens of a tree in a place that asks for a level. -/
def Tree.tokens : Tree → Level → List (List Char)
  | number numeral, _ => [numeral.digits]
  | negation operand, level => enclose .unary level (['-'] :: operand.tokens .unary)
  | binary op left right, level =>
    enclose (.tier op.tier) level
      (left.tokens op.tier.left ++ [op.symbol] :: right.tokens op.tier.right)

/-- A text consists of tokens with blanks behind each of them. -/
inductive Spells : List (List Char) → List Char → Prop where
  | nil : Spells [] []
  | cons (token : List Char) (blanks : Blanks) {tokens : List (List Char)} {text : List Char} :
    Spells tokens text → Spells (token :: tokens) (token ++ (blanks.chars ++ text))

/-- A text that spells some tokens and then others is in two parts. -/
theorem Spells.split {tokens tokens' : List (List Char)} {text : List Char}
    (h : Spells (tokens ++ tokens') text) :
    ∃ before after, text = before ++ after ∧ Spells tokens before ∧ Spells tokens' after := by
  induction tokens generalizing text with
  | nil => exact ⟨[], text, rfl, .nil, h⟩
  | cons token tokens ih =>
    cases h with
    | cons _ blanks h =>
      rcases ih h with ⟨before, after, rfl, hbefore, hafter⟩
      exact ⟨_, after, by simp, .cons token blanks hbefore, hafter⟩

/-! ## Chains that grow -/

namespace Derives

variable {tier : Tier} {text text' : List Char} {t t' : Tree}

/-- A chain that groups to the left gains an operand at its end. -/
theorem snoc (htier : tier.join = Tree.joinLeft) (h : Derives (.tier tier) text t) (op : Operator)
    (hop : op.tier = tier) (blanks : Blanks) (h' : Derives tier.operand text' t') :
    Derives (.tier tier) (text ++ op.symbol :: (blanks.chars ++ text')) (.binary op t t') := by
  cases h with
  | chain steps hfirst htiers hsteps =>
    have hchain := chain (steps ++ [⟨op, blanks, text', t'⟩]) hfirst
      (by simpa [or_imp, forall_and, hop] using htiers)
      (by simpa [or_imp, forall_and, h'] using hsteps)
    rw [htier] at hchain ⊢
    simpa [Step.spelling, Step.pair, Tree.joinLeft_append] using hchain

/-- A chain that groups to the right gains an operand in front. -/
theorem cons (htier : tier.join = Tree.joinRight) (h : Derives tier.operand text t) (op : Operator)
    (hop : op.tier = tier) (blanks : Blanks) (h' : Derives (.tier tier) text' t') :
    Derives (.tier tier) (text ++ op.symbol :: (blanks.chars ++ text')) (.binary op t t') := by
  cases h' with
  | @chain _ text' first steps hfirst htiers hsteps =>
    have hchain := chain (⟨op, blanks, text', first⟩ :: steps) h
      (by simpa [hop] using htiers) (by simpa [hfirst] using hsteps)
    rw [htier] at hchain ⊢
    simpa [Step.spelling, Step.pair, Tree.joinRight] using hchain

/-- Two operands that bind as tight as their places ask for, with an operator between them. -/
theorem join {op : Operator} (h : Derives op.tier.left text t) (blanks : Blanks)
    (h' : Derives op.tier.right text' t') :
    Derives (.tier op.tier) (text ++ op.symbol :: (blanks.chars ++ text')) (.binary op t t') := by
  cases op with
  | plus => exact snoc rfl h .plus rfl blanks h'
  | minus => exact snoc rfl h .minus rfl blanks h'
  | times => exact snoc rfl h .times rfl blanks h'
  | divide => exact snoc rfl h .divide rfl blanks h'
  | power => exact cons rfl (show Derives Tier.power.operand text t from h) .power rfl blanks h'

end Derives

/-! ## Printed trees -/

namespace Spells

variable {level : Level} {text : List Char} {t : Tree}

/-- Brackets make an atom of a part of any level, and an atom fits every place. -/
theorem derives_enclose {inside : Level} {tokens : List (List Char)}
    (htokens : ∀ text, Spells tokens text → Derives inside text t)
    (h : Spells (enclose inside level tokens) text) : Derives level text t := by
  unfold enclose at h
  split at h
  next hrank => exact (htokens text h).loosen hrank
  next =>
    cases h with
    | cons _ blanks h =>
      rcases h.split with ⟨inner, after, rfl, hinner, hafter⟩
      cases hafter with
      | cons _ blanks' hnil =>
        cases hnil
        have hsum : Derives (.tier .sum) inner t :=
          (htokens inner hinner).loosen (Nat.zero_le _)
        have hgroup := (Derives.group blanks blanks' hsum).loosen level.rank_le_atom
        simpa using hgroup

/-- However the tokens of a tree are spelled, the text is derived with that tree. -/
theorem derives (h : Spells (t.tokens level) text) : Derives level text t := by
  -- over the tree, with brackets around an operand where its level asks for them
  induction t generalizing level text with
  | number numeral =>
    cases h with
    | cons _ blanks hnil =>
      cases hnil
      have hnumber := (Derives.number numeral blanks).loosen level.rank_le_atom
      simpa using hnumber
  | negation operand ih =>
    refine derives_enclose ?_ h
    intro text h
    cases h with
    | cons _ blanks h => exact .negation blanks (ih h)
  | binary op left right ihLeft ihRight =>
    refine derives_enclose ?_ h
    intro text h
    rcases h.split with ⟨before, after, rfl, hbefore, hafter⟩
    cases hafter with
    | cons _ blanks hafter => exact (ihLeft hbefore).join blanks (ihRight hafter)

end Spells

end CommittedParsing.Arithmetic
