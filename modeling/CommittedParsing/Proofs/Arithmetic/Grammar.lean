import CommittedParsing.Grammar.Forms
import CommittedParsing.Grammar.Meaning
import CommittedParsing.Proofs.Arithmetic.Language

/-!
# The grammar of arithmetic

The parser of arithmetic, one grammar for each level: a token takes the blanks behind it along, the
operators of a tier join their operands by one chain, a sign in front is a rule that refers to
itself, and so is the whole expression, for the brackets. What the parsers of single tokens do is
worked out here, exactly and for all texts; chains and rules are left to soundness and completeness.

Main statements:
* `many_satisfy` — a repetition of single characters takes as many as it can;
* `operators_of_cons`, `rejects_operators` — an operator is taken with the blanks behind it, or
  rejected;
* `numeral_of_cons`, `rejects_numeral` — so is a numeral;
* `denote_tier`, `Tier.fold_value` — a tier is one chain, folded as its trees are joined.
-/

namespace CommittedParsing.Arithmetic

open CommittedParsing.Parser (isBlank)

/-! ## The grammar -/

/-- A grammar, and any blanks behind it. -/
def token (g : Grammar) : Grammar := .skipTrailing g (.many .whitespace)

/-- One character as a token. -/
def symbol (ch : Char) : Grammar := token (.literal ch)

/-- An operator yields its symbol. -/
def Operator.grammar (op : Operator) : Grammar :=
  .map (Arithmetic.symbol op.symbol) fun _ => .ok (.char op.symbol)

/-- A numeral yields its digits. -/
def numeral : Grammar := .map (token (.many1 .digit)) fun digits => .ok digits.asText

/-- A numeral, or an expression in brackets. -/
def atom : Grammar := .or numeral (.surround (symbol '(') (.reference "expression") (symbol ')'))

/-- Signs in front of an atom. -/
def unary : Grammar :=
  .recursive "unary"
    (.or (.seq2 (symbol '-') (.reference "unary") fun _ operand => Value.node "negation" operand) atom)

/-- Any operator of a tier. -/
def Tier.operators : Tier → Grammar
  | sum => .or Operator.plus.grammar Operator.minus.grammar
  | product => .or Operator.times.grammar Operator.divide.grammar
  | power => Operator.power.grammar

/-- Signed numbers, joined from the right. -/
def power : Grammar := .chainRight unary (Tier.operators .power) Value.binary

/-- Powers, joined from the left. -/
def product : Grammar := .chainLeft power (Tier.operators .product) Value.binary

/-- Products, joined from the left. -/
def sum : Grammar := .chainLeft product (Tier.operators .sum) Value.binary

/-- A sum, which may have expressions in it. -/
def expression : Grammar := .recursive "expression" sum

/-- An expression that goes from the first token to the end of the text. -/
def program : Grammar := .seq3 (.many .whitespace) expression .endOfInput fun _ v _ => v

/-- The grammar of a level. -/
def Level.grammar : Level → Grammar
  | tier .sum => sum
  | tier .product => product
  | tier .power => power
  | unary => Arithmetic.unary
  | atom => Arithmetic.atom

/-- The fuel that a level needs beyond the length of the text: signs are a rule of their own. -/
def Level.reserve : Level → Nat
  | tier _ | unary => 1
  | atom => 0

/-- The operands of every tier need one unit of fuel beyond the text. -/
theorem Tier.reserve_operand (tier : Tier) : tier.operand.reserve = 1 := by
  cases tier <;> rfl

/-! ## Characters and blanks -/

variable {call : String → Scope → Parser Value} {scope : Scope} {n : Nat} {c d : Cursor}
  {accepts : Char → Bool} {description : String}

/-- The cursor behind all characters that pass a test. -/
def skipWhile (accepts : Char → Bool) (c : Cursor) : Cursor :=
  c.skip (c.rest.takeWhile accepts) (c.rest.dropWhile accepts)

/-- A character that passes is the first of those that are skipped. -/
theorem skipWhile_of_cons {ch : Char} {rest : List Char} (h : c.rest = ch :: rest)
    (hch : accepts ch = true) : skipWhile accepts c = skipWhile accepts (c.skip [ch] rest) := by
  simp [skipWhile, h, hch]

/-- What is skipped has been read. -/
theorem reads_skipWhile (accepts : Char → Bool) (c : Cursor) :
    c.Reads (c.rest.takeWhile accepts) (skipWhile accepts c) :=
  .skip List.takeWhile_append_dropWhile.symm

/-- The test passes as far as is known, and there it ends. -/
theorem skipWhile_of_append {matched rest : List Char} (h : c.rest = matched ++ rest)
    (hmatched : ∀ ch ∈ matched, accepts ch = true)
    (hrest : ∀ ch ∈ rest.head?, accepts ch = false) :
    c.rest.takeWhile accepts = matched ∧ skipWhile accepts c = c.skip matched rest := by
  have htake : rest.takeWhile accepts = [] ∧ rest.dropWhile accepts = rest := by
    cases rest with
    | nil => exact ⟨rfl, rfl⟩
    | cons ch rest => simp [hrest ch (by simp)]
  simp [skipWhile, h, List.takeWhile_append_of_pos hmatched, List.dropWhile_append_of_pos hmatched,
    htake]

/-- Nothing is skipped where the next character fails the test. -/
theorem skipWhile_of_head (h : ∀ ch ∈ c.rest.head?, accepts ch = false) :
    c.rest.takeWhile accepts = [] ∧ skipWhile accepts c = c :=
  skipWhile_of_append (List.nil_append _).symm (by simp) h

/-- Where a character comes next, it is read if it passes. -/
theorem satisfy_of_cons {ch : Char} {rest : List Char} (h : c.rest = ch :: rest) :
    (Grammar.satisfy accepts description).denote call scope n c =
      if accepts ch then Run.succeed (.char ch) (c.skip [ch] rest)
      else Run.fail (Failure.expected description c.position) := by
  simp only [Grammar.denote, Parser.map, Parser.satisfy_eq_of_cons h]
  split <;> rfl

/-- At the end a character is missing. -/
theorem satisfy_of_nil (h : c.rest = []) :
    (Grammar.satisfy accepts description).denote call scope n c =
      Run.fail (Failure.expected description c.position) := by
  simp only [Grammar.denote, Parser.map, Parser.satisfy_eq_of_nil h, Run.fail_andThen]

/-- The loop of a repetition of single characters. -/
theorem repeat_satisfy {fuel : Nat} {past : List Value} (h : c.rest.length < fuel) :
    Run.loop (Parser.repeatStep ((Grammar.satisfy accepts description).denote call scope) n) fuel
        (past, c) =
      Run.succeed (past.reverse ++ (c.rest.takeWhile accepts).map .char) (skipWhile accepts c) := by
  -- a round takes one accepted character, so that the fuel may go down with the text
  induction fuel generalizing past c with
  | zero => omega
  | succ fuel ih =>
    rw [Parser.repeatFrom_succ]
    cases hrest : c.rest with
    | nil =>
      rw [satisfy_of_nil hrest, (skipWhile_of_head (by simp [hrest])).2]
      show Run.succeed past.reverse c = _
      simp
    | cons ch rest =>
      rw [satisfy_of_cons hrest]
      by_cases hch : accepts ch = true
      · have hlen : (c.skip [ch] rest).rest.length < fuel := by
          simp only [hrest, List.length_cons] at h
          simp only [Cursor.rest_skip]
          omega
        rw [if_pos hch]
        show (if (c.skip [ch] rest).position = c.position then _ else _) = _
        rw [if_neg (c.position_skip_cons_ne ch [] rest), ih hlen, skipWhile_of_cons hrest hch]
        simp [hch]
      · rw [if_neg hch, (skipWhile_of_head (by simpa [hrest] using hch)).2]
        show Run.succeed past.reverse c = _
        simp [hch]

/-- A repetition of single characters takes all of them that pass. -/
theorem many_satisfy (h : c.rest.length < n) :
    (Grammar.many (.satisfy accepts description)).denote call scope n c =
      Run.succeed (.list ((c.rest.takeWhile accepts).map .char)) (skipWhile accepts c) := by
  show (Run.loop _ n ([], c)).andThen _ = _
  rw [repeat_satisfy h]
  rfl

/-! ## Successes and rejections -/

/-- A grammar fails uncommitted, so that an alternative to it may be tried. -/
def Rejects (call : String → Scope → Parser Value) (scope : Scope) (n : Nat) (c : Cursor)
    (g : Grammar) : Prop :=
  ∃ e : Failure, e.consumed = false ∧ g.denote call scope n c = Run.fail e

/-- Where the next character fails the test, or there is none, it is rejected. -/
theorem rejects_satisfy (h : ∀ ch ∈ c.rest.head?, accepts ch = false) :
    Rejects call scope n c (.satisfy accepts description) := by
  refine ⟨Failure.expected description c.position, rfl, ?_⟩
  cases hrest : c.rest with
  | nil => exact satisfy_of_nil hrest
  | cons ch rest =>
    have hch : accepts ch = false := h ch (by simp [hrest])
    rw [satisfy_of_cons hrest, hch]
    rfl

/-- What begins with a grammar that rejects does so itself. -/
theorem Rejects.seq2 {g g' : Grammar} (h : Rejects call scope n c g)
    (combine : Value → Value → Value) : Rejects call scope n c (.seq2 g g' combine) := by
  rcases h with ⟨e, he, hg⟩
  refine ⟨e, he, ?_⟩
  rw [Grammar.denote_seq2, Parser.seq2, hg, Run.fail_andThen]

/-- So is a repetition that has to begin with it. -/
theorem Rejects.many1 {g : Grammar} (h : Rejects call scope n c g) :
    Rejects call scope n c (.many1 g) := by
  rcases h with ⟨e, he, hg⟩
  refine ⟨e, he, ?_⟩
  show ((g.denote call scope n c).andThen _).andThen _ = _
  rw [hg, Run.fail_andThen, Run.fail_andThen]

/-- A function of the value does not change what is rejected. -/
theorem Rejects.map {g : Grammar} (h : Rejects call scope n c g)
    (change : Value → Except Fault Value) : Rejects call scope n c (.map g change) := by
  rcases h with ⟨e, he, hg⟩
  refine ⟨e, he, ?_⟩
  show (g.denote call scope n c).andThen _ = _
  rw [hg, Run.fail_andThen]

/-- Two alternatives are rejected if both are. -/
theorem Rejects.or {g g' : Grammar} (h : Rejects call scope n c g)
    (h' : Rejects call scope n c g') : Rejects call scope n c (.or g g') := by
  rcases h with ⟨e, he, hg⟩
  rcases h' with ⟨e', he', hg'⟩
  refine ⟨e.merge e', he', ?_⟩
  show g.denote call scope n c >>= _ = _
  rw [hg]
  show (if e.consumed then _ else _) = _
  rw [he, hg']
  rfl

/-- A first alternative that is rejected leaves the outcome to the second. -/
theorem Rejects.or_of_success {g g' : Grammar} {v : Value} (h : Rejects call scope n c g)
    (h' : g'.denote call scope n c = Run.succeed v d) :
    (Grammar.or g g').denote call scope n c = Run.succeed v d := by
  rcases h with ⟨e, he, hg⟩
  show g.denote call scope n c >>= _ = _
  rw [hg]
  show (if e.consumed then _ else _) = _
  rw [he, h']
  rfl

/-- A first alternative that succeeds is the outcome. -/
theorem or_of_success {g g' : Grammar} {v : Value}
    (h : g.denote call scope n c = Run.succeed v d) :
    (Grammar.or g g').denote call scope n c = Run.succeed v d := by
  show g.denote call scope n c >>= _ = _
  rw [h]
  rfl

/-! ## Tokens -/

/-- A token takes its text and all blanks behind it. -/
theorem token_of_success {g : Grammar} {v : Value}
    (h : g.denote call scope n c = Run.succeed v d) (hd : d.rest.length < n) :
    (token g).denote call scope n c = Run.succeed v (skipWhile isBlank d) := by
  rw [token, Grammar.skipTrailing, Grammar.denote_seq2, Parser.seq2, h, Run.succeed_andThen,
    Grammar.whitespace, many_satisfy hd]
  rfl

/-- A symbol is taken where it comes next. -/
theorem symbol_of_cons {ch : Char} {rest : List Char} (h : c.rest = ch :: rest)
    (hn : rest.length < n) :
    (symbol ch).denote call scope n c =
      Run.succeed (.char ch) (skipWhile isBlank (c.skip [ch] rest)) := by
  refine token_of_success ?_ hn
  rw [Grammar.literal, satisfy_of_cons h, if_pos (beq_self_eq_true ch)]

/-- And it is rejected where it does not. -/
theorem rejects_symbol {ch : Char} (h : c.rest.head? ≠ some ch) :
    Rejects call scope n c (symbol ch) := by
  refine Rejects.seq2 (rejects_satisfy ?_) _
  rintro ch' hch'
  refine beq_eq_false_iff_ne.2 ?_
  rintro rfl
  exact h hch'

/-- An operator is taken where its symbol comes next. -/
theorem operator_of_cons {op : Operator} {rest : List Char} (h : c.rest = op.symbol :: rest)
    (hn : rest.length < n) :
    op.grammar.denote call scope n c =
      Run.succeed (.char op.symbol) (skipWhile isBlank (c.skip [op.symbol] rest)) := by
  show ((symbol op.symbol).denote call scope n c).andThen _ = _
  rw [symbol_of_cons h hn]
  rfl

/-- The operators of a tier take every symbol of that tier. -/
theorem operators_of_cons {op : Operator} {rest : List Char} (h : c.rest = op.symbol :: rest)
    (hn : rest.length < n) :
    op.tier.operators.denote call scope n c =
      Run.succeed (.char op.symbol) (skipWhile isBlank (c.skip [op.symbol] rest)) := by
  -- where an operator comes second in its tier, the first one does not stand here
  have hother : ∀ other : Operator, other.symbol ≠ op.symbol →
      Rejects call scope n c other.grammar := by
    intro other hne
    exact (rejects_symbol (by simpa [h] using hne.symm)).map _
  have hop : op.grammar.denote call scope n c = _ := operator_of_cons h hn
  cases op with
  | plus => exact or_of_success hop
  | minus => exact (hother .plus (by decide)).or_of_success hop
  | times => exact or_of_success hop
  | divide => exact (hother .times (by decide)).or_of_success hop
  | power => exact hop

/-- And they take nothing else. -/
theorem rejects_operators {tier : Tier}
    (h : ∀ op : Operator, op.tier = tier → c.rest.head? ≠ some op.symbol) :
    Rejects call scope n c tier.operators := by
  have hop : ∀ op : Operator, op.tier = tier → Rejects call scope n c op.grammar :=
    fun op hop => (rejects_symbol (h op hop)).map _
  cases tier with
  | sum => exact (hop .plus rfl).or (hop .minus rfl)
  | product => exact (hop .times rfl).or (hop .divide rfl)
  | power => exact hop .power rfl

/-- A numeral takes all digits that stand there. -/
theorem numeral_of_cons {d : Char} {rest : List Char} (h : c.rest = d :: rest)
    (hd : d.isDigit = true) (hn : rest.length < n) :
    numeral.denote call scope n c =
      Run.succeed (.string (String.ofList (c.rest.takeWhile Char.isDigit)))
        (skipWhile isBlank (skipWhile Char.isDigit c)) := by
  -- the first digit is read apart from the others
  have hmany1 : (Grammar.many1 .digit).denote call scope n c =
      Run.succeed (.list ((c.rest.takeWhile Char.isDigit).map .char))
        (skipWhile Char.isDigit c) := by
    show ((Grammar.digit.denote call scope n c).andThen _).andThen _ = _
    rw [Grammar.digit, satisfy_of_cons h, if_pos hd, Run.succeed_andThen,
      if_neg (c.position_skip_cons_ne d [] rest)]
    show (Run.loop _ n ([Value.char d], c.skip [d] rest)).andThen _ = _
    rw [repeat_satisfy hn, skipWhile_of_cons h hd]
    simp [h, hd, Value.gather]
  have hlen : (skipWhile Char.isDigit c).rest.length < n := by
    have hlength := (reads_skipWhile Char.isDigit (c.skip [d] rest)).length_eq
    rw [Cursor.rest_skip] at hlength
    rw [skipWhile_of_cons h hd]
    omega
  -- behind the digits there may be blanks, which the token skips
  show ((token (.many1 .digit)).denote call scope n c).andThen _ = _
  rw [token_of_success hmany1 hlen, Run.succeed_andThen]
  show Run.succeed (Value.string (String.ofList (Value.list _).chars)) _ = _
  rw [Value.chars_list, List.flatMap_map]
  simp [Value.chars]

/-- A numeral is rejected where there is no digit. -/
theorem rejects_numeral (h : ∀ ch ∈ c.rest.head?, ch.isDigit = false) :
    Rejects call scope n c numeral :=
  ((rejects_satisfy h).many1.seq2 _).map _

/-! ## Chains -/

/-- The value of a chain of a tier. -/
def Tier.fold : Tier → Value → List (Value × Value) → Value
  | sum | product => Parser.foldLeft .binary
  | power => Parser.foldRight .binary

/-- A step of a chain as the chain yields it. -/
def pairValue : Operator × Tree → Value × Value
  | (op, operand) => (.char op.symbol, operand.value)

/-- A chain folds its values from the left as its trees are joined from the left. -/
theorem foldLeft_value (first : Tree) (steps : List (Operator × Tree)) :
    Parser.foldLeft .binary first.value (steps.map pairValue) = (first.joinLeft steps).value := by
  induction steps generalizing first with
  | nil => rfl
  | cons step steps ih => exact ih (.binary step.1 first step.2)

/-- And from the right as they are joined from the right. -/
theorem foldRight_value (first : Tree) (steps : List (Operator × Tree)) :
    Parser.foldRight .binary first.value (steps.map pairValue) = (first.joinRight steps).value := by
  induction steps generalizing first with
  | nil => rfl
  | cons step steps ih =>
    rw [List.map_cons, Parser.foldRight_cons]
    exact congrArg (Value.binary (.char step.1.symbol) first.value) (ih step.2)

/-- A chain folds its values as its trees are joined. -/
theorem Tier.fold_value (tier : Tier) (first : Tree) (steps : List (Operator × Tree)) :
    tier.fold first.value (steps.map pairValue) = (tier.join first steps).value := by
  cases tier with
  | sum => exact foldLeft_value first steps
  | product => exact foldLeft_value first steps
  | power => exact foldRight_value first steps

/-- A tier is a chain of its operators over its operands. -/
theorem denote_tier (tier : Tier) :
    (Level.tier tier).grammar.denote call scope =
      (Parser.operands (tier.operand.grammar.denote call scope)
        (tier.operators.denote call scope)).map fun (first, pairs) => tier.fold first pairs := by
  cases tier with
  | sum => exact Parser.chainLeft_eq _ _ _
  | product => exact Parser.chainLeft_eq _ _ _
  | power => exact Parser.chainRight_eq _ _ _

end CommittedParsing.Arithmetic
