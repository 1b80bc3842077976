import CommittedParsing.Proofs.Arithmetic.Grammar
import CommittedParsing.Proofs.Ensures

/-!
# Parsed texts are derived

With enough fuel for the length of the text, the grammar of every level returns, and where it
succeeds it has read a text that is derived at that level, with the tree of its value.

The conditions are those of total correctness: no way of ending without a value is allowed. A chain
reads at least its operator in every round, and a sign or a bracket is read before a rule is entered
again, so what is left to read bounds the rounds and the depth.

Main statements:
* `ensures_tier` — a chain reads an operand and the steps of its tier;
* `ensures_unary` — signs and an atom, by induction on the fuel of the rule;
* `ensures_expression` — an expression, by induction on the depth of the brackets.
-/

namespace CommittedParsing.Arithmetic

open CommittedParsing.Parser Run Outcome

variable {call : String → Scope → Parser Value} {scope : Scope} {n bound : Nat} {c : Cursor}

/-! ## Tokens -/

/-- A token was read, with its blanks. -/
def ReadsToken (c : Cursor) (token : List Char) (c' : Cursor) : Prop :=
  ∃ blanks : Blanks, c.Reads (token ++ blanks.chars) c'

/-- A token has been read when the blanks behind it have been skipped. -/
theorem readsToken_skipWhile {d : Cursor} {cs : List Char} (h : c.Reads cs d) :
    ReadsToken c cs (skipWhile isBlank d) := by
  have hall : ∀ ch ∈ d.rest.takeWhile isBlank, isBlank ch = true :=
    List.all_eq_true.1 List.all_takeWhile
  exact ⟨⟨_, hall⟩, h.trans (reads_skipWhile isBlank d)⟩

/-- What is rejected fails, so that nothing has to hold of a success. -/
theorem Rejects.ensures {g : Grammar} {good : Value → Cursor → Prop}
    (h : Rejects call scope n c g) :
    (g.denote call scope n c).Ensures noAbort (Meets good fun _ => True) := by
  rcases h with ⟨e, _, hg⟩
  rw [hg]
  exact Ensures.of_fail trivial

/-- A symbol that succeeds has read itself. -/
theorem ensures_symbol (ch : Char) (hn : c.rest.length ≤ n) :
    ((symbol ch).denote call scope n c).Ensures noAbort
      (Meets (fun _ d => ReadsToken c [ch] d) fun _ => True) := by
  by_cases hhead : c.rest.head? = some ch
  · rcases List.head?_eq_some_iff.1 hhead with ⟨rest, hrest⟩
    rw [hrest, List.length_cons] at hn
    rw [symbol_of_cons hrest (by omega)]
    exact Ensures.of_succeed (readsToken_skipWhile (.skip hrest))
  · exact (rejects_symbol hhead).ensures

/-- The operators of a tier that succeed have read one of them, which is the value. -/
theorem ensures_operators (tier : Tier) (hn : c.rest.length ≤ n) :
    (tier.operators.denote call scope n c).Ensures noAbort
      (Meets (fun v d => ∃ op : Operator, op.tier = tier ∧ v = .char op.symbol ∧
        ReadsToken c [op.symbol] d) fun _ => True) := by
  by_cases hhead : ∃ op : Operator, op.tier = tier ∧ c.rest.head? = some op.symbol
  · rcases hhead with ⟨op, rfl, hop⟩
    rcases List.head?_eq_some_iff.1 hop with ⟨rest, hrest⟩
    rw [hrest, List.length_cons] at hn
    rw [operators_of_cons hrest (by omega)]
    exact Ensures.of_succeed ⟨op, rfl, rfl, readsToken_skipWhile (.skip hrest)⟩
  · exact (rejects_operators fun op hop heq => hhead ⟨op, hop, heq⟩).ensures

/-- A numeral that succeeds has read the digits that are its value. -/
theorem ensures_numeral (hn : c.rest.length ≤ n) :
    (numeral.denote call scope n c).Ensures noAbort
      (Meets (fun v d => ∃ numeral : Numeral, (Tree.number numeral).value = v ∧
        ReadsToken c numeral.digits d) fun _ => True) := by
  by_cases hhead : ∀ ch ∈ c.rest.head?, ch.isDigit = false
  · exact (rejects_numeral hhead).ensures
  · cases hrest : c.rest with
    | nil => simp [hrest] at hhead
    | cons d rest =>
      have hd : d.isDigit = true := by simpa [hrest] using hhead
      rw [hrest, List.length_cons] at hn
      rw [numeral_of_cons hrest hd (by omega)]
      have hall : ∀ ch ∈ c.rest.takeWhile Char.isDigit, ch.isDigit = true :=
        List.all_eq_true.1 List.all_takeWhile
      exact Ensures.of_succeed ⟨⟨_, by simp [hrest, hd], hall⟩, rfl,
        readsToken_skipWhile (reads_skipWhile Char.isDigit c)⟩

/-! ## Levels -/

/-- The condition on outcomes: a success has read a derived text, and has the value of its tree. -/
def Parses (level : Level) (c : Cursor) : Outcome Value → Prop :=
  Meets (fun v d => ∃ text t, c.Reads text d ∧ Derives level text t ∧ t.value = v) fun _ => True

/-- Expressions in brackets are parsed as far as the text is shorter than a bound. -/
def Grounded (bound : Nat) (scope : Scope) : Prop :=
  ∀ n c, c.rest.length < bound →
    (scope.parser "expression" n c).Ensures noAbort (Parses (.tier .sum) c)

/-- Shorter texts are parsed as well. -/
theorem Grounded.mono {bound' : Nat} (h : Grounded bound scope) (hle : bound' ≤ bound) :
    Grounded bound' scope :=
  fun n c hc => h n c (by omega)

/-- An atom that succeeds has read a numeral, or an expression in brackets. -/
theorem ensures_atom (hscope : Grounded c.rest.length scope) (hn : c.rest.length < n) :
    (Level.atom.grammar.denote call scope n c).Ensures noAbort (Parses .atom c) := by
  have hnumeral : (numeral.denote call scope n c).Ensures noAbort (Parses .atom c) := by
    refine (ensures_numeral (by omega)).mono ?_ fun _ he => he
    rintro v d ⟨numeral, rfl, blanks, hread⟩
    exact ⟨_, _, hread, .number numeral blanks, rfl⟩
  refine ensures_or hnumeral (fun _ _ _ => trivial) fun _ _ _ => ?_
  -- behind the bracket the text is shorter, so the expression in it is parsed
  rw [Grammar.surround, Grammar.denote_seq3]
  refine ensures_seq3 (ensures_symbol '(' (by omega)) (fun _ _ => trivial) ?_
  rintro _ c' ⟨blanks, hopening⟩
  have hlength := hopening.length_eq
  simp only [List.length_append, List.length_singleton] at hlength
  refine (hscope n c' (by omega)).mono ?_ fun _ _ => trivial
  rintro v d ⟨text, t, hread, hderives, rfl⟩
  have hlength' := hread.length_eq
  refine (ensures_symbol ')' (by omega)).mono ?_ fun _ _ => trivial
  rintro _ rest ⟨blanks', hclosing⟩
  refine ⟨_, t, ?_, .group blanks blanks' hderives, rfl⟩
  simpa using hopening.trans (hread.trans hclosing)

/-- Signs and an atom. Each sign enters the rule again, with less fuel and less text. -/
theorem ensures_unary (hscope : Grounded c.rest.length scope) (hn : c.rest.length + 1 < n) :
    (Level.unary.grammar.denote call scope n c).Ensures noAbort (Parses .unary c) := by
  induction n generalizing c with
  | zero => omega
  | succ n ih =>
    -- in the body of the rule its name stands for the rule with the fuel that is left
    let inner : Scope := ("unary", fun _ => unary.denote call scope n) :: scope
    have hnegation : ((Grammar.seq2 (symbol '-') (.reference "unary") fun _ operand =>
        Value.node "negation" operand).denote call inner n c).Ensures noAbort (Parses .unary c) := by
      rw [Grammar.denote_seq2]
      refine ensures_seq2 (ensures_symbol '-' (by omega)) (fun _ _ => trivial) ?_
      rintro _ c' ⟨blanks, hsign⟩
      have hlength := hsign.length_eq
      simp only [List.length_append, List.length_singleton] at hlength
      have hreference : (Grammar.reference "unary").denote call inner n c' =
          unary.denote call scope n c' := by
        simp [inner, Grammar.denote, Scope.parser]
      rw [hreference]
      refine (ih (hscope.mono (by omega)) (by omega)).mono ?_ fun _ _ => trivial
      rintro _ rest ⟨text, t, hread, hderives, rfl⟩
      refine ⟨_, _, ?_, .negation blanks hderives, rfl⟩
      simpa using hsign.trans hread
    have hatom : (Level.atom.grammar.denote call inner n c).Ensures noAbort (Parses .unary c) := by
      have hinner : Grounded c.rest.length inner := by
        unfold Grounded Scope.parser
        rw [Scope.find?_cons_of_ne (by decide)]
        exact hscope
      refine (ensures_atom hinner (by omega)).mono ?_ fun _ _ => trivial
      rintro _ rest ⟨text, t, hread, hderives, rfl⟩
      exact ⟨text, t, hread, hderives.atom, rfl⟩
    show (unary.denote call scope (n + 1) c).Ensures noAbort (Parses .unary c)
    rw [unary, Grammar.denote_recursive_succ]
    exact ensures_or hnegation (fun _ _ _ => trivial) fun _ _ _ => hatom

/-- What the loop of a chain has read so far: steps of its tier, whose pairs are the ones it has
gathered. -/
def ReadsSteps (tier : Tier) (c : Cursor) (pairs : List (Value × Value)) (c' : Cursor) : Prop :=
  ∃ steps : List Step, (∀ step ∈ steps, step.operator.tier = tier) ∧
    (∀ step ∈ steps, Derives tier.operand step.text step.operand) ∧
    pairs = (steps.map Step.pair).map pairValue ∧ c.Reads (steps.flatMap Step.spelling) c'

/-- Before the first round no step has been read. -/
theorem ReadsSteps.nil (tier : Tier) (c : Cursor) : ReadsSteps tier c [] c :=
  ⟨[], by simp, by simp, rfl, .refl c⟩

/-- Each round reads one step more: its operator, and its operand. -/
theorem ReadsSteps.snoc {tier : Tier} {pairs : List (Value × Value)} {c c' d d' : Cursor}
    (h : ReadsSteps tier c pairs c') {op : Operator} (hop : op.tier = tier)
    (hoperator : ReadsToken c' [op.symbol] d) {text : List Char} {t : Tree}
    (hread : d.Reads text d') (hderives : Derives tier.operand text t) :
    ReadsSteps tier c (pairs ++ [(.char op.symbol, t.value)]) d' := by
  rcases h with ⟨steps, htiers, hsteps, rfl, hpast⟩
  rcases hoperator with ⟨blanks, hoperator⟩
  refine ⟨steps ++ [⟨op, blanks, text, t⟩], ?_, ?_, ?_, ?_⟩
  · simpa [or_imp, forall_and, hop] using htiers
  · simpa [or_imp, forall_and, hderives] using hsteps
  · simp [Step.pair, pairValue]
  · simpa [Step.spelling] using hpast.trans (hoperator.trans hread)

/-- A chain reads an operand and the steps of its tier. -/
theorem ensures_tier (tier : Tier)
    (hoperand : ∀ c : Cursor, c.rest.length ≤ bound →
      (tier.operand.grammar.denote call scope n c).Ensures noAbort (Parses tier.operand c))
    (hbound : c.rest.length ≤ bound) (hn : bound < n) :
    ((Level.tier tier).grammar.denote call scope n c).Ensures noAbort (Parses (.tier tier) c) := by
  rw [denote_tier]
  have hchain : (chain (tier.operand.grammar.denote call scope) (tier.operators.denote call scope)
      (fun first => (first, [])) takePair n c).Ensures noAbort
      (Meets (fun read d => ∃ text first d', c.Reads text d' ∧
        Derives tier.operand text first ∧ first.value = read.1 ∧ ReadsSteps tier d' read.2.reverse d)
        fun _ => True) := by
    refine ensures_chain (hoperand c hbound) (fun _ _ => trivial) ?_
    rintro v afterFirst ⟨text, first, hread, hfirst, rfl⟩
    have hlength := hread.length_eq
    -- every round reads a step, and the text that is left bounds the rounds
    refine ensures_chainFrom (I := fun rounds read c' => c'.rest.length < rounds ∧
      c'.rest.length ≤ bound ∧ first.value = read.1 ∧
        ReadsSteps tier afterFirst read.2.reverse c') ?_ ?_ ?_
    · rintro read c' ⟨hnone, _⟩
      omega
    · rintro rounds read c' ⟨hrounds, hbound', hsame, hpast⟩
      refine (ensures_operators tier (by omega)).mono ?_ ?_
      · rintro _ afterOperator ⟨op, hop, rfl, hoperator⟩
        have hlength' : afterOperator.rest.length < c'.rest.length := by
          rcases hoperator with ⟨blanks, hoperator⟩
          have := hoperator.length_eq
          simp only [List.length_append, List.length_singleton] at this
          omega
        refine (hoperand afterOperator (by omega)).mono ?_ fun _ _ => trivial
        rintro _ rest ⟨text, t, hread, hderives, rfl⟩
        have hlength'' := hread.length_eq
        refine ⟨by omega, by omega, hsame, ?_⟩
        rw [List.reverse_cons]
        exact hpast.snoc hop hoperator hread hderives
      · intro _ _
        exact ⟨fun _ => trivial, fun _ => ⟨text, first, afterFirst, hread, hfirst, hsame, hpast⟩⟩
    · exact ⟨by omega, by omega, rfl, .nil tier afterFirst⟩
  have hoperands : (operands (tier.operand.grammar.denote call scope)
      (tier.operators.denote call scope) n c).Ensures noAbort
      (Meets (fun read d => ∃ text first d', c.Reads text d' ∧
        Derives tier.operand text first ∧ first.value = read.1 ∧ ReadsSteps tier d' read.2 d)
        fun _ => True) := ensures_map hchain fun _ _ h => h
  refine ensures_map hoperands ?_
  rintro read d ⟨text, first, d', hread, hfirst, hsame, steps, htiers, hsteps, hpairs, hreadSteps⟩
  refine ⟨_, _, hread.trans hreadSteps, .chain steps hfirst htiers hsteps, ?_⟩
  rw [← tier.fold_value, ← hpairs, hsame]

/-- Every level, as far as expressions in brackets are parsed. -/
theorem ensures_level (level : Level) (hscope : Grounded c.rest.length scope)
    (hn : c.rest.length + level.reserve < n) :
    (level.grammar.denote call scope n c).Ensures noAbort (Parses level c) := by
  cases level with
  | atom => exact ensures_atom hscope hn
  | unary => exact ensures_unary hscope hn
  | tier tier =>
    simp only [Level.reserve] at hn
    have hunary : ∀ c' : Cursor, c'.rest.length ≤ c.rest.length →
        (Level.unary.grammar.denote call scope n c').Ensures noAbort (Parses .unary c') :=
      fun c' hc' => ensures_unary (hscope.mono hc') (by omega)
    -- each tier from the one that binds tighter, on this text and on shorter ones
    have hpower := fun c' hc' => ensures_tier (c := c') .power hunary hc' (by omega)
    have hproduct := fun c' hc' => ensures_tier (c := c') .product hpower hc' (by omega)
    cases tier with
    | power => exact hpower c (Nat.le_refl _)
    | product => exact hproduct c (Nat.le_refl _)
    | sum => exact ensures_tier .sum hproduct (Nat.le_refl _) (by omega)

/-- An expression is parsed, with fuel for its depth. Each bracket enters the rule again, with less
fuel and less text. -/
theorem ensures_expression {k : Nat} (hk : c.rest.length + 2 < k) :
    (expression.denote call [] k c).Ensures noAbort (Parses (.tier .sum) c) := by
  induction k generalizing c with
  | zero => omega
  | succ k ih =>
    rw [expression, Grammar.denote_recursive_succ]
    refine ensures_level (.tier .sum) ?_ (by simp only [Level.reserve]; omega)
    intro n c' hc'
    have hreference : Scope.parser [("expression", fun _ => expression.denote call [] k)]
        "expression" n c' = expression.denote call [] k c' := by
      simp [Scope.parser]
    exact hreference ▸ ih (by omega)

end CommittedParsing.Arithmetic
