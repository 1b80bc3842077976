import CommittedParsing.Proofs.Arithmetic.Grammar

/-!
# Derived texts are parsed

A derived text is taken by the grammar of its level wherever it stands, with the value of its tree,
as long as nothing behind it could belong to it: no blank, no digit, and no operator that binds as
tight as the level or tighter.

The proof is by induction on the derivation. What follows an operand inside a chain is an operator
of the tier of the chain, and those do not belong to the operand; so a chain never takes less or more
than was derived, and no step commits where another derivation would have gone on.

Main statements:
* `Stops.steps` — what may follow a chain, or a step of it, may follow its operands;
* `pairs_taken` — the loop of a chain takes the steps that were derived;
* `Derives.taken`, `Derives.taken_by_expression` — a derived text is taken.
-/

namespace CommittedParsing.Arithmetic

open CommittedParsing.Parser (isBlank)

variable {call : String → Scope → Parser Value} {scope : Scope} {k n bound : Nat} {c : Cursor}

/-! ## What may follow -/

/-- What follows does not belong to a part of a level. -/
def Stops (level : Level) (rest : List Char) : Prop :=
  ∀ ch ∈ rest.head?, isBlank ch = false ∧ ch.isDigit = false ∧
    ∀ op : Operator, level.rank ≤ (Level.tier op.tier).rank → ch ≠ op.symbol

namespace Stops

variable {level level' : Level} {tier : Tier} {rest : List Char}

/-- At the end of the text nothing goes on. -/
theorem nil : Stops level [] := by
  intro ch hch
  cases hch

/-- A closing bracket belongs to what is around it, at any level. -/
theorem bracket : Stops level (')' :: rest) := by
  intro ch hch
  cases hch
  refine ⟨rfl, rfl, ?_⟩
  intro op _
  cases op <;> decide

/-- What does not belong to a level does not belong to a tighter one, which has fewer operators. -/
theorem tighten (h : Stops level rest) (hrank : level.rank ≤ level'.rank) : Stops level' rest := by
  intro ch hch
  rcases h ch hch with ⟨hblank, hdigit, hsymbol⟩
  exact ⟨hblank, hdigit, fun op hop => hsymbol op (by omega)⟩

/-- Behind an operand of a chain stands an operator of the tier, or what stands behind the chain. -/
theorem steps {steps : List Step} (h : Stops (.tier tier) rest)
    (htiers : ∀ step ∈ steps, step.operator.tier = tier) :
    Stops tier.operand (steps.flatMap Step.spelling ++ rest) := by
  have hrank := tier.rank_operand
  cases steps with
  | nil => exact h.tighten (by omega)
  | cons step steps =>
    intro ch hch
    have hstep : step.operator.tier = tier := htiers step List.mem_cons_self
    obtain rfl : step.operator.symbol = ch := by simpa [Step.spelling] using hch
    refine ⟨step.operator.isBlank_symbol, step.operator.isDigit_symbol, ?_⟩
    intro op hop hsymbol
    -- the same symbol is the same operator, and that one binds less tight than the operands
    rw [← Operator.symbol_injective hsymbol, hstep] at hop
    omega

end Stops

/-- All blanks are skipped that stand behind a token, if no blank follows them. -/
theorem skipWhile_blanks {blanks : Blanks} {rest : List Char} (h : c.rest = blanks.chars ++ rest)
    (hrest : ∀ ch ∈ rest.head?, isBlank ch = false) :
    skipWhile isBlank c = c.skip blanks.chars rest :=
  (skipWhile_of_append h blanks.blank hrest).2

/-- So a derived text ends the blanks that stand before it. -/
theorem Derives.head_not_blank {level : Level} {text : List Char} {t : Tree}
    (h : Derives level text t) (rest : List Char) :
    ∀ ch ∈ (text ++ rest).head?, isBlank ch = false := by
  rcases h.starts with ⟨first, _, rfl, hblank, _⟩
  intro ch hch
  cases hch
  exact hblank

/-! ## Texts that are taken -/

/-- A text is taken, with the value of a tree, wherever it stands in a text that is not too long
with nothing behind it that belongs to it. -/
def Taken (level : Level) (text : List Char) (t : Tree) (bound : Nat)
    (p : Cursor → Run (Outcome Value)) : Prop :=
  ∀ c rest, c.rest = text ++ rest → Stops level rest → c.rest.length ≤ bound →
    p c = Run.succeed t.value (c.skip text rest)

/-- Brackets hold an expression that is run with some fuel. -/
def Tied (call : String → Scope → Parser Value) (k : Nat) (scope : Scope) : Prop :=
  scope.parser "expression" = fun _ => expression.denote call [] k

/-- The scope of an expression ties the expressions in its brackets. -/
theorem tied_self (call : String → Scope → Parser Value) (k : Nat) :
    Tied call k [("expression", fun _ => expression.denote call [] k)] := by
  simp [Tied, Scope.parser]

/-- The loop of a chain takes the steps that were derived. -/
theorem pairs_taken {tier : Tier} {steps : List Step} {operand : Parser Value}
    (htiers : ∀ step ∈ steps, step.operator.tier = tier)
    (hsteps : ∀ step ∈ steps, Derives tier.operand step.text step.operand)
    (htaken : ∀ step ∈ steps, Taken tier.operand step.text step.operand bound (operand n))
    {fuel : Nat} {first : Value} {past : List (Value × Value)} {rest : List Char}
    (h : c.rest = steps.flatMap Step.spelling ++ rest) (hrest : Stops (.tier tier) rest)
    (hbound : c.rest.length ≤ bound) (hn : bound < n) (hfuel : c.rest.length < fuel) :
    Run.loop (Parser.chainStep (tier.operators.denote call scope) operand Parser.takePair n) fuel
        ((first, past), c) =
      Run.succeed (first, ((steps.map Step.pair).map pairValue).reverse ++ past)
        (c.skip (steps.flatMap Step.spelling) rest) := by
  induction steps generalizing fuel past c with
  | nil =>
    -- what stands behind the chain is no operator of its tier
    obtain ⟨fuel, rfl⟩ : ∃ f, fuel = f + 1 := ⟨fuel - 1, by omega⟩
    have hreject : Rejects call scope n c tier.operators := by
      refine rejects_operators ?_
      intro op hop hsymbol
      rw [h] at hsymbol
      exact (hrest op.symbol hsymbol).2.2 op (by simp [hop]) rfl
    rcases hreject with ⟨e, he, hfail⟩
    rw [Parser.chainFrom_succ, hfail]
    show (if e.consumed then _ else _) = _
    rw [he]
    show Run.succeed (first, past) c = Run.succeed (first, past) (c.skip [] rest)
    have hc : c.skip [] rest = c := by
      rw [← show c.rest = rest from h, Cursor.skip_nil]
    rw [hc]
  | cons step steps ih =>
    obtain ⟨fuel, rfl⟩ : ∃ f, fuel = f + 1 := ⟨fuel - 1, by omega⟩
    obtain rfl : step.operator.tier = tier := htiers step List.mem_cons_self
    -- the operator with its blanks, the operand, and then the loop goes on with the other steps
    let tail := steps.flatMap Step.spelling ++ rest
    let c' := c.skip (step.operator.symbol :: step.blanks.chars) (step.text ++ tail)
    have hrest' : c.rest =
        step.operator.symbol :: (step.blanks.chars ++ (step.text ++ tail)) := by
      rw [h]
      simp [Step.spelling, tail]
    have hlength : c.rest.length = step.blanks.chars.length + (step.text ++ tail).length + 1 := by
      rw [hrest']
      simp only [List.length_cons, List.length_append]
    have hoperator : step.operator.tier.operators.denote call scope n c =
        Run.succeed (.char step.operator.symbol) c' := by
      rw [operators_of_cons hrest' (by simp only [List.length_append] at hlength ⊢; omega),
        skipWhile_blanks rfl ((hsteps step List.mem_cons_self).head_not_blank tail),
        Cursor.skip_skip]
      rfl
    have hoperand : operand n c' =
        Run.succeed step.operand.value (c'.skip step.text tail) := by
      refine htaken step List.mem_cons_self c' tail rfl ?_ ?_
      · exact hrest.steps fun other hother => htiers other (List.mem_cons_of_mem _ hother)
      · show (step.text ++ tail).length ≤ bound
        omega
    rw [Parser.chainFrom_succ, hoperator]
    show ((operand n c').commit.andThen _) = _
    rw [hoperand]
    show Run.loop _ fuel ((first, pairValue step.pair :: past), c'.skip step.text tail) = _
    refine (ih (fun other hother => htiers other (List.mem_cons_of_mem _ hother))
      (fun other hother => hsteps other (List.mem_cons_of_mem _ hother))
      (fun other hother => htaken other (List.mem_cons_of_mem _ hother)) rfl ?_ ?_).trans ?_
    · simp only [List.length_append, Cursor.rest_skip] at hlength ⊢
      omega
    · simp only [List.length_append, Cursor.rest_skip] at hlength ⊢
      omega
    · simp [c', Step.spelling]

/-! ## One rule of the language at a time -/

section Rules

variable {text : List Char} {t : Tree} {m : Nat}

/-- A chain is taken if its operands are. -/
theorem taken_chain {tier : Tier} {steps : List Step}
    (hfirst : Taken tier.operand text t bound (tier.operand.grammar.denote call scope n))
    (htiers : ∀ step ∈ steps, step.operator.tier = tier)
    (hsteps : ∀ step ∈ steps, Derives tier.operand step.text step.operand)
    (htaken : ∀ step ∈ steps, Taken tier.operand step.text step.operand bound
      (tier.operand.grammar.denote call scope n)) (hn : bound < n) :
    Taken (.tier tier) (text ++ steps.flatMap Step.spelling) (tier.join t (steps.map Step.pair))
      bound ((Level.tier tier).grammar.denote call scope n) := by
  intro c rest hrest hstops hbound
  -- an operand ends where the first operator of its tier begins
  have hoperand : tier.operand.grammar.denote call scope n c =
      Run.succeed t.value (c.skip text (steps.flatMap Step.spelling ++ rest)) := by
    refine hfirst c _ ?_ (hstops.steps htiers) hbound
    rw [hrest, List.append_assoc]
  have hlength : (steps.flatMap Step.spelling ++ rest).length ≤ bound := by
    rw [hrest] at hbound
    simp only [List.length_append] at hbound ⊢
    omega
  rw [denote_tier]
  show (((tier.operand.grammar.denote call scope n c).andThen _).andThen _).andThen _ = _
  rw [hoperand]
  show ((Run.loop _ n ((t.value, []), c.skip text _)).andThen _).andThen _ = _
  rw [pairs_taken htiers hsteps htaken rfl hstops hlength hn (Nat.lt_of_le_of_lt hlength hn),
    List.append_nil, Cursor.skip_skip]
  show Run.succeed (tier.fold t.value ((steps.map Step.pair).map pairValue).reverse.reverse) _ = _
  rw [List.reverse_reverse, tier.fold_value]

/-- A sign takes a unit of fuel, with which what stands behind it has been taken. -/
theorem taken_negation (blanks : Blanks) (h : Derives .unary text t)
    (htaken : ∀ b < bound, Taken .unary text t b (Level.unary.grammar.denote call scope m))
    (hm : bound ≤ m) :
    Taken .unary ('-' :: (blanks.chars ++ text)) (.negation t) bound
      (Level.unary.grammar.denote call scope (m + 1)) := by
  intro c rest hrest hstops hbound
  let inner : Scope := ("unary", fun _ => unary.denote call scope m) :: scope
  let c' := c.skip ('-' :: blanks.chars) (text ++ rest)
  have hcons : c.rest = '-' :: (blanks.chars ++ (text ++ rest)) := by simp [hrest]
  have hlength : c.rest.length = blanks.chars.length + (text ++ rest).length + 1 := by
    rw [hcons, List.length_cons, List.length_append]
  -- the blanks behind the sign end where the operand begins
  have hsign : (symbol '-').denote call inner m c = Run.succeed (.char '-') c' := by
    rw [symbol_of_cons hcons (by rw [List.length_append]; omega),
      skipWhile_blanks rfl (h.head_not_blank rest), Cursor.skip_skip]
    rfl
  -- the recursive call has one unit of fuel less, and a shorter text to parse
  have hoperand : (Grammar.reference "unary").denote call inner m c' =
      Run.succeed t.value (c'.skip text rest) := by
    have hreference : (Grammar.reference "unary").denote call inner m c' =
        unary.denote call scope m c' := by
      simp [inner, Grammar.denote, Scope.parser]
    rw [hreference]
    exact htaken (text ++ rest).length (by omega) c' rest rfl hstops (Nat.le_refl _)
  -- with a sign in front, the first alternative is the one that succeeds
  show unary.denote call scope (m + 1) c = _
  rw [unary, Grammar.denote_recursive_succ]
  refine or_of_success ?_
  rw [Grammar.denote_seq2]
  show ((symbol '-').denote call inner m c).andThen _ = _
  rw [hsign]
  show ((Grammar.reference "unary").denote call inner m c').commit.andThen _ = _
  rw [hoperand]
  show Run.succeed (Value.node "negation" t.value) (c'.skip text rest) = _
  simp [c', Tree.value]

/-- An atom is taken as the operand with signs that has none: it does not begin with a sign. -/
theorem taken_atom (h : Derives .atom text t)
    (htaken : Taken .atom text t bound (Level.atom.grammar.denote call
      (("unary", fun _ => Level.unary.grammar.denote call scope m) :: scope) m)) :
    Taken .unary text t bound (Level.unary.grammar.denote call scope (m + 1)) := by
  intro c rest hrest hstops hbound
  -- an atom does not begin with a sign, so the first alternative is out
  have hsign : Rejects call (("unary", fun _ => unary.denote call scope m) :: scope) m c
      (symbol '-') := by
    refine rejects_symbol ?_
    rcases h.starts with ⟨first, _, rfl, _, hfirst⟩
    rw [hrest]
    intro heq
    exact hfirst rfl (Option.some.inj heq)
  show unary.denote call scope (m + 1) c = _
  rw [unary, Grammar.denote_recursive_succ]
  exact (hsign.seq2 _).or_of_success (htaken c rest hrest (hstops.tighten (by decide)) hbound)

/-- A numeral is taken as a whole, with the blanks behind it. -/
theorem taken_number (numeral : Numeral) (blanks : Blanks) (hn : bound < n) :
    Taken .atom (numeral.digits ++ blanks.chars) (.number numeral) bound
      (Level.atom.grammar.denote call scope n) := by
  intro c rest hrest hstops hbound
  -- behind the digits stands a blank, or what stands behind the numeral
  have hbehind : ∀ ch ∈ (blanks.chars ++ rest).head?, ch.isDigit = false := by
    intro ch hch
    cases hblanks : blanks.chars with
    | nil =>
      rw [hblanks] at hch
      exact (hstops ch hch).2.1
    | cons blank others =>
      rw [hblanks] at hch
      obtain rfl : blank = ch := Option.some.inj hch
      have hblank : isBlank blank = true := blanks.blank blank (by simp [hblanks])
      cases hdigit : blank.isDigit with
      | false => rfl
      | true => simp [isBlank_of_isDigit hdigit] at hblank
  have hrest' : c.rest = numeral.digits ++ (blanks.chars ++ rest) := by
    rw [hrest, List.append_assoc]
  have hdigits := skipWhile_of_append hrest' numeral.digit hbehind
  cases hcons : numeral.digits with
  | nil => exact absurd hcons numeral.nonempty
  | cons d digits =>
    have hd : d.isDigit = true := numeral.digit d (by simp [hcons])
    have hlength : (digits ++ (blanks.chars ++ rest)).length < n := by
      rw [hrest', hcons] at hbound
      simp only [List.cons_append, List.length_cons] at hbound
      omega
    refine or_of_success ?_
    rw [numeral_of_cons (by rw [hrest', hcons]; rfl) hd hlength, hdigits.1, hdigits.2,
      skipWhile_blanks rfl fun ch hch => (hstops ch hch).1, Cursor.skip_skip, hcons]
    simp only [Tree.value, hcons]

/-- An expression is taken if its sum is, in its own scope. -/
theorem taken_expression
    (htaken : Taken (.tier .sum) text t bound ((Level.tier .sum).grammar.denote call
      [("expression", fun _ => expression.denote call [] k)] k)) :
    Taken (.tier .sum) text t bound (expression.denote call [] (k + 1)) := by
  intro c rest hrest hstops hbound
  rw [expression, Grammar.denote_recursive_succ]
  exact htaken c rest hrest hstops hbound

/-- An expression in brackets is shorter than its text, and is taken with the fuel that is left. -/
theorem taken_group (blanks blanks' : Blanks) (h : Derives (.tier .sum) text t)
    (htied : Tied call k scope)
    (htaken : ∀ b < bound, Taken (.tier .sum) text t b (expression.denote call [] k))
    (hn : bound < n) :
    Taken .atom ('(' :: (blanks.chars ++ (text ++ ')' :: blanks'.chars))) t bound
      (Level.atom.grammar.denote call scope n) := by
  intro c rest hrest hstops hbound
  let closing := ')' :: (blanks'.chars ++ rest)
  let c' := c.skip ('(' :: blanks.chars) (text ++ closing)
  have hcons : c.rest = '(' :: (blanks.chars ++ (text ++ closing)) := by
    rw [hrest]
    simp [closing]
  have hlength : c.rest.length =
      blanks.chars.length + text.length + (blanks'.chars ++ rest).length + 2 := by
    rw [hcons]
    simp only [closing, List.length_cons, List.length_append]
    omega
  -- the three parts of a group, each from where the one before it has ended
  have hopening : (symbol '(').denote call scope n c = Run.succeed (.char '(') c' := by
    have hlt : (blanks.chars ++ (text ++ closing)).length < n := by
      rw [hcons, List.length_cons] at hbound
      omega
    rw [symbol_of_cons hcons hlt, skipWhile_blanks rfl (h.head_not_blank closing),
      Cursor.skip_skip]
    rfl
  have hexpression : (Grammar.reference "expression").denote call scope n c' =
      Run.succeed t.value (c'.skip text closing) := by
    show scope.parser "expression" n c' = _
    rw [htied]
    refine htaken (text ++ closing).length ?_ c' closing rfl .bracket (Nat.le_refl _)
    simp only [closing, List.length_append, List.length_cons] at hlength ⊢
    omega
  have hclosing : (symbol ')').denote call scope n (c'.skip text closing) =
      Run.succeed (.char ')') ((c'.skip text closing).skip (')' :: blanks'.chars) rest) := by
    rw [symbol_of_cons rfl (by omega), skipWhile_blanks rfl fun ch hch => (hstops ch hch).1,
      Cursor.skip_skip]
    rfl
  -- a bracket is no digit, so that the alternative before the group rejects it
  have hnumeral : Rejects call scope n c numeral := by
    refine rejects_numeral ?_
    rw [hcons]
    rintro _ ⟨⟩
    rfl
  refine hnumeral.or_of_success ?_
  rw [Grammar.surround, Grammar.denote_seq3]
  show ((symbol '(').denote call scope n c).andThen _ = _
  rw [hopening]
  show ((Grammar.reference "expression").denote call scope n c').commit.andThen _ = _
  rw [hexpression]
  show ((symbol ')').denote call scope n (c'.skip text closing)).commit.andThen _ = _
  rw [hclosing]
  show Run.succeed t.value _ = _
  simp [c']

end Rules

/-! ## All derivations -/

/-- A derived text is taken by the grammar of its level. Signs and brackets cost a unit of fuel
each, and they are themselves part of the text. -/
theorem Derives.taken {level : Level} {text : List Char} {t : Tree} (h : Derives level text t)
    (htied : Tied call k scope) (hk : bound + 2 ≤ k) (hn : bound + level.reserve < n) :
    Taken level text t bound (level.grammar.denote call scope n) := by
  induction h generalizing scope n k bound with
  | @chain tier text first steps hfirst htiers hsteps ihFirst ihSteps =>
    have hn' : bound + tier.operand.reserve < n := by
      rw [tier.reserve_operand]
      exact hn
    exact taken_chain (ihFirst htied hk hn') htiers hsteps
      (fun step hstep => ihSteps step hstep htied hk hn') (by omega)
  | negation blanks h ih =>
    simp only [Level.reserve] at hn ih
    obtain ⟨m, rfl⟩ : ∃ m, n = m + 1 := ⟨n - 1, by omega⟩
    exact taken_negation blanks h (fun b hb => ih htied (by omega) (by omega)) (by omega)
  | atom h ih =>
    simp only [Level.reserve] at hn ih
    obtain ⟨m, rfl⟩ : ∃ m, n = m + 1 := ⟨n - 1, by omega⟩
    refine taken_atom h (ih ?_ hk (by omega))
    -- the rule of signs in front of the scope does not hide the expression
    unfold Tied Scope.parser
    rw [Scope.find?_cons_of_ne (by decide)]
    exact htied
  | number numeral blanks => exact taken_number numeral blanks hn
  | group blanks blanks' h ih =>
    simp only [Level.reserve] at hn ih
    obtain ⟨j, rfl⟩ : ∃ j, k = j + 1 := ⟨k - 1, by omega⟩
    refine taken_group blanks blanks' h htied (fun b hb => taken_expression ?_) hn
    exact ih (tied_self call j) (by omega) (by omega)

/-- A derived sum is taken by the whole expression. -/
theorem Derives.taken_by_expression {text : List Char} {t : Tree}
    (h : Derives (.tier .sum) text t) (hk : bound + 2 < k) :
    Taken (.tier .sum) text t bound (expression.denote call [] k) := by
  obtain ⟨j, rfl⟩ : ∃ j, k = j + 1 := ⟨k - 1, by omega⟩
  have hj : bound + (Level.tier .sum).reserve < j := by
    simp only [Level.reserve]
    omega
  exact taken_expression (h.taken (tied_self call j) (by omega) hj)

end CommittedParsing.Arithmetic
