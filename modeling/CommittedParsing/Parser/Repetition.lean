import CommittedParsing.Parser.Sequence

/-!
# Repetitions, chains and lists

A repetition goes on until its parser fails uncommitted; a committed failure is the failure of the
whole. A success that does not move the cursor is kept and ends the repetition, since it would
come again for ever. Operator chains and separated lists have no such guard.

Main statements:
* `Parser.repeatFrom_succ`, `Parser.chainFrom_succ` — one round of each of the two loops;
* `Parser.foldRight_cons` — the first operator takes the first operand and what the rest comes to;
* `Parser.chainLeft_eq` — to combine operands while they are read is to fold them when all are read.
-/

namespace CommittedParsing.Parser

variable {α β σ τ : Type}

/-! ## Repetition -/

/-- One round of a repetition: the values so far in reverse, and the cursor. -/
def repeatStep (p : Parser α) (n : Nat) (state : List α × Cursor) :
    Run ((List α × Cursor) ⊕ Outcome (List α)) :=
  p n state.2 >>= fun outcome =>
    match outcome with
    | .success a rest =>
      if rest.position = state.2.position then
        pure (.inr (.success (a :: state.1).reverse rest))
      else pure (.inl (a :: state.1, rest))
    | .failure e =>
      if e.consumed then pure (.inr (.failure e))
      else pure (.inr (.success state.1.reverse state.2))

/-- Repeat a parser, with the values found before in reverse. -/
def repeatFrom (p : Parser α) (past : List α) : Parser (List α) :=
  fun n c => Run.loop (repeatStep p n) n (past, c)

/-- Any number of occurrences. -/
def many (p : Parser α) : Parser (List α) := repeatFrom p []

/-- At least one occurrence. -/
def many1 (p : Parser α) : Parser (List α) := fun n c =>
  (p n c).andThen fun a rest =>
    if rest.position = c.position then Run.succeed [a] rest
    else repeatFrom p [a] n rest

/-! ## Operators and operands -/

/-- One round of a chain: an operator and the operand it requires, which are taken in by what the operands
before have come to. -/
def chainStep (operator : Parser β) (operand : Parser α) (take : σ → β → α → Except Fault σ) (n : Nat)
    (state : σ × Cursor) : Run ((σ × Cursor) ⊕ Outcome σ) :=
  operator n state.2 >>= fun outcome =>
    match outcome with
    | .success b afterOperator =>
      (operand n afterOperator).commit >>= fun outcome =>
        match outcome with
        | .success a rest => Run.ofExcept (take state.1 b a) >>= fun s => pure (.inl (s, rest))
        | .failure e => pure (.inr (.failure e))
    | .failure e =>
      if e.consumed then pure (.inr (.failure e)) else pure (.inr (.success state.1 state.2))

/-- Operators, each with the operand it requires, after operands that have come to something. -/
def chainFrom (operator : Parser β) (operand : Parser α) (take : σ → β → α → Except Fault σ)
    (s : σ) : Parser σ :=
  fun n c => Run.loop (chainStep operator operand take n) n (s, c)

/-- An operand and any number of pairs of an operator and an operand after it. What is made of the first
operand takes in one pair after the other, as soon as it is read. -/
def chain (operand : Parser α) (operator : Parser β) (start : α → σ)
    (take : σ → β → α → Except Fault σ) : Parser σ := fun n c =>
  (operand n c).andThen fun first rest => chainFrom operator operand take (start first) n rest

/-- One more pair, in front of those before it. -/
def takePair (read : α × List (β × α)) (b : β) (a : α) : Except Fault (α × List (β × α)) :=
  .ok (read.1, (b, a) :: read.2)

/-- An operand and the pairs after it. -/
def operands (operand : Parser α) (operator : Parser β) : Parser (α × List (β × α)) :=
  (chain operand operator (fun first => (first, [])) takePair).map fun read =>
    (read.1, read.2.reverse)

/-- One more item, in front of those before it; the value of the separator is dropped. -/
def takeItem (items : List α) (_ : β) (item : α) : Except Fault (List α) := .ok (item :: items)

/-- Items with separators between them. -/
def sepBy (item : Parser α) (separator : Parser β) : Parser (List α) :=
  (chain item separator (fun first => [first]) takeItem).map List.reverse

/-! ## Folding chains -/

/-- Combine from the left: `a - b - c` is `(a - b) - c`. -/
def foldLeft (combine : β → α → α → α) (first : α) (pairs : List (β × α)) : α :=
  pairs.foldl (fun left pair => combine pair.1 left pair.2) first

/-- Combine from the right: `a ^ b ^ c` is `a ^ (b ^ c)`. The pairs are taken from the last one on,
and each operator waits until the operand to its right is combined. -/
def foldRight (combine : β → α → α → α) (first : α) (pairs : List (β × α)) : α :=
  match pairs.reverse with
  | [] => first
  | last :: earlier =>
    let (pending, folded) :=
      earlier.foldl (fun state pair => (pair.1, combine state.1 pair.2 state.2)) last
    combine pending first folded

/-- Combine from the right by computations that may hit a fault. -/
def foldRightChecked (combine : β → α → α → Except Fault α) (first : α) (pairs : List (β × α)) :
    Except Fault α :=
  match pairs.reverse with
  | [] => .ok first
  | last :: earlier => do
    let (pending, folded) ← earlier.foldlM (fun (state : β × α) (pair : β × α) =>
      (combine state.1 pair.2 state.2).map fun folded => (pair.1, folded)) last
    combine pending first folded

@[simp] theorem foldLeft_nil (combine : β → α → α → α) (first : α) :
    foldLeft combine first [] = first := rfl

@[simp] theorem foldLeft_cons (combine : β → α → α → α) (first : α) (pair : β × α)
    (pairs : List (β × α)) :
    foldLeft combine first (pair :: pairs) =
      foldLeft combine (combine pair.1 first pair.2) pairs := rfl

@[simp] theorem foldRight_nil (combine : β → α → α → α) (first : α) :
    foldRight combine first [] = first := rfl

@[simp] theorem foldRight_cons (combine : β → α → α → α) (first : α) (pair : β × α)
    (pairs : List (β × α)) :
    foldRight combine first (pair :: pairs) =
      combine pair.1 first (foldRight combine pair.2 pairs) := by
  unfold foldRight
  rw [List.reverse_cons]
  cases pairs.reverse with
  | nil => rfl
  | cons last earlier => simp only [List.cons_append, List.foldl_append, List.foldl_cons,
      List.foldl_nil]

@[simp] theorem foldRightChecked_nil (combine : β → α → α → Except Fault α) (first : α) :
    foldRightChecked combine first [] = .ok first := rfl

@[simp] theorem foldRightChecked_cons (combine : β → α → α → Except Fault α) (first : α)
    (pair : β × α) (pairs : List (β × α)) :
    foldRightChecked combine first (pair :: pairs) =
      (foldRightChecked combine pair.2 pairs).bind (combine pair.1 first) := by
  unfold foldRightChecked
  rw [List.reverse_cons]
  -- the loop runs over the pairs from the last one, so that this pair is the end of it
  cases pairs.reverse with
  | nil => rfl
  | cons last earlier =>
    dsimp only [List.cons_append]
    rw [List.foldlM_append]
    generalize earlier.foldlM (m := Except Fault) _ last = folding
    cases folding with
    | error e => rfl
    | ok state =>
      obtain ⟨pending, folded⟩ := state
      simp only [List.foldlM_cons, List.foldlM_nil]
      cases hfolded : combine pending pair.2 folded with
      | error e => simp [bind, Except.bind, Except.map, hfolded]
      | ok right => simp [bind, pure, Except.bind, Except.pure, Except.map, hfolded]

/-- Without faults the computations come to the fold. -/
theorem foldRightChecked_ok (combine : β → α → α → α) (first : α) (pairs : List (β × α)) :
    foldRightChecked (fun b left right => .ok (combine b left right)) first pairs =
      .ok (foldRight combine first pairs) := by
  induction pairs generalizing first with
  | nil => rfl
  | cons pair pairs ih =>
    rw [foldRightChecked_cons, ih, foldRight_cons]
    rfl

/-- Operands joined by operators that group to the left, by computations that may hit a fault. -/
def chainLeftChecked (operand : Parser α) (operator : Parser β)
    (combine : β → α → α → Except Fault α) : Parser α :=
  chain operand operator id fun left b right => combine b left right

/-- Operands joined by operators that group to the right, by computations that may hit a fault. -/
def chainRightChecked (operand : Parser α) (operator : Parser β)
    (combine : β → α → α → Except Fault α) : Parser α :=
  (operands operand operator).mapChecked fun (first, pairs) => foldRightChecked combine first pairs

/-- Operands joined by operators that group to the left. -/
def chainLeft (operand : Parser α) (operator : Parser β) (combine : β → α → α → α) : Parser α :=
  chainLeftChecked operand operator fun b left right => .ok (combine b left right)

/-- Operands joined by operators that group to the right. -/
def chainRight (operand : Parser α) (operator : Parser β) (combine : β → α → α → α) : Parser α :=
  chainRightChecked operand operator fun b left right => .ok (combine b left right)

/-! ## One round -/

/-- A round of a repetition, and the repetition from where the round leaves off. -/
theorem repeatFrom_succ (p : Parser α) (past : List α) (n fuel : Nat) (c : Cursor) :
    Run.loop (repeatStep p n) (fuel + 1) (past, c) =
      p n c >>= fun outcome =>
        match outcome with
        | .success a rest =>
          if rest.position = c.position then Run.succeed (a :: past).reverse rest
          else Run.loop (repeatStep p n) fuel (a :: past, rest)
        | .failure e => if e.consumed then Run.fail e else Run.succeed past.reverse c := by
  rw [Run.loop_succ, repeatStep, bind_assoc]
  congr 1
  funext outcome
  cases outcome with
  | success a rest => dsimp only; split <;> rfl
  | failure e => dsimp only; split <;> rfl

/-- A round of a chain: the operand behind an operator must not fail. -/
theorem chainFrom_succ (operator : Parser β) (operand : Parser α) (take : σ → β → α → Except Fault σ)
    (s : σ) (n fuel : Nat) (c : Cursor) :
    Run.loop (chainStep operator operand take n) (fuel + 1) (s, c) =
      operator n c >>= fun outcome =>
        match outcome with
        | .success b afterOperator =>
          (operand n afterOperator).commit.andThen fun a rest =>
            Run.ofExcept (take s b a) >>= fun s =>
              Run.loop (chainStep operator operand take n) fuel (s, rest)
        | .failure e => if e.consumed then Run.fail e else Run.succeed s c := by
  rw [Run.loop_succ, chainStep, bind_assoc]
  congr 1
  funext outcome
  cases outcome with
  | success b afterOperator =>
    simp only [bind_assoc, Run.andThen]
    congr 1
    funext outcome
    cases outcome with
    | success a rest =>
      dsimp only
      rw [bind_assoc]
      rfl
    | failure e => rfl
  | failure e => dsimp only; split <;> rfl

/-! ## Chains of what the operands come to -/

/-- What is made of the operands may be changed at the end, or at the start and with every pair. -/
theorem map_chainFrom {operator : Parser β} {operand : Parser α} {take : σ → β → α → Except Fault σ}
    {take' : τ → β → α → Except Fault τ} (f : σ → τ)
    (htake : ∀ s b a, (take s b a).map f = take' (f s) b a) (s : σ) (n fuel : Nat) (c : Cursor) :
    ((Run.loop (chainStep operator operand take n) fuel (s, c)).andThen fun s rest =>
      Run.succeed (f s) rest) = Run.loop (chainStep operator operand take' n) fuel (f s, c) := by
  -- round by round; the two loops read the same text, whatever has been gathered
  induction fuel generalizing s c with
  | zero => rfl
  | succ fuel ih =>
    rw [chainFrom_succ, chainFrom_succ, Run.andThen, bind_assoc]
    congr 1
    funext outcome
    cases outcome with
    | success b afterOperator =>
      -- one more round on both sides, which fold the operand as `htake` relates
      change (((operand n afterOperator).commit.andThen _).andThen _) = _
      rw [Run.andThen_assoc]
      dsimp only
      congr 1
      funext a rest
      rw [← htake]
      cases take s b a with
      | ok next => exact ih next rest
      | error e => rfl
    | failure e =>
      dsimp only
      split <;> rfl

/-- A change of what a chain comes to may be made round by round. -/
theorem map_chain {operand : Parser α} {operator : Parser β} {start : α → σ} {start' : α → τ}
    {take : σ → β → α → Except Fault σ} {take' : τ → β → α → Except Fault τ} (f : σ → τ)
    (hstart : ∀ a, f (start a) = start' a) (htake : ∀ s b a, (take s b a).map f = take' (f s) b a) :
    (chain operand operator start take).map f = chain operand operator start' take' := by
  funext n c
  simp only [map, chain, Run.andThen_assoc, ← hstart]
  congr 1
  funext first rest
  exact map_chainFrom f htake (start first) n n rest

/-- To combine the operands from the left as they are read is to fold them when all are read. -/
theorem chainLeft_eq (operand : Parser α) (operator : Parser β) (combine : β → α → α → α) :
    chainLeft operand operator combine =
      (operands operand operator).map fun (first, pairs) => foldLeft combine first pairs := by
  rw [operands, map_map, chainLeft, chainLeftChecked]
  refine (map_chain _ (fun first => ?_) fun read b a => ?_).symm
  · rfl
  · simp [takePair, Except.map, foldLeft]

/-- A chain that folds from the right reads its operands and operators first. -/
theorem chainRight_eq (operand : Parser α) (operator : Parser β) (combine : β → α → α → α) :
    chainRight operand operator combine =
      (operands operand operator).map fun (first, pairs) => foldRight combine first pairs := by
  simp only [chainRight, chainRightChecked, foldRightChecked_ok]
  rfl

/-- To put the items in a list as they are read is to drop the separators when all are read. -/
theorem sepBy_eq (item : Parser α) (separator : Parser β) :
    sepBy item separator =
      (operands item separator).map fun (first, pairs) => first :: pairs.map Prod.snd := by
  have heager : (chain item separator (fun first => (first, [])) takePair).map
      (fun read => read.2.map Prod.snd ++ [read.1]) =
        chain item separator (fun first => [first]) takeItem :=
    map_chain _ (fun _ => rfl) fun _ _ _ => rfl
  rw [sepBy, ← heager, operands, map_map, map_map]
  congr 1
  funext read
  simp

end CommittedParsing.Parser
