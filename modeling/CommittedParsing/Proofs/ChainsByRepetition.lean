import CommittedParsing.Proofs.Advancing

/-!
# Chains as repetitions

An operand and any number of operators, each with an operand behind it, is a sequence of an operand
and a repetition. The loops agree round by round: what a chain commits to when an operator has
succeeded, the repetition commits to since its rounds are sequences, and a committed failure of an
operator ends both. The one difference is that a repetition ends at a round that does not move, so a
round is supposed to move.

What the operands are combined to has no part in that. Hence a chain that groups to the left, one that
groups to the right and a list with separators succeed and fail alike.

Main statements:
* `Parser.loop_takePair` — the loop of a chain is the loop of a repetition;
* `Parser.map_operands` — operands are a sequence with a repetition, for every use of them;
* `Parser.foldRight_eq_groupRight` — the fold from the last pair on is the recursive one;
* `Parser.chains_by_repetition` — the law for the two kinds of chains and the lists.
-/

namespace CommittedParsing

open Run

variable {α β γ δ : Type}

namespace Parser

/-! ## Failures of a repetition -/

/-- A repetition fails with nothing but a committed failure of a round. -/
theorem commit_loop_repeatStep (p : Parser α) (n rounds : Nat) (past : List α) (c : Cursor) :
    (Run.loop (repeatStep p n) rounds (past, c)).commit =
      Run.loop (repeatStep p n) rounds (past, c) := by
  induction rounds generalizing past c with
  | zero => rfl
  | succ rounds ih =>
    rw [repeatFrom_succ, Run.commit, Run.mapFailure, bind_assoc]
    apply bind_congr
    intro outcome
    cases outcome with
    | success a rest =>
      dsimp only
      split
      · rfl
      · exact ih (a :: past) rest
    | failure e =>
      obtain ⟨ds, consumed⟩ := e
      cases consumed <;> rfl

/-- The failures of a repetition are committed already, so to commit them changes nothing. -/
theorem commit_many (p : Parser α) (n : Nat) (c : Cursor) : (many p n c).commit = many p n c :=
  commit_loop_repeatStep p n n [] c

/-! ## Round by round -/

/-- Every operator and operand in a row that are read at a cursor end somewhere else. -/
def Moves (operator : Parser β) (operand : Parser α) : Prop :=
  ∀ n c b middle a rest, (operator n c).ending = .value (.success b middle) →
    (operand n middle).ending = .value (.success a rest) → rest.position ≠ c.position

variable {p : Parser α} {o : Parser β}

/-- Parsers that only read on move if one of the two cannot read the empty text. -/
theorem Moves.of_readsOn {A B : Prop} (ho : o.ReadsOn B) (hp : p.ReadsOn A) (hreads : B ∨ A) :
    Moves o p := by
  intro n c b middle a rest hmiddle hrest
  obtain ⟨cs, hread, hcs⟩ := (ho n c).post_of_value hmiddle
  obtain ⟨ds, hread', hds⟩ := (hp n middle).post_of_value hrest
  have hboth := hread.trans hread'
  have hsome : cs ++ ds ≠ [] := by
    rcases hreads with hB | hA
    · simp [hcs hB]
    · simp [hds hA]
  exact hboth.position_ne hsome

/-- The loop of a chain is the loop of a repetition, by the number of rounds that are left. -/
theorem loop_takePair (hmoves : Moves o p) (pick : β → α → γ) (combine : α → List γ → δ) (n rounds : Nat)
    (first : α) (past : List (β × α)) (c : Cursor) :
    ((Run.loop (chainStep o p takePair n) rounds ((first, past), c)).andThen fun read rest =>
      succeed (combine read.1 (read.2.reverse.map fun pair => pick pair.1 pair.2)) rest) =
      (Run.loop (repeatStep (seq2 o p pick) n) rounds
        (past.map fun pair => pick pair.1 pair.2, c)).andThen fun items rest =>
          succeed (combine first items) rest := by
  -- the two loops are in step: a round of the chain is one item of the repetition
  induction rounds generalizing past c with
  | zero => rfl
  | succ rounds ih =>
    rw [chainFrom_succ, repeatFrom_succ]
    simp only [seq2, Run.andThen, bind_assoc]
    apply bind_congr_value
    intro outcome houtcome
    cases outcome with
    | failure e =>
      obtain ⟨ds, consumed⟩ := e
      cases consumed with
      | true => rfl
      | false =>
        rw [← List.map_reverse]
        rfl
    | success b middle =>
      simp only [Run.commit, Run.mapFailure, bind_assoc]
      apply bind_congr_value
      intro outcome' houtcome'
      cases outcome' with
      | failure e => rfl
      | success a rest =>
        -- the repetition ends at a round that stays where it is, so this one has to move
        have hmoved : rest.position ≠ c.position := hmoves n c b middle a rest houtcome houtcome'
        have hrounds := ih ((b, a) :: past) rest
        simp only [Outcome.mapFailure_success, pure_bind, Run.succeed, if_neg hmoved]
        exact hrounds

/-- Operands are a sequence with a repetition, for every use of them. -/
theorem map_operands (hmoves : Moves o p) (pick : β → α → γ) (combine : α → List γ → δ) :
    ((operands p o).map fun (first, pairs) =>
      combine first (pairs.map fun pair => pick pair.1 pair.2)) =
      seq2 p (many (seq2 o p pick)) combine := by
  funext n c
  have hsequence : seq2 p (many (seq2 o p pick)) combine n c =
      (p n c).andThen fun a middle =>
        (many (seq2 o p pick) n middle).andThen fun b rest => succeed (combine a b) rest := by
    rw [seq2]
    simp only [commit_many]
  rw [hsequence, operands, map_map]
  simp only [Parser.map, chain, andThen_assoc]
  congr 1
  funext first rest
  exact loop_takePair hmoves pick combine n n first [] rest

/-! ## The two folds -/

/-- The first operator takes the first operand and what the operands behind it come to. -/
def groupRight (combine : β → α → α → α) (first : α) : List (β × α) → α
  | [] => first
  | (b, a) :: pairs => combine b first (groupRight combine a pairs)

/-- The first operator takes the first two operands, and what they come to is the first operand of what
is behind it. -/
def groupLeft (combine : β → α → α → α) (first : α) : List (β × α) → α
  | [] => first
  | (b, a) :: pairs => groupLeft combine (combine b first a) pairs

/-- To fold from the left is to group to the left. -/
theorem foldLeft_eq_groupLeft (combine : β → α → α → α) :
    foldLeft combine = groupLeft combine := by
  funext first pairs
  induction pairs generalizing first with
  | nil => rfl
  | cons pair pairs ih => rw [foldLeft_cons, ih, groupLeft]

/-- To fold from the right is to group to the right. -/
theorem foldRight_eq_groupRight (combine : β → α → α → α) :
    foldRight combine = groupRight combine := by
  funext first pairs
  induction pairs generalizing first with
  | nil => rfl
  | cons pair pairs ih => rw [foldRight_cons, ih, groupRight]

/-! ## Values aside -/

/-- A parser succeeds with some value, ending at the cursor. -/
def SucceedsAt (p : Parser α) (n : Nat) (c rest : Cursor) : Prop :=
  ∃ a, (p n c).ending = .value (.success a rest)

/-- A function of the value does not change where a parser succeeds. -/
theorem succeedsAt_map (p : Parser α) (f : α → β) (n : Nat) (c rest : Cursor) :
    SucceedsAt (p.map f) n c rest ↔ SucceedsAt p n c rest := by
  unfold SucceedsAt Parser.map
  simp only [ending_andThen_eq_success_iff]
  constructor
  · rintro ⟨b, a, middle, hp, hb⟩
    cases hb
    exact ⟨a, hp⟩
  · rintro ⟨a, hp⟩
    exact ⟨f a, a, rest, hp, rfl⟩

/-- Nor does it change how the parser fails. -/
theorem ending_map_eq_failure_iff (p : Parser α) (f : α → β) (n : Nat) (c : Cursor) (e : Failure) :
    (p.map f n c).ending = .value (.failure e) ↔ (p n c).ending = .value (.failure e) := by
  unfold Parser.map
  rw [ending_andThen_eq_failure_iff]
  constructor
  · rintro (hp | ⟨a, rest, hp, hf⟩)
    · exact hp
    · cases hf
  · exact .inl

/-! ## The law -/

/-- If an operator and an operand in a row never end where they began, then chains and lists are, run
for run, an operand and a repetition of pairs, which are folded from the left, folded from the right or
listed without the separators. So the three succeed at the same cursors, ending alike, and fail with
the same failures. -/
theorem chains_by_repetition (hmoves : Moves o p) (combine combine' : β → α → α → α) :
    chainLeft p o combine = seq2 p (many (seq2 o p Prod.mk)) (groupLeft combine) ∧
      chainRight p o combine' = seq2 p (many (seq2 o p Prod.mk)) (groupRight combine') ∧
      sepBy p o = seq2 p (many (seq2 o p fun _ a => a)) List.cons ∧
      ∀ n c,
        (∀ rest, (SucceedsAt (chainLeft p o combine) n c rest ↔ SucceedsAt (sepBy p o) n c rest) ∧
          (SucceedsAt (chainRight p o combine') n c rest ↔ SucceedsAt (sepBy p o) n c rest)) ∧
        ∀ e, ((chainLeft p o combine n c).ending = .value (.failure e) ↔
            (sepBy p o n c).ending = .value (.failure e)) ∧
          ((chainRight p o combine' n c).ending = .value (.failure e) ↔
            (sepBy p o n c).ending = .value (.failure e)) := by
  -- reading operands and operators first, and folding them afterwards, is a sequence
  have hoperands : ∀ fold : α → List (β × α) → α,
      ((operands p o).map fun (first, pairs) => fold first pairs) =
        seq2 p (many (seq2 o p Prod.mk)) fold := by
    intro fold
    rw [← map_operands hmoves Prod.mk fold]
    simp only [Prod.eta, List.map_id_fun', id]
  refine ⟨?_, ?_, ?_, ?_⟩
  · rw [chainLeft_eq, ← foldLeft_eq_groupLeft]
    exact hoperands (foldLeft combine)
  · rw [chainRight_eq, ← foldRight_eq_groupRight]
    exact hoperands (foldRight combine')
  · rw [sepBy_eq]
    exact map_operands hmoves (fun _ a => a) List.cons
  intro n c
  -- all three are changes of the same parser, and end as that does
  rw [chainLeft_eq, chainRight_eq, sepBy_eq]
  constructor
  · intro rest
    have hlist := succeedsAt_map (operands p o) (fun (first, pairs) => first :: pairs.map Prod.snd)
      n c rest
    rw [hlist]
    exact ⟨succeedsAt_map _ _ n c rest, succeedsAt_map _ _ n c rest⟩
  · intro e
    have hlist := ending_map_eq_failure_iff (operands p o)
      (fun (first, pairs) => first :: pairs.map Prod.snd) n c e
    rw [hlist]
    exact ⟨ending_map_eq_failure_iff _ _ n c e, ending_map_eq_failure_iff _ _ n c e⟩

/-- Numbers of any length, the empty one included, with minus signs between them: in the text below the
three agree on the end, and group the second number in two ways. -/
theorem chains_of_digits :
    let number : Parser Nat := (many digit).map fun ds => ds.length
    let minus : Parser Char := satisfy (fun ch => ch == '-') "minus"
    let take : Char → Nat → Nat → Nat := fun _ m n => m - n
    let pairs := many (seq2 minus number Prod.mk)
    let items := many (seq2 minus number fun _ n => n)
    let c := Cursor.start (Source.ofString 0 "123-12-1+")
    Moves minus number ∧
      (chainLeft number minus take 9 c).ending =
        .value (.success 0 ⟨c.source, 8, ['+']⟩) ∧
      (chainRight number minus take 9 c).ending =
        .value (.success 2 ⟨c.source, 8, ['+']⟩) ∧
      chainLeft number minus take = seq2 number pairs (groupLeft take) ∧
      chainRight number minus take = seq2 number pairs (groupRight take) ∧
      sepBy number minus = seq2 number items List.cons ∧
      ∀ n c,
        (∀ rest,
          (SucceedsAt (chainLeft number minus take) n c rest ↔
            SucceedsAt (sepBy number minus) n c rest) ∧
          (SucceedsAt (chainRight number minus take) n c rest ↔
            SucceedsAt (sepBy number minus) n c rest)) ∧
        ∀ e, ((chainLeft number minus take n c).ending = .value (.failure e) ↔
            (sepBy number minus n c).ending = .value (.failure e)) ∧
          ((chainRight number minus take n c).ending = .value (.failure e) ↔
            (sepBy number minus n c).ending = .value (.failure e)) := by
  intro number minus take pairs items c
  have hminus : minus.ReadsOn True := .satisfy _ _
  have hdigits : (many digit).ReadsOn False := Parser.ReadsOn.repeatFrom (.satisfy _ _) []
  have hmoves : Moves minus number := .of_readsOn hminus (hdigits.map _) (.inl trivial)
  have hleft : (chainLeft number minus take 9 c).ending =
      .value (.success 0 ⟨c.source, 8, ['+']⟩) := rfl
  have hright : (chainRight number minus take 9 c).ending =
      .value (.success 2 ⟨c.source, 8, ['+']⟩) := rfl
  exact ⟨hmoves, hleft, hright, chains_by_repetition hmoves take take⟩

end Parser

end CommittedParsing
