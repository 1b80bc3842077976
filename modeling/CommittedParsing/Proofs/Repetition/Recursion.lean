import CommittedParsing.Proofs.Fuel
import CommittedParsing.Proofs.Repetition.Rounds

/-!
# Repetitions and the rule of a list

A repetition can also be written as a rule that refers to itself: a list is an item and a list behind it,
or nothing. The loop and the rule come to the same if no item stays where it began. The commit that the
sequence adds is no other than the one that the loop has in any case, and what was expected of an item that
is not there is dropped by both.

A repetition that needs a first item differs from one that does not only where that item is missing. Items
that stay where they began do not matter for that, but they do for the item and the repetition in a
sequence, which is why a first item that does not move ends the repetition.

The loop and the rule do not use the same amount of fuel for the same text. So they are compared by what
they come to with any fuel, for parsers whose ended runs do not depend on it. The parsers of grammars are
such parsers (`Grammar.continued`, `System.parser_of_ended`).

Main statements:
* `Parser.loop_repeatStep_past` — the values found before are put in front in the end;
* `Parser.many1_eq_seq2` — a first item and a repetition, if no item stays;
* `Parser.loop_endsAs_listRule`, `Parser.listRule_endsAs_loop` — the loop and the rule, round by round;
* `Parser.repetitions_agree` — all ways to repeat agree.
-/

namespace CommittedParsing

open Run

variable {α β : Type}

/-! ## Endings, records aside -/

/-- If the first run has ended, the second has ended in the same way. -/
def Run.EndsAs (r r' : Run α) : Prop := r.ending ≠ .outOfFuel → r'.ending = r.ending

namespace Run.EndsAs

variable {r r' r'' : Run α}

/-- Runs that end alike do so whether they have ended or not. -/
theorem of_ending_eq (h : r'.ending = r.ending) : r.EndsAs r' := fun _ => h

/-- A run that goes on as before ends as before. -/
theorem of_continued (h : r.ContinuedBy r') : r.EndsAs r' := by
  intro hended
  rw [h hended]

theorem trans (h : r.EndsAs r') (h' : r'.EndsAs r'') : r.EndsAs r'' := by
  intro hended
  have hsame := h hended
  rw [h' (hsame ▸ hended), hsame]

/-- Two runs in a row end alike if the first ones do, and the second ones from the value they share. -/
theorem bind {next next' : α → Run β} (h : r.EndsAs r')
    (hnext : ∀ a, r.ending = .value a → (next a).EndsAs (next' a)) :
    (r >>= next).EndsAs (r' >>= next') := by
  obtain ⟨records, ending⟩ := r
  obtain ⟨records', ending'⟩ := r'
  cases ending with
  | value a =>
    have hsame : ending' = .value a := h (by simp)
    rw [hsame, bind_value, bind_value]
    exact hnext a rfl
  | fault e =>
    have hsame : ending' = .fault e := h (by simp)
    rw [hsame, bind_fault, bind_fault]
    exact of_ending_eq rfl
  | outOfFuel => exact fun hended => absurd rfl hended

theorem andThen {r r' : Run (Outcome α)} {next next' : α → Cursor → Run (Outcome β)}
    (h : r.EndsAs r') (hnext : ∀ a rest, (next a rest).EndsAs (next' a rest)) :
    (r.andThen next).EndsAs (r'.andThen next') := by
  refine h.bind ?_
  intro outcome _
  cases outcome with
  | success a rest => exact hnext a rest
  | failure e => exact of_ending_eq rfl

theorem commit {r r' : Run (Outcome α)} (h : r.EndsAs r') : r.commit.EndsAs r'.commit :=
  h.bind fun _ _ => of_ending_eq rfl

end Run.EndsAs

namespace Parser

/-- At the cursor, the two parsers come to the same outcome or to the same fault, if to any. -/
def AgreeAt (c : Cursor) (p q : Parser α) : Prop :=
  ∀ ending, ending ≠ .outOfFuel → ((∃ n, (p n c).ending = ending) ↔ ∃ n, (q n c).ending = ending)

/-- Whatever fuel the one had, there is one with which the other ends in the same way. -/
theorem AgreeAt.of_endsAs {c : Cursor} {p q : Parser α} (h : ∀ n, ∃ m, (p n c).EndsAs (q m c))
    (h' : ∀ n, ∃ m, (q n c).EndsAs (p m c)) : AgreeAt c p q := by
  intro ending hended
  constructor
  · rintro ⟨n, rfl⟩
    obtain ⟨m, hm⟩ := h n
    exact ⟨m, hm hended⟩
  · rintro ⟨n, rfl⟩
    obtain ⟨m, hm⟩ := h' n
    exact ⟨m, hm hended⟩

variable {p : Parser α} {n : Nat} {c : Cursor}

/-! ## The loop as a recursion -/

/-- The values found before are put in front in the end. -/
theorem loop_repeatStep_past (p : Parser α) (n rounds : Nat) (past : List α) (c : Cursor) :
    Run.loop (repeatStep p n) rounds (past, c) =
      (Run.loop (repeatStep p n) rounds ([], c)).andThen fun found rest =>
        succeed (past.reverse ++ found) rest := by
  -- what a loop has gathered stays in front of what it finds
  induction rounds generalizing past c with
  | zero => rfl
  | succ rounds ih =>
    rw [repeatFrom_succ, repeatFrom_succ]
    unfold andThen
    rw [bind_assoc]
    apply bind_congr
    intro outcome
    cases outcome with
    | success a rest =>
      by_cases hsame : rest.position = c.position
      · simp [if_pos hsame, succeed]
      · simp only [if_neg hsame]
        -- one more item in front, taken together with those before it
        let later := Run.loop (repeatStep p n) rounds ([], rest)
        calc Run.loop (repeatStep p n) rounds (a :: past, rest)
          _ = later.andThen fun found rest => succeed ((a :: past).reverse ++ found) rest :=
            ih (a :: past) rest
          _ = (later.andThen fun found rest => succeed ([a].reverse ++ found) rest).andThen
                fun found rest => succeed (past.reverse ++ found) rest := by
            simp [andThen_assoc]
          _ = (Run.loop (repeatStep p n) rounds ([a], rest)).andThen
                fun found rest => succeed (past.reverse ++ found) rest := by
            rw [ih [a] rest]
    | failure e =>
      obtain ⟨ds, consumed⟩ := e
      cases consumed <;> simp [succeed, fail]

/-! ## Round by round -/

/-- An item and a list that others find behind it, or the end of the list where there is no item. -/
def itemOrEnd (item : Cursor → Run (Outcome α)) (later : Cursor → Run (Outcome (List α)))
    (c : Cursor) : Run (Outcome (List α)) :=
  item c >>= fun outcome =>
    match outcome with
    | .success a rest => (later rest).commit.andThen fun found rest => succeed (a :: found) rest
    | .failure e => if e.consumed then fail e else succeed [] c

theorem itemOrEnd_endsAs {item item' : Cursor → Run (Outcome α)}
    {later later' : Cursor → Run (Outcome (List α))} (hitem : (item c).EndsAs (item' c))
    (hlater : ∀ rest, (later rest).EndsAs (later' rest)) :
    (itemOrEnd item later c).EndsAs (itemOrEnd item' later' c) := by
  refine hitem.bind ?_
  intro outcome _
  cases outcome with
  | success a rest => exact (hlater rest).commit.andThen fun _ _ => .of_ending_eq rfl
  | failure e => exact .of_ending_eq rfl

/-- No success of the parser stays where it began. -/
def AlwaysMoves (p : Parser α) : Prop :=
  ∀ n c a rest, (p n c).ending = .value (.success a rest) → rest.position ≠ c.position

/-- Parsers that only read on, and something, always move. -/
theorem AlwaysMoves.of_readsOn (hp : p.ReadsOn True) : p.AlwaysMoves := by
  intro n c a rest hsuccess
  obtain ⟨cs, hread, hsome⟩ := (hp n c).post_of_value hsuccess
  exact hread.position_ne (hsome trivial)

/-- A round of the loop leaves what is behind an item to the rounds to come. -/
theorem loop_repeatStep_succ (hmoves : p.AlwaysMoves) (n rounds : Nat) (c : Cursor) :
    Run.loop (repeatStep p n) (rounds + 1) ([], c) =
      itemOrEnd (p n) (fun rest => Run.loop (repeatStep p n) rounds ([], rest)) c := by
  rw [repeatFrom_succ, itemOrEnd]
  apply bind_congr_value
  intro outcome houtcome
  cases outcome with
  | success a rest =>
    have hmoved := hmoves n c a rest houtcome
    simp only [if_neg hmoved, commit_loop_repeatStep]
    exact loop_repeatStep_past p n rounds [a] rest
  | failure e => rfl

/-- A list is an item and a list behind it, or it is empty. -/
def listRule (p : Parser α) : Parser (List α) :=
  fix fun list => Parser.or (seq2 p list List.cons) (Parser.pure [])

/-- A use of the rule leaves what is behind an item to the next use. A failure behind an item is a
committed one, so that the choice passes it on. -/
theorem ending_listRule_succ (p : Parser α) (n : Nat) (c : Cursor) :
    (listRule p (n + 1) c).ending = (itemOrEnd (p n) (listRule p n) c).ending := by
  show (Parser.or (seq2 p (fun _ => listRule p n) List.cons) (Parser.pure []) n c).ending = _
  unfold Parser.or seq2 itemOrEnd
  -- only how the item ends matters, and then how the rule goes on
  generalize p n c = r
  cases r using outcome_cases with
  | success records a rest =>
    simp only [andThen, bind_value, commit, Run.mapFailure]
    generalize listRule p n rest = r'
    cases r' using outcome_cases <;> simp [bind_def, succeed, fail, prepend, Failure.commit]
  | failure records e =>
    obtain ⟨ds, consumed⟩ := e
    cases consumed <;>
      simp [andThen, bind_value, succeed, fail, prepend, Parser.pure, Run.mapFailure, pure, Run.pure]
  | fault records e => rfl
  | outOfFuel records => rfl

/-- What the loop comes to, the rule comes to, if it has at least as much fuel for each item. -/
theorem loop_endsAs_listRule (hp : p.ContinuedBy .larger p) (hmoves : p.AlwaysMoves)
    {n rounds m : Nat} (hle : n + rounds ≤ m) (c : Cursor) :
    (Run.loop (repeatStep p n) rounds ([], c)).EndsAs (listRule p m c) := by
  -- each round is one use of the rule, which passes on one unit of fuel less
  induction rounds generalizing m c with
  | zero => exact fun hended => absurd rfl hended
  | succ rounds ih =>
    obtain ⟨m, rfl⟩ := Nat.exists_eq_add_of_le' (show 1 ≤ m by omega)
    have hitem : (p n c).EndsAs (p m c) := .of_continued (hp n m c (show n ≤ m by omega))
    have hlater : ∀ rest, (Run.loop (repeatStep p n) rounds ([], rest)).EndsAs (listRule p m rest) :=
      ih (by omega)
    rw [loop_repeatStep_succ hmoves]
    exact (itemOrEnd_endsAs hitem hlater).trans (.of_ending_eq (ending_listRule_succ p m c))

/-- What the rule comes to, the loop comes to, if it has at least as much fuel for each item, and as many
rounds. -/
theorem listRule_endsAs_loop (hp : p.ContinuedBy .larger p) (hmoves : p.AlwaysMoves)
    {m n rounds : Nat} (hle : m ≤ n) (hrounds : m ≤ rounds) (c : Cursor) :
    (listRule p m c).EndsAs (Run.loop (repeatStep p n) rounds ([], c)) := by
  induction m generalizing rounds c with
  | zero => exact fun hended => absurd rfl hended
  | succ m ih =>
    obtain ⟨rounds, rfl⟩ := Nat.exists_eq_add_of_le' (show 1 ≤ rounds by omega)
    have hitem : (p m c).EndsAs (p n c) := .of_continued (hp m n c (show m ≤ n by omega))
    have hlater : ∀ rest, (listRule p m rest).EndsAs (Run.loop (repeatStep p n) rounds ([], rest)) :=
      ih (by omega) (by omega)
    have hsame := (ending_listRule_succ p m c).symm
    rw [loop_repeatStep_succ hmoves]
    exact EndsAs.trans (.of_ending_eq hsame) (itemOrEnd_endsAs hitem hlater)

/-- A repetition agrees with the rule that parses an item and then itself, if every item moves. -/
theorem many_agrees_listRule (hp : p.ContinuedBy .larger p) (hmoves : p.AlwaysMoves) (c : Cursor) :
    AgreeAt c (many p) (listRule p) := by
  refine .of_endsAs ?_ ?_
  · exact fun n => ⟨n + n, loop_endsAs_listRule hp hmoves (Nat.le_refl _) c⟩
  · exact fun n => ⟨n, listRule_endsAs_loop hp hmoves (Nat.le_refl _) (Nat.le_refl _) c⟩

/-! ## A first item -/

/-- A repetition that needs a first item is a sequence of an item and a repetition. -/
theorem many1_eq_seq2 (hmoves : p.AlwaysMoves) : many1 p = seq2 p (many p) List.cons := by
  funext n c
  unfold many1 seq2 andThen
  apply bind_congr_value
  intro outcome houtcome
  cases outcome with
  | success a rest =>
    have hmoved := hmoves n c a rest houtcome
    simp only [if_neg hmoved, commit_many]
    exact loop_repeatStep_past p n n [a] rest
  | failure e => rfl

/-- Where all failures are committed, nothing is left out. -/
theorem optional_of_committed {q : Parser (List α)} (hq : (q n c).commit = q n c) :
    ((optional q).map fun found => found.getD []) n c = q n c := by
  have hconsumed := fun e => Run.consumed_of_commit_eq (e := e) hq
  unfold Parser.map optional
  revert hconsumed
  generalize q n c = r
  intro hconsumed
  cases r using outcome_cases with
  | success records found rest => simp [andThen, bind_value, succeed, prepend, pure, Run.pure]
  | failure records e =>
    simp [andThen, bind_value, fail, prepend, hconsumed e rfl, pure, Run.pure]
  | fault records e => rfl
  | outOfFuel records => rfl

/-- A repetition that needs a first item is, but for a missing one, the loop with that item as one round
more. -/
theorem many1_eq_loop (hfirst : ∀ e, (p n c).ending = .value (.failure e) → e.consumed = true) :
    many1 p n c = Run.loop (repeatStep p n) (n + 1) ([], c) := by
  rw [repeatFrom_succ]
  unfold many1 andThen
  apply bind_congr_value
  intro outcome houtcome
  cases outcome with
  | success a rest => rfl
  | failure e => simp [hfirst e houtcome]

/-- Where an item may be missing, that holds in any case. -/
theorem optional_many1_eq_loop (p : Parser α) (n : Nat) (c : Cursor) :
    ((optional (many1 p)).map fun found => found.getD []) n c = Run.loop (repeatStep p n) (n + 1) ([], c) := by
  by_cases hmissing : ∃ ds, (p n c).ending = .value (.failure ⟨ds, false⟩)
  · obtain ⟨ds, hds⟩ := hmissing
    have hrun : p n c = ⟨(p n c).records, .value (.failure ⟨ds, false⟩)⟩ := Run.ext rfl hds
    rw [repeatFrom_succ, Parser.map, optional, many1, hrun]
    simp [andThen, bind_value, prepend_bind, fail, succeed]
  · -- with a first item, or a committed failure, there is nothing for the option to do
    have hfirst : ∀ e, (p n c).ending = .value (.failure e) → e.consumed = true := by
      rintro ⟨ds, consumed⟩ he
      cases consumed with
      | true => rfl
      | false => exact absurd ⟨ds, he⟩ hmissing
    have hloop := many1_eq_loop hfirst
    have hcommitted : (many1 p n c).commit = many1 p n c := by
      rw [hloop, commit_loop_repeatStep]
    rw [optional_of_committed hcommitted, hloop]

/-- One round more does not change what the loop comes to. -/
theorem agrees_many_of_loop (hp : p.ContinuedBy .larger p) {q : Parser (List α)}
    (hq : ∀ n, q n c = Run.loop (repeatStep p n) (n + 1) ([], c)) : AgreeAt c q (many p) := by
  have hstep : ∀ {n m : Nat}, n ≤ m → ∀ state, (repeatStep p n state).ContinuedBy
      (repeatStep p m state) := fun hle state => (hp _ _ state.2 hle).bind fun _ => .refl _
  refine .of_endsAs ?_ ?_
  · -- the fuel is the number of rounds as well, so one more of it gives the round
    intro n
    refine ⟨n + 1, .of_continued ?_⟩
    rw [hq]
    exact ContinuedBy.loop (hstep (Nat.le_succ n)) (Nat.le_refl _) ([], c)
  · intro n
    refine ⟨n, .of_continued ?_⟩
    rw [hq]
    exact ContinuedBy.loop (hstep (Nat.le_refl n)) (Nat.le_succ n) ([], c)

/-! ## The law -/

/-- For a parser whose ended runs do not depend on fuel, and at every cursor:
* a repetition that needs a first item, or else no items, comes to what a repetition comes to;
* a repetition that needs a first item comes to that as well, unless the parser fails uncommitted there.

If moreover no item stays where it began, then at every cursor a repetition comes to what the rule of a
list comes to, and one that needs a first item is the sequence of an item and a repetition. -/
theorem repetitions_agree (hp : p.ContinuedBy .larger p) :
    (∀ c, AgreeAt c ((optional (many1 p)).map fun found => found.getD []) (many p)) ∧
      (∀ c, (∀ n e, (p n c).ending = .value (.failure e) → e.consumed = true) →
        AgreeAt c (many1 p) (many p)) ∧
      (p.AlwaysMoves →
        (∀ c, AgreeAt c (many p)
          (fix fun list => Parser.or (seq2 p list List.cons) (Parser.pure []))) ∧
        many1 p = seq2 p (many p) List.cons) := by
  refine ⟨?_, ?_, ?_⟩
  · exact fun c => agrees_many_of_loop hp fun n => optional_many1_eq_loop p n c
  · exact fun c hfirst => agrees_many_of_loop hp fun n => many1_eq_loop (hfirst n)
  · intro hmoves
    exact ⟨many_agrees_listRule hp hmoves, many1_eq_seq2 hmoves⟩

/-- Numbers, each closed by a mark that the last one lacks: all the ways to repeat them fail alike. -/
theorem repetitions_of_numbers :
    let p : Parser Nat := seq2 (many1 digit) (literal ';') fun ds _ => ds.length
    let c := Cursor.start (Source.ofString 0 "1;23;4")
    p.ContinuedBy .larger p ∧ p.AlwaysMoves ∧
      (∀ n e, (p n c).ending = .value (.failure e) → e.consumed = true) ∧
      (many p 6 c).ending = .value (.failure ⟨[⟨"';'", 6⟩], true⟩) ∧
      (∀ c, AgreeAt c ((optional (many1 p)).map fun found => found.getD []) (many p)) ∧
      AgreeAt c (many1 p) (many p) ∧
      (∀ c, AgreeAt c (many p)
        (fix fun list => Parser.or (seq2 p list List.cons) (Parser.pure []))) ∧
      many1 p = seq2 p (many p) List.cons := by
  intro p c
  have hchar : ∀ accepts description, (satisfy accepts description).ContinuedBy .larger
      (satisfy accepts description) := fun _ _ _ _ _ _ => .refl _
  have hp : p.ContinuedBy .larger p := (hchar _ _).many1.seq2 (hchar _ _) _
  have hreads : p.ReadsOn True :=
    ((ReadsOn.satisfy _ _).many1.seq2 (ReadsOn.satisfy _ _) _).imp Or.inl
  have hmoves : p.AlwaysMoves := .of_readsOn hreads
  have hsuccess : (p 2 c).ending = .value (.success 1 ⟨c.source, 2, ['2', '3', ';', '4']⟩) := rfl
  have hfirst : ∀ n e, (p n c).ending = .value (.failure e) → e.consumed = true := by
    intro n e he
    -- with the fuel of both runs, both would end as they did
    have hfails := hp n (n + 2) c (Nat.le_add_right n 2) (by simp [he])
    have hsucceeds := hp 2 (n + 2) c (Nat.le_add_left 2 n) (by simp [hsuccess])
    rw [← hfails, hsucceeds, hsuccess] at he
    cases he
  have hmany : (many p 6 c).ending = .value (.failure ⟨[⟨"';'", 6⟩], true⟩) := rfl
  obtain ⟨hnone, hsome, hrule⟩ := repetitions_agree hp
  exact ⟨hp, hmoves, hfirst, hmany, hnone, hsome c hfirst, hrule hmoves⟩

end Parser

end CommittedParsing
