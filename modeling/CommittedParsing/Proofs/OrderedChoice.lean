import CommittedParsing.Parser.Alternation

/-!
# Ordered choice, however it is grouped

Alternatives are tried in order from one cursor. The first that does anything but fail uncommitted
decides, and what stands behind it has no influence. It makes no difference whether the alternatives
are given as one list, or two at a time with the brackets to the left or to the right: the run comes to
the same. Only the record of a committed failure is left by each choice that passes the failure on, so
the number of records shows the grouping.

Main statements:
* `Parser.choiceAfter_append`, `Parser.foldl_or_of_passed`, `Parser.rightNested_append` — what
  alternatives that fail uncommitted leave to the ones behind them, in each grouping;
* `Parser.foldl_or_of_stopped` — choices to the left of others each record a committed failure;
* `Parser.choice_however_grouped` — the law of ordered choice for the three groupings.
-/

namespace CommittedParsing

open Run

/-! ## Changes to failures -/

namespace Run

variable {α : Type}

/-- A change of failures reaches the one at the end of the run. -/
theorem mapFailure_failed (f : Failure → Failure) (rs : List Record) (e : Failure) :
    (⟨rs, .value (.failure e)⟩ : Run (Outcome α)).mapFailure f = ⟨rs, .value (.failure (f e))⟩ := by
  simp [mapFailure, bind_value, prepend, pure, Run.pure]

/-- A run that does not fail is not changed by what would happen to a failure. -/
theorem bind_of_not_failed {r : Run (Outcome α)} (hr : ∀ e, r.ending ≠ .value (.failure e))
    {next : Outcome α → Run (Outcome α)} (hnext : ∀ a rest, next (.success a rest) = succeed a rest) :
    r >>= next = r := by
  cases r using outcome_cases with
  | success records a rest => simp [bind_value, hnext, Run.succeed, prepend, pure, Run.pure]
  | failure records e => exact absurd rfl (hr e)
  | fault records e => rfl
  | outOfFuel records => rfl

/-- A run that does not end in a failure is left as it is. -/
theorem mapFailure_of_not_failed {r : Run (Outcome α)} (hr : ∀ e, r.ending ≠ .value (.failure e))
    (f : Failure → Failure) : r.mapFailure f = r :=
  bind_of_not_failed hr fun _ _ => rfl

/-- To put no diagnostic in front of a failure changes nothing. -/
theorem mapFailure_merge_nil (r : Run (Outcome α)) :
    r.mapFailure (Failure.merge ⟨[], false⟩) = r := by
  by_cases hr : ∃ e, r.ending = .value (.failure e)
  · obtain ⟨e, he⟩ := hr
    have hrun : r = ⟨r.records, .value (.failure e)⟩ := Run.ext rfl he
    rw [hrun, mapFailure_failed]
    rfl
  · exact mapFailure_of_not_failed (fun e he => hr ⟨e, he⟩) _

/-- Merging twice is merging once with both lists of diagnostics. -/
theorem mapFailure_merge_merge (r : Run (Outcome α)) (ds es : List Diagnostic) :
    (r.mapFailure (Failure.merge ⟨es, false⟩)).mapFailure (Failure.merge ⟨ds, false⟩) =
      r.mapFailure (Failure.merge ⟨ds ++ es, false⟩) := by
  rw [mapFailure_mapFailure]
  congr 1
  funext e
  exact (Failure.merge_assoc ⟨ds, false⟩ ⟨es, false⟩ e).symm

theorem mapFailure_prepend (f : Failure → Failure) (rs : List Record) (r : Run (Outcome α)) :
    (r.prepend rs).mapFailure f = (r.mapFailure f).prepend rs :=
  prepend_bind rs r _

end Run

namespace Parser

variable {α : Type}

/-! ## Groupings -/

/-- Two at a time, the brackets to the left. -/
def leftNested : List (Parser α) → Parser α
  | [] => choice []
  | p :: ps => ps.foldl Parser.or p

/-- Two at a time, the brackets to the right. -/
def rightNested : List (Parser α) → Parser α
  | [] => choice []
  | [p] => p
  | p :: q :: ps => Parser.or p (rightNested (q :: ps))

/-- Nesting to the right puts one alternative in front of the rest. -/
theorem rightNested_cons (p : Parser α) {ps : List (Parser α)} (hps : ps ≠ []) :
    rightNested (p :: ps) = Parser.or p (rightNested ps) := by
  cases ps with
  | nil => exact absurd rfl hps
  | cons q ps => rfl

/-! ## Alternatives that leave the decision to others -/

/-- One after the other at the cursor, the parsers all fail uncommitted: the records of the runs, and
what was expected, in order. -/
inductive AllPass (n : Nat) (c : Cursor) :
    List (Parser α) → List Record → List Diagnostic → Prop
  | nil : AllPass n c [] [] []
  | cons {p : Parser α} {ps : List (Parser α)} {rs ss : List Record} {ds es : List Diagnostic}
      (hp : p n c = ⟨rs, .value (.failure ⟨ds, false⟩)⟩) (hps : AllPass n c ps ss es) :
      AllPass n c (p :: ps) (rs ++ ss) (ds ++ es)

variable {n : Nat} {c : Cursor} {p : Parser α} {ps before : List (Parser α)}
variable {rs ss : List Record} {ds es : List Diagnostic}

/-- Either all of the alternatives fail uncommitted, or there is a first that does not. -/
theorem allPass_or_exists_decisive (n : Nat) (c : Cursor) (ps : List (Parser α)) :
    (∃ rs ds, AllPass n c ps rs ds) ∨
      ∃ before q after rs ds, ps = before ++ q :: after ∧ AllPass n c before rs ds ∧
        ∀ es, (q n c).ending ≠ .value (.failure ⟨es, false⟩) := by
  induction ps with
  | nil => exact .inl ⟨[], [], .nil⟩
  | cons p ps ih =>
    by_cases hp : ∃ ds, (p n c).ending = .value (.failure ⟨ds, false⟩)
    · obtain ⟨ds, hds⟩ := hp
      have hrun : p n c = ⟨(p n c).records, .value (.failure ⟨ds, false⟩)⟩ := Run.ext rfl hds
      rcases ih with ⟨ss, es, hps⟩ | ⟨before, q, after, ss, es, heq, hbefore, hq⟩
      · exact .inl ⟨_, _, .cons hrun hps⟩
      · right
        exact ⟨p :: before, q, after, _, _, by rw [heq]; rfl, .cons hrun hbefore, hq⟩
    · right
      exact ⟨[], p, ps, [], [], rfl, .nil, fun ds hds => hp ⟨ds, hds⟩⟩

/-! ## A choice between two -/

/-- Behind an alternative that passes, the second one decides, with the diagnostics of both. -/
theorem or_of_passed (hp : p n c = ⟨rs, .value (.failure ⟨ds, false⟩)⟩) (q : Parser α) :
    Parser.or p q n c = ((q n c).mapFailure (Failure.merge ⟨ds, false⟩)).prepend rs := by
  simp [Parser.or, hp, bind_value]

/-- An alternative that fails committed stops the choice, and a record says so. -/
theorem or_of_stopped (hp : p n c = ⟨rs, .value (.failure ⟨ds, true⟩)⟩) (q : Parser α) :
    Parser.or p q n c =
      ⟨rs ++ [.committed c.position ⟨ds, true⟩], .value (.failure ⟨ds, true⟩)⟩ := by
  simp [Parser.or, hp, bind_value, Run.fail, prepend, pure, Run.pure]

/-- A choice is what its first alternative is, unless that fails. -/
theorem or_of_not_failed (hp : ∀ e, (p n c).ending ≠ .value (.failure e)) (q : Parser α) :
    Parser.or p q n c = p n c :=
  bind_of_not_failed hp fun _ _ => rfl

/-- What a choice comes to where its first alternative fails. -/
theorem ending_or_of_failed {e : Failure} (hp : (p n c).ending = .value (.failure e)) (q : Parser α) :
    (Parser.or p q n c).ending =
      if e.consumed then .value (.failure e) else ((q n c).mapFailure e.merge).ending := by
  have hrun : p n c = ⟨(p n c).records, .value (.failure e)⟩ := Run.ext rfl hp
  rw [Parser.or, hrun, bind_value]
  dsimp only
  split <;> rfl

/-- The empty choice in front of a parser leaves everything to it. -/
theorem choice_nil_or (p : Parser α) : Parser.or (choice []) p = p := by
  funext n c
  have hnil : choice ([] : List (Parser α)) n c = ⟨[], .value (.failure ⟨[], false⟩)⟩ := rfl
  rw [or_of_passed hnil, mapFailure_merge_nil, prepend_nil]

/-- The empty choice behind a parser changes nothing of what it comes to. -/
theorem ending_or_choice_nil (p : Parser α) (n : Nat) (c : Cursor) :
    (Parser.or p (choice []) n c).ending = (p n c).ending := by
  by_cases hp : ∃ e, (p n c).ending = .value (.failure e)
  · obtain ⟨⟨ds, consumed⟩, he⟩ := hp
    have hrun : p n c = ⟨(p n c).records, .value (.failure ⟨ds, consumed⟩)⟩ := Run.ext rfl he
    cases consumed with
    | true => rw [or_of_stopped hrun, he]
    | false =>
      rw [or_of_passed hrun, he]
      simp [choice, choiceAfter, Run.fail, Run.mapFailure, Failure.merge, Failure.empty, bind_value,
        pure, Run.pure]
  · rw [or_of_not_failed fun e he => hp ⟨e, he⟩]

/-! ## One list -/

/-- What alternatives that fail uncommitted leave to the ones behind them is what was expected. -/
theorem choiceAfter_append (hbefore : AllPass n c before rs ds) (past : List Diagnostic)
    (ps : List (Parser α)) :
    choiceAfter ⟨past, false⟩ (before ++ ps) n c =
      (choiceAfter ⟨past ++ ds, false⟩ ps n c).prepend rs := by
  induction hbefore generalizing past with
  | nil => simp
  | cons hp _ ih => simp [choiceAfter, hp, bind_value, Failure.merge, ih]

/-- An alternative that does not fail decides the choice. -/
theorem choiceAfter_of_not_failed (hp : ∀ e, (p n c).ending ≠ .value (.failure e)) (past : Failure)
    (after : List (Parser α)) : choiceAfter past (p :: after) n c = p n c :=
  bind_of_not_failed hp fun _ _ => rfl

/-- One that fails committed stops it, with the diagnostics of those that have passed in front. -/
theorem choiceAfter_of_stopped (hp : p n c = ⟨rs, .value (.failure ⟨es, true⟩)⟩)
    (past : List Diagnostic) (after : List (Parser α)) :
    choiceAfter ⟨past, false⟩ (p :: after) n c =
      ⟨rs ++ [.committed c.position ⟨past ++ es, true⟩], .value (.failure ⟨past ++ es, true⟩)⟩ := by
  simp [choiceAfter, hp, bind_value, Failure.merge, Run.fail, prepend, pure, Run.pure]

/-! ## Brackets to the left -/

/-- As the empty choice leaves everything to the parser behind it, the chain may begin with it. -/
theorem leftNested_eq_foldl (ps : List (Parser α)) :
    leftNested ps = ps.foldl Parser.or (choice []) := by
  cases ps with
  | nil => rfl
  | cons p ps => rw [List.foldl_cons, choice_nil_or, leftNested]

/-- Alternatives that pass, nested to the left, pass together. -/
theorem foldl_or_of_passed (hp : p n c = ⟨rs, .value (.failure ⟨ds, false⟩)⟩)
    (hps : AllPass n c ps ss es) :
    ps.foldl Parser.or p n c = ⟨rs ++ ss, .value (.failure ⟨ds ++ es, false⟩)⟩ := by
  induction hps generalizing p rs ds with
  | nil => simpa using hp
  | @cons q ps ss ss' es es' hq _ ih =>
    have hor : Parser.or p q n c = ⟨rs ++ ss, .value (.failure ⟨ds ++ es, false⟩)⟩ := by
      rw [or_of_passed hp, hq, mapFailure_failed]
      rfl
    rw [List.foldl_cons, ih hor, List.append_assoc, List.append_assoc]

/-- Each choice that passes a committed failure on leaves a record of it. -/
theorem foldl_or_of_stopped (hp : p n c = ⟨rs, .value (.failure ⟨ds, true⟩)⟩)
    (after : List (Parser α)) :
    after.foldl Parser.or p n c =
      ⟨rs ++ List.replicate after.length (.committed c.position ⟨ds, true⟩),
        .value (.failure ⟨ds, true⟩)⟩ := by
  induction after generalizing p rs with
  | nil => simpa using hp
  | cons q after ih =>
    rw [List.foldl_cons, ih (or_of_stopped hp q), List.append_assoc]
    rfl

/-- Alternatives behind one that does not fail are never tried. -/
theorem foldl_or_of_not_failed (hp : ∀ e, (p n c).ending ≠ .value (.failure e))
    (after : List (Parser α)) : after.foldl Parser.or p n c = p n c := by
  induction after generalizing p with
  | nil => rfl
  | cons q after ih =>
    have hor := or_of_not_failed hp q
    rw [List.foldl_cons, ih (by rwa [hor]), hor]

/-- Behind alternatives that fail uncommitted, the chain goes on from the next one with what was
expected so far. -/
theorem leftNested_append (hbefore : AllPass n c before rs ds) (p : Parser α)
    (after : List (Parser α)) :
    ∃ q : Parser α, leftNested (before ++ p :: after) = after.foldl Parser.or q ∧
      q n c = ((p n c).mapFailure (Failure.merge ⟨ds, false⟩)).prepend rs := by
  have hnil : choice ([] : List (Parser α)) n c = ⟨[], .value (.failure ⟨[], false⟩)⟩ := rfl
  have hpassed := foldl_or_of_passed hnil hbefore
  refine ⟨Parser.or (before.foldl Parser.or (choice [])) p, ?_, or_of_passed hpassed p⟩
  rw [leftNested_eq_foldl, List.foldl_append, List.foldl_cons]

/-! ## Brackets to the right -/

/-- Alternatives that pass, nested to the right, pass together as well. -/
theorem rightNested_of_allPass (hps : AllPass n c ps rs ds) :
    rightNested ps n c = ⟨rs, .value (.failure ⟨ds, false⟩)⟩ := by
  induction hps with
  | nil => rfl
  | @cons p ps rs ss ds es hp hps ih =>
    cases ps with
    | nil =>
      cases hps
      simpa [rightNested] using hp
    | cons q ps =>
      rw [rightNested, or_of_passed hp, ih, mapFailure_failed]
      rfl

/-- Behind alternatives that fail uncommitted, what the others come to gets what was expected so far
in front of it. -/
theorem rightNested_append (hbefore : AllPass n c before rs ds) (p : Parser α)
    (after : List (Parser α)) :
    rightNested (before ++ p :: after) n c =
      ((rightNested (p :: after) n c).mapFailure (Failure.merge ⟨ds, false⟩)).prepend rs := by
  induction hbefore with
  | nil => rw [mapFailure_merge_nil, prepend_nil, List.nil_append]
  | @cons q before rs ss ds es hq _ ih =>
    rw [List.cons_append, rightNested_cons q (by simp), or_of_passed hq, ih, mapFailure_prepend,
      mapFailure_merge_merge, prepend_prepend]

/-- Nested to the right, the first alternative that does not fail decides, too. -/
theorem rightNested_of_not_failed (hp : ∀ e, (p n c).ending ≠ .value (.failure e))
    (after : List (Parser α)) : rightNested (p :: after) n c = p n c := by
  cases after with
  | nil => rfl
  | cons q after => exact or_of_not_failed hp _

/-- One choice passes the committed failure on, if there is an alternative behind it. -/
theorem rightNested_of_stopped (hp : p n c = ⟨rs, .value (.failure ⟨ds, true⟩)⟩)
    (after : List (Parser α)) :
    rightNested (p :: after) n c =
      ⟨rs ++ (if after = [] then [] else [.committed c.position ⟨ds, true⟩]),
        .value (.failure ⟨ds, true⟩)⟩ := by
  cases after with
  | nil => simpa [rightNested] using hp
  | cons q after => simpa [rightNested] using or_of_stopped hp _

/-! ## The law of ordered choice -/

/-- At every cursor, alternatives given as one list, or two at a time with the brackets to the left or
to the right, come to the same:
* if all fail uncommitted, to an uncommitted failure with what each expected, in order;
* else the first that does not decides. If it does not fail at all, the run comes to what it comes to.
  If it fails committed, what was expected before it stands in front of what it expected, and the
  failure is recorded once by the one list, by each choice on the left that passes it on, and by the
  one on the right that it is the first alternative of.

A choice among nothing changes no outcome, in front of a parser or behind it. -/
theorem choice_however_grouped :
    (∀ (ps : List (Parser α)) (n : Nat) (c : Cursor),
      (∃ rs ds, AllPass n c ps rs ds ∧
        choice ps n c = ⟨rs, .value (.failure ⟨ds, false⟩)⟩ ∧
        leftNested ps n c = ⟨rs, .value (.failure ⟨ds, false⟩)⟩ ∧
        rightNested ps n c = ⟨rs, .value (.failure ⟨ds, false⟩)⟩) ∨
      ∃ before p after rs ds, ps = before ++ p :: after ∧ AllPass n c before rs ds ∧
        (((∀ e, (p n c).ending ≠ .value (.failure e)) ∧
          choice ps n c = (p n c).prepend rs ∧
          leftNested ps n c = (p n c).prepend rs ∧
          rightNested ps n c = (p n c).prepend rs) ∨
        ∃ ss es, p n c = ⟨ss, .value (.failure ⟨es, true⟩)⟩ ∧
          choice ps n c =
            ⟨rs ++ ss ++ [.committed c.position ⟨ds ++ es, true⟩],
              .value (.failure ⟨ds ++ es, true⟩)⟩ ∧
          leftNested ps n c =
            ⟨rs ++ ss ++ List.replicate after.length (.committed c.position ⟨ds ++ es, true⟩),
              .value (.failure ⟨ds ++ es, true⟩)⟩ ∧
          rightNested ps n c =
            ⟨rs ++ ss ++ (if after = [] then [] else [.committed c.position ⟨es, true⟩]),
              .value (.failure ⟨ds ++ es, true⟩)⟩)) ∧
    ∀ p : Parser α, Parser.or (choice []) p = p ∧
      ∀ n c, (Parser.or p (choice []) n c).ending = (p n c).ending := by
  constructor
  · intro ps n c
    -- either every alternative passes, or one of them decides behind those that pass
    rcases allPass_or_exists_decisive n c ps with
      ⟨rs, ds, hps⟩ | ⟨before, p, after, rs, ds, rfl, hbefore, hp⟩
    · left
      have hchoice := choiceAfter_append hps [] []
      have hnil : choice ([] : List (Parser α)) n c = ⟨[], .value (.failure ⟨[], false⟩)⟩ := rfl
      have hleft := foldl_or_of_passed hnil hps
      rw [← leftNested_eq_foldl] at hleft
      refine ⟨rs, ds, hps, ?_, hleft, rightNested_of_allPass hps⟩
      simpa [choice, choiceAfter, Failure.empty, Run.fail, prepend, pure, Run.pure] using hchoice
    · right
      have hchoice := choiceAfter_append hbefore [] (p :: after)
      obtain ⟨q, hleft, hq⟩ := leftNested_append hbefore p after
      have hright := rightNested_append hbefore p after
      refine ⟨before, p, after, rs, ds, rfl, hbefore, ?_⟩
      -- the one that decides may fail committed, or not fail at all
      by_cases hfails : ∃ e, (p n c).ending = .value (.failure e)
      · right
        obtain ⟨⟨es, consumed⟩, he⟩ := hfails
        have hconsumed : consumed = true := by
          cases consumed with
          | true => rfl
          | false => exact absurd he (hp es)
        have hrun : p n c = ⟨(p n c).records, .value (.failure ⟨es, true⟩)⟩ :=
          Run.ext rfl (hconsumed ▸ he)
        rw [choiceAfter_of_stopped hrun] at hchoice
        rw [hrun, mapFailure_failed] at hq
        rw [rightNested_of_stopped hrun, mapFailure_failed] at hright
        refine ⟨(p n c).records, es, hrun, ?_, ?_, ?_⟩
        · rw [choice, Failure.empty, hchoice]
          simp [prepend]
        · rw [hleft, foldl_or_of_stopped hq]
        · rw [hright]
          simp [prepend, Failure.merge]
      · left
        have hends : ∀ e, (p n c).ending ≠ .value (.failure e) := fun e he => hfails ⟨e, he⟩
        rw [mapFailure_of_not_failed hends] at hq
        rw [choiceAfter_of_not_failed hends] at hchoice
        rw [rightNested_of_not_failed hends, mapFailure_of_not_failed hends] at hright
        have hq' : ∀ e, (q n c).ending ≠ .value (.failure e) := by rwa [hq]
        exact ⟨hends, hchoice, by rw [hleft, foldl_or_of_not_failed hq', hq], hright⟩
  · intro p
    exact ⟨choice_nil_or p, ending_or_choice_nil p⟩

/-- Three alternatives of which the first fails committed: one record, two records, one record. -/
example :
    let c := Cursor.start (Source.ofString 0 "b")
    let p : Parser Unit := fun _ c => Run.fail (Failure.expected "a" c.position).commit
    let ps := [p, Parser.pure (), Parser.pure ()]
    (choice ps 1 c).records.length = 1 ∧ (leftNested ps 1 c).records.length = 2 ∧
      (rightNested ps 1 c).records.length = 1 := by
  decide

end Parser

end CommittedParsing
