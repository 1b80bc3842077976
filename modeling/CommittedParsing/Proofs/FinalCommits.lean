import CommittedParsing.Parser.Entry
import CommittedParsing.Proofs.AddedAttempts

/-!
# Final commits

A commit is final where nothing clears it. Once an alternation has been stopped by a committed
failure, every parser around it fails committed as well, and nothing else is tried: the records of
the stopped alternations lead outwards, from where the failure arose to the start of the whole
parse, and the diagnostics of the first of them end the diagnostics of the whole.

A run either stops no alternation, and then it moves forward if it succeeds, or it is stopped; the
two are told apart by the failure that the next parser sees, since an uncommitted failure can only
come from a run without a stop.

Main statements:
* `Run.CommitsFrom.bind_outcome` — what a parser has to do with the outcome of a part;
* `Grammar.commits_from_start` — the law for one grammar, from the law for what it refers to;
* `System.commit_is_final` — the law for every grammar of a system of rules.
-/

namespace CommittedParsing

/-! ## Final commits -/

namespace Run

variable {α β : Type} {start : Nat}

/-- A commit is final: a run in which an alternation was stopped ends with a committed failure, the
stopped alternations began one before the other, and the diagnostics of the first of them are the
last of the run. -/
structure CommitIsFinal (r : Run (Outcome α)) : Prop where
  backwards : (r.stops.map Prod.fst).Pairwise (· ≥ ·)
  final : ∀ first later, r.stops = first :: later →
    ∃ e, r.ending = .value (.failure e) ∧ e.consumed = true ∧
      first.2.diagnostics <:+ e.diagnostics

/-! ## Runs from a position -/

/-- No alternation was stopped, and a success is not before the position. -/
structure Quiet (start : Nat) (r : Run (Outcome α)) : Prop where
  stops : r.stops = []
  forward : ∀ a rest, r.ending = .value (.success a rest) → start ≤ rest.position

/-- An alternation was stopped, none before the position, and the run ends with a failure. -/
structure Stopped (start : Nat) (r : Run (Outcome α)) (e : Failure) : Prop where
  ending : r.ending = .value (.failure e)
  consumed : e.consumed = true
  backwards : (r.stops.map Prod.fst).Pairwise (· ≥ ·)
  within : ∀ stop ∈ r.stops, start ≤ stop.1
  first : ∃ first later, r.stops = first :: later ∧ first.2.diagnostics <:+ e.diagnostics

/-- What runs from a position do. -/
def CommitsFrom (start : Nat) (r : Run (Outcome α)) : Prop :=
  r.Quiet start ∨ ∃ e, r.Stopped start e

/-- What is done with a committed failure: the run fails committed as well, with the diagnostics at
the end, and at most one alternation, which began at the position, is stopped by it. -/
structure PassesOn (start : Nat) (e : Failure) (r : Run (Outcome α)) (e' : Failure) : Prop where
  ending : r.ending = .value (.failure e')
  consumed : e'.consumed = true
  kept : e.diagnostics <:+ e'.diagnostics
  stops : r.stops = [] ∨ r.stops = [(start, e')]

/-- A failure that is committed as it is passes itself on. -/
theorem passesOn_fail {e : Failure} (he : e.consumed = true) :
    (fail e : Run (Outcome α)).PassesOn start e e :=
  ⟨rfl, he, List.suffix_refl _, .inl rfl⟩

/-- A run that was stopped, and what passes its failure on: the alternations that are stopped later
began no later. -/
theorem Stopped.passOn {r : Run (Outcome α)} {e e' : Failure} {next : Outcome α → Run (Outcome β)}
    (hr : r.Stopped start e) (hnext : (next (.failure e)).PassesOn start e e') :
    (r >>= next).Stopped start e' := by
  rcases r with ⟨records, ending⟩
  cases hr.ending
  rw [bind_value]
  have hstops : ((next (.failure e)).prepend records).stops =
      records.filterMap Record.stop? ++ (next (.failure e)).stops := stops_prepend _ _
  -- what goes on adds one record at most, and that one at the start
  have hlater : ∀ stop ∈ (next (.failure e)).stops, stop.1 = start := by
    rcases hnext.stops with hnone | hone
    · simp [hnone]
    · simp [hone]
  constructor
  · exact hnext.ending
  · exact hnext.consumed
  -- the records go backwards: the new one lies before all of the others
  · rw [hstops, List.map_append, List.pairwise_append]
    refine ⟨hr.backwards, ?_, ?_⟩
    · rcases hnext.stops with hnone | hone
      · simp [hnone]
      · simp [hone]
    · simp only [List.mem_map, forall_exists_index, and_imp, forall_apply_eq_imp_iff₂]
      intro stop hstop later hlaterMem
      rw [hlater later hlaterMem]
      exact hr.within stop hstop
  · intro stop hstop
    rw [hstops, List.mem_append] at hstop
    rcases hstop with hstop | hstop
    · exact hr.within stop hstop
    · exact Nat.le_of_eq (hlater stop hstop).symm
  · rcases hr.first with ⟨first, later, hfirst, hkept⟩
    refine ⟨first, later ++ (next (.failure e)).stops, ?_, hkept.trans hnext.kept⟩
    rw [hstops]
    exact congrArg (· ++ (next (.failure e)).stops) hfirst

namespace CommitsFrom

variable {r : Run (Outcome α)}

/-- A committed failure may be passed on by a run in which an alternation is stopped. -/
theorem of_passesOn {e e' : Failure} (h : r.PassesOn start e e') : r.CommitsFrom start := by
  rcases h.stops with hnone | hone
  · left
    refine ⟨hnone, ?_⟩
    intro a rest hr
    rw [h.ending] at hr
    cases hr
  · right
    refine ⟨e', h.ending, h.consumed, ?_, ?_, (start, e'), [], hone, List.suffix_refl _⟩
    · simp [hone]
    · simp [hone]

/-- A run that commits finally from some place is one whose commitment is final. -/
theorem commitIsFinal (h : r.CommitsFrom start) : r.CommitIsFinal := by
  rcases h with hquiet | ⟨e, hstopped⟩
  · constructor
    · rw [hquiet.stops]
      exact .nil
    · intro first later hstops
      rw [hquiet.stops] at hstops
      cases hstops
  · constructor
    · exact hstopped.backwards
    · intro first later hstops
      rcases hstopped.first with ⟨first', later', hstops', hkept⟩
      have hsame : first = first' := by
        rw [hstops'] at hstops
        exact (List.cons.inj hstops).1.symm
      rw [hsame]
      exact ⟨e, hstopped.ending, hstopped.consumed, hkept⟩

/-- The place from which a run is looked at may be moved back. -/
theorem mono {later : Nat} (h : r.CommitsFrom later) (hle : start ≤ later) :
    r.CommitsFrom start := by
  rcases h with hquiet | ⟨e, hstopped⟩
  · left
    exact ⟨hquiet.stops, fun a rest hr => Nat.le_trans hle (hquiet.forward a rest hr)⟩
  · right
    exact ⟨e, { hstopped with
      within := fun stop hstop => Nat.le_trans hle (hstopped.within stop hstop) }⟩

/-- A success has committed to nothing. -/
theorem of_succeed {a : α} {rest : Cursor} (h : start ≤ rest.position) :
    (succeed a rest).CommitsFrom start := by
  left
  constructor
  · rfl
  · rintro _ _ ⟨⟩
    exact h

/-- A failure on the spot is not passed on from anywhere, so there is nothing to keep. -/
theorem of_fail (e : Failure) : (fail e : Run (Outcome α)).CommitsFrom start := by
  left
  exact ⟨rfl, nofun⟩

/-- A fault leaves no record of a commitment. -/
theorem of_fault (e : Fault) : (fault e : Run (Outcome α)).CommitsFrom start := by
  left
  exact ⟨rfl, nofun⟩

theorem of_outOfFuel : (outOfFuel : Run (Outcome α)).CommitsFrom start := by
  left
  exact ⟨rfl, nofun⟩

/-- Records of other things than commitments may be put in front. -/
theorem prepend {records : List Record} (hrecords : records.filterMap Record.stop? = [])
    (h : r.CommitsFrom start) : (r.prepend records).CommitsFrom start := by
  have hstops : (r.prepend records).stops = r.stops := by
    rw [stops_prepend, hrecords, List.nil_append]
  rcases h with hquiet | ⟨e, hstopped⟩
  · left
    exact ⟨hstops.trans hquiet.stops, hquiet.forward⟩
  · right
    refine ⟨e, hstopped.ending, hstopped.consumed, ?_, ?_, ?_⟩
    · rw [hstops]
      exact hstopped.backwards
    · rw [hstops]
      exact hstopped.within
    · rw [hstops]
      exact hstopped.first


/-- What has to be done with the outcome of a part that began at the position: after a success and
after an uncommitted failure anything that runs from the position, while a committed failure has to
be passed on. -/
theorem bind_outcome {next : Outcome α → Run (Outcome β)} (hr : r.CommitsFrom start)
    (hsuccess : ∀ a rest, start ≤ rest.position → (next (.success a rest)).CommitsFrom start)
    (huncommitted : ∀ e, e.consumed = false → (next (.failure e)).CommitsFrom start)
    (hcommitted : ∀ e, e.consumed = true → ∃ e', (next (.failure e)).PassesOn start e e') :
    (r >>= next).CommitsFrom start := by
  -- either nothing was recorded yet, or the run has stopped on a committed failure
  rcases hr with hquiet | ⟨e, hstopped⟩
  · have hrecords := hquiet.stops
    have hforward := hquiet.forward
    cases r using outcome_cases with
    | success records a rest =>
      rw [bind_value]
      exact (hsuccess a rest (hforward a rest rfl)).prepend hrecords
    | failure records e =>
      rw [bind_value]
      by_cases hconsumed : e.consumed = true
      · rcases hcommitted e hconsumed with ⟨e', hnext⟩
        exact (of_passesOn hnext).prepend hrecords
      · exact (huncommitted e (Bool.eq_false_iff.2 hconsumed)).prepend hrecords
    | fault records e =>
      left
      exact ⟨hrecords, nofun⟩
    | outOfFuel records =>
      left
      exact ⟨hrecords, nofun⟩
  · rcases hcommitted e hstopped.consumed with ⟨e', hnext⟩
    right
    exact ⟨e', hstopped.passOn hnext⟩

/-- A run that goes on from where the first part has ended, and commits finally from there, commits
finally as a whole. -/
theorem andThen {next : α → Cursor → Run (Outcome β)} (hr : r.CommitsFrom start)
    (hnext : ∀ a rest, (next a rest).CommitsFrom rest.position) :
    (r.andThen next).CommitsFrom start := by
  refine hr.bind_outcome ?_ ?_ ?_
  · intro a rest hle
    exact (hnext a rest).mono hle
  · intro e _
    exact of_fail e
  · intro e he
    exact ⟨e, passesOn_fail he⟩

/-- A change to the failures that neither clears a commit nor puts anything behind the diagnostics of
a committed failure. -/
theorem mapFailure {change : Failure → Failure} (hr : r.CommitsFrom start)
    (hconsumed : ∀ e, e.consumed = true → (change e).consumed = true)
    (hkept : ∀ e, e.consumed = true → e.diagnostics <:+ (change e).diagnostics) :
    (r.mapFailure change).CommitsFrom start := by
  refine hr.bind_outcome ?_ ?_ ?_
  · intro a rest hle
    exact of_succeed hle
  · intro e _
    exact of_fail (change e)
  · intro e he
    exact ⟨change e, rfl, hconsumed e he, hkept e he, .inl rfl⟩

/-- Committing the failure at the end leaves what was recorded before it as it was. -/
theorem commit (hr : r.CommitsFrom start) : r.commit.CommitsFrom start :=
  hr.mapFailure (fun _ _ => rfl) fun _ _ => List.suffix_refl _

/-- Changing the value of a success leaves the records alone. -/
theorem map {f : α → Cursor → β} (hr : r.CommitsFrom start) :
    (r.andThen fun a rest => succeed (f a rest) rest).CommitsFrom start :=
  hr.andThen fun _ _ => of_succeed (Nat.le_refl _)

end CommitsFrom

end Run

/-! ## The combinators -/

namespace Parser

open Run

variable {α β γ δ σ : Type}

/-- With any fuel and from every cursor. -/
def CommitsFinally (p : Parser α) : Prop := ∀ n c, (p n c).CommitsFrom c.position

namespace CommitsFinally

variable {p : Parser α} {q : Parser β} {r : Parser γ}

/-- A change to the values is none to the failures. -/
theorem map (hp : p.CommitsFinally) (f : α → β) : (p.map f).CommitsFinally :=
  fun n c => (hp n c).map

/-- A fault leaves no record and is no success, so nothing has to hold of it. -/
theorem mapChecked (hp : p.CommitsFinally) (f : α → Except Fault β) :
    (p.mapChecked f).CommitsFinally := by
  intro n c
  refine (hp n c).andThen ?_
  intro a rest
  cases f a with
  | error e => exact .of_fault e
  | ok b => exact .of_succeed (Nat.le_refl _)

/-- Reading off where a parser has been adds no commitment. -/
theorem position (hp : p.CommitsFinally) : (position p).CommitsFinally := fun n c => (hp n c).map

theorem satisfy (accepts : Char → Bool) (description : String) :
    (satisfy accepts description).CommitsFinally := by
  intro n c
  cases hrest : c.rest with
  | nil =>
    rw [satisfy_eq_of_nil hrest]
    exact .of_fail _
  | cons ch rest =>
    rw [satisfy_eq_of_cons hrest]
    split
    · exact .of_succeed (Nat.le_add_right _ _)
    · exact .of_fail _

theorem text (expected : String) : (text expected).CommitsFinally := by
  intro n c
  unfold Parser.text
  split
  · exact .of_succeed (Nat.le_add_right _ _)
  · exact .of_fail _

theorem endOfInput : endOfInput.CommitsFinally := by
  intro n c
  unfold Parser.endOfInput
  split
  · exact .of_succeed (Nat.le_refl _)
  · exact .of_fail _

/-- A rejected value is a failure of its own, with nothing stopped before it. -/
theorem filterChecked (hp : p.CommitsFinally) (accepts : α → Except Fault Bool)
    (description : String) : (p.filterChecked accepts description).CommitsFinally := by
  intro n c
  refine (hp n c).andThen ?_
  intro a rest
  cases accepts a with
  | error e => exact .of_fault e
  | ok accepted =>
    cases accepted with
    | true => exact .of_succeed (Nat.le_refl _)
    | false => exact .of_fail _

/-- Behind the first part every failure is committed, and it is passed on. -/
theorem seq2 (hp : p.CommitsFinally) (hq : q.CommitsFinally) (combine : α → β → γ) :
    (seq2 p q combine).CommitsFinally :=
  fun n c => (hp n c).andThen fun _ afterFirst => (hq n afterFirst).commit.map

theorem seq3 (hp : p.CommitsFinally) (hq : q.CommitsFinally) (hr : r.CommitsFinally)
    (combine : α → β → γ → δ) : (seq3 p q r combine).CommitsFinally :=
  fun n c => (hp n c).andThen fun _ afterFirst =>
    (hq n afterFirst).commit.andThen fun _ afterSecond => (hr n afterSecond).commit.map

/-- Binding goes on with a parser that the value gives, and commits what it fails with. -/
theorem bind {next : α → Parser β} (hp : p.CommitsFinally)
    (hnext : ∀ a, (next a).CommitsFinally) : (Parser.bind p next).CommitsFinally :=
  fun n c => (hp n c).andThen fun a rest => (hnext a n rest).commit

/-- A committed failure of the first alternative is recorded and is the failure of the whole. -/
theorem or {q : Parser α} (hp : p.CommitsFinally) (hq : q.CommitsFinally) :
    (Parser.or p q).CommitsFinally := by
  intro n c
  refine (hp n c).bind_outcome ?_ ?_ ?_
  · intro a rest hle
    exact .of_succeed hle
  · intro e he
    simp only [he]
    -- the second alternative decides, and its diagnostics stay behind those of the first
    exact (hq n c).mapFailure (fun _ hlater => hlater) fun _ _ => List.suffix_append _ _
  · intro e he
    simp only [he, if_true]
    exact ⟨e, rfl, he, List.suffix_refl _, .inr rfl⟩

/-- So is that of any alternative, behind the diagnostics of those before it. -/
theorem choiceAfter {ps : List (Parser α)} (hps : ∀ p ∈ ps, p.CommitsFinally) (past : Failure) :
    (choiceAfter past ps).CommitsFinally := by
  intro n c
  induction ps generalizing past with
  | nil => exact .of_fail past
  | cons p ps ih =>
    refine (hps p List.mem_cons_self n c).bind_outcome ?_ ?_ ?_
    · intro a rest hle
      exact .of_succeed hle
    · intro e he
      simp only [he]
      exact ih (fun q hq => hps q (List.mem_cons_of_mem _ hq)) (past.merge e)
    · intro e he
      simp only [he, if_true]
      exact ⟨past.merge e, rfl, he, List.suffix_append _ _, .inr rfl⟩

/-- A label renames a failure only where it is not committed, so no commitment is renamed. -/
theorem label (hp : p.CommitsFinally) (description : String) :
    (label description p).CommitsFinally := by
  intro n c
  refine (hp n c).mapFailure ?_ ?_
  · intro e he
    simp [he]
  · intro e he
    simp [he]

/-- An optional parser passes a committed failure on and takes any other for a success. -/
theorem optional (hp : p.CommitsFinally) : (optional p).CommitsFinally := by
  intro n c
  refine (hp n c).bind_outcome ?_ ?_ ?_
  · intro a rest hle
    exact .of_succeed hle
  · intro e he
    simp only [he]
    exact .of_succeed (Nat.le_refl _)
  · intro e he
    simp only [he, if_true]
    exact ⟨e, passesOn_fail he⟩

/-! ### Repetitions and chains -/

/-- The rounds of a repetition, by the number of rounds that are left. -/
theorem rounds (hp : p.CommitsFinally) (n fuel : Nat) (past : List α) (c : Cursor) :
    (Run.loop (repeatStep p n) fuel (past, c)).CommitsFrom c.position := by
  induction fuel generalizing past c with
  | zero => exact .of_outOfFuel
  | succ fuel ih =>
    rw [repeatFrom_succ]
    -- a round that succeeds goes on from further ahead; the last may fail, committed or not
    refine (hp n c).bind_outcome ?_ ?_ ?_
    · intro a rest hle
      dsimp only
      split
      · exact .of_succeed hle
      · exact (ih (a :: past) rest).mono hle
    · intro e he
      simp only [he]
      exact .of_succeed (Nat.le_refl _)
    · intro e he
      simp only [he, if_true]
      exact ⟨e, passesOn_fail he⟩

/-- A repetition passes on the committed failure of a round, and ends on any other. -/
theorem many (hp : p.CommitsFinally) : (many p).CommitsFinally := fun n c => hp.rounds n n [] c

/-- With one round at least, the first is a sequence in front of the repetition. -/
theorem many1 (hp : p.CommitsFinally) : (many1 p).CommitsFinally := by
  intro n c
  refine (hp n c).andThen ?_
  intro a rest
  split
  · exact .of_succeed (Nat.le_refl _)
  · exact hp.rounds n n [a] rest

/-- The rounds of a chain, by the number of rounds that are left. -/
theorem chainRounds (hq : q.CommitsFinally) (hp : p.CommitsFinally)
    (take : σ → β → α → Except Fault σ) (n fuel : Nat) (s : σ) (c : Cursor) :
    (Run.loop (chainStep q p take n) fuel (s, c)).CommitsFrom c.position := by
  induction fuel generalizing s c with
  | zero => exact .of_outOfFuel
  | succ fuel ih =>
    rw [chainFrom_succ]
    refine (hq n c).bind_outcome ?_ ?_ ?_
    -- behind an operator there has to be an operand, whose failure is committed
    · intro b afterOperator hle
      refine CommitsFrom.mono ?_ hle
      refine (hp n afterOperator).commit.andThen fun a rest => ?_
      cases take s b a with
      | error e => exact .of_fault e
      | ok s' => exact ih s' rest
    · intro e he
      simp only [he]
      exact .of_succeed (Nat.le_refl _)
    · intro e he
      simp only [he, if_true]
      exact ⟨e, passesOn_fail he⟩

/-- A chain is a sequence of an operand and a repetition of operators and operands. -/
theorem chain (hp : p.CommitsFinally) (hq : q.CommitsFinally) (start : α → σ)
    (take : σ → β → α → Except Fault σ) : (chain p q start take).CommitsFinally :=
  fun n c => (hp n c).andThen fun first rest => hq.chainRounds hp take n n (start first) rest

end CommitsFinally

end Parser

/-! ## The law for grammars -/

/-- The comparison for the law: the condition is on the first grammar alone. -/
def committingFinally : Comparison where
  Rel p _ := ∀ c, (p c).CommitsFrom c.position
  outOfFuel _ := .of_outOfFuel
  fault e _ := .of_fault e
  announce k _ h c := (h c).prepend (Record.filterMap_stop?_ruleDefined k)

/-- A grammar in which nothing clears a commit follows the law if what it refers to does. -/
theorem Grammar.commits_from_start {g : Grammar} (hg : g.Everywhere IsPlain) :
    committingFinally.Grammars g g := by
  -- over the grammar; the forms that take a commitment back are excluded by `IsPlain`
  induction g with
  | satisfy accepts description =>
    intro _ _ _ _ _
    exact (Parser.CommitsFinally.satisfy accepts description).map Value.char
  | text expected =>
    intro _ _ _ _ _
    exact (Parser.CommitsFinally.text expected).map Value.string
  | endOfInput =>
    intro _ _ _ _ _
    exact Parser.CommitsFinally.endOfInput.map fun _ => Value.unit
  | pure v => exact fun _ _ _ => .of_succeed (Nat.le_refl _)
  | custom parse => exact hg.here.elim
  | map body change ih =>
    intro _ _ _ _ hcontext
    exact Parser.CommitsFinally.mapChecked (ih (hg.part (by simp)) hcontext) change
  | filter body accepts description ih =>
    intro _ _ _ _ hcontext
    exact Parser.CommitsFinally.filterChecked (ih (hg.part (by simp)) hcontext) accepts description
  | bind first captured next ihFirst ihNext =>
    intro _ _ _ _ hcontext
    refine Parser.CommitsFinally.bind (ihFirst (hg.part (by simp)) hcontext) fun v => ?_
    exact Comparison.Grammars.made (.refl fun g hv => ihNext v g hv (hg.next hv)) hcontext
  | many body ih =>
    intro _ _ _ _ hcontext
    exact (Parser.CommitsFinally.many (ih (hg.part (by simp)) hcontext)).map _
  | many1 body ih =>
    intro _ _ _ _ hcontext
    exact (Parser.CommitsFinally.many1 (ih (hg.part (by simp)) hcontext)).map _
  | or first second ihFirst ihSecond =>
    intro _ _ _ _ hcontext
    exact Parser.CommitsFinally.or (ihFirst (hg.part (by simp)) hcontext)
      (ihSecond (hg.part (by simp)) hcontext)
  | choice count alternatives ih =>
    intro _ _ _ _ hcontext
    refine Parser.CommitsFinally.choiceAfter ?_ Failure.empty
    intro p hp
    rcases List.mem_ofFn.1 hp with ⟨i, rfl⟩
    exact ih i (hg.part (by simp)) hcontext
  | attempt body ih => exact hg.here.elim
  | seq2 first second combine ihFirst ihSecond =>
    intro _ _ _ _ hcontext
    exact (Parser.CommitsFinally.seq2 (ihFirst (hg.part (by simp)) hcontext)
      (ihSecond (hg.part (by simp)) hcontext) _).mapChecked _
  | seq3 first second third combine ihFirst ihSecond ihThird =>
    intro _ _ _ _ hcontext
    exact (Parser.CommitsFinally.seq3 (ihFirst (hg.part (by simp)) hcontext)
      (ihSecond (hg.part (by simp)) hcontext) (ihThird (hg.part (by simp)) hcontext) _).mapChecked _
  | optional body ih =>
    intro _ _ _ _ hcontext
    exact (Parser.CommitsFinally.optional (ih (hg.part (by simp)) hcontext)).map _
  | not body description ih => exact hg.here.elim
  | sepBy item separator ihItem ihSeparator =>
    intro _ _ _ _ hcontext
    exact ((Parser.CommitsFinally.chain (ihItem (hg.part (by simp)) hcontext)
      (ihSeparator (hg.part (by simp)) hcontext) _ _).map _).map _
  | label body description ih =>
    intro _ _ _ _ hcontext
    exact Parser.CommitsFinally.label (ih (hg.part (by simp)) hcontext) description
  | position body ih =>
    intro _ _ _ _ hcontext
    exact (Parser.CommitsFinally.position (ih (hg.part (by simp)) hcontext)).map _
  | chainLeft operand operator fold ihOperand ihOperator =>
    intro _ _ _ _ hcontext
    exact Parser.CommitsFinally.chain (ihOperand (hg.part (by simp)) hcontext)
      (ihOperator (hg.part (by simp)) hcontext) _ _
  | chainRight operand operator fold ihOperand ihOperator =>
    intro _ _ _ _ hcontext
    exact ((Parser.CommitsFinally.chain (ihOperand (hg.part (by simp)) hcontext)
      (ihOperator (hg.part (by simp)) hcontext) _ _).map _).mapChecked _
  | delayed body ih => exact Comparison.Grammars.delayed (ih (hg.part (by simp)))
  | call name => exact Comparison.Grammars.call name
  | recursive name body ih => exact Comparison.Grammars.recursive (ih (hg.part (by simp))) name
  | reference name => exact Comparison.Grammars.reference name

/-- A parse of a whole source stops the same alternations as the run of its parser. -/
theorem Run.CommitIsFinal.parse {α : Type} {p : Parser α} {source : Source} {n : Nat}
    (h : (p n (Cursor.start source)).CommitIsFinal) : (p.parse source n).CommitIsFinal := by
  have hstops : (p.parse source n).stops = (p n (Cursor.start source)).stops := by
    unfold Parser.parse
    generalize p n (Cursor.start source) = r
    cases r using Run.outcome_cases <;>
      simp [Run.stops, Run.bind_def, List.filterMap_cons, Record.stop?, Outcome.record]
  constructor
  · rw [hstops]
    exact h.backwards
  · rw [hstops, Parser.ending_parse]
    exact h.final

/-- Where nothing in a system clears a commit, a commit is final: in every parse of a source, and in
every run from a cursor, the first stopped alternation means that the whole fails committed, its
diagnostics are the last of the failure, and the stopped alternations began one before the other. -/
theorem System.commit_is_final {s : System} (hs : s.Everywhere Grammar.IsPlain) {d : Definition}
    (hd : d.body.Everywhere Grammar.IsPlain) (n : Nat) :
    (∀ source, ((s.parser d).parse source n).CommitIsFinal) ∧
      ∀ c, (s.parser d n c).CommitIsFinal := by
  have hfrom : ∀ c, (s.parser d n c).CommitsFrom c.position :=
    Comparison.everywhere (K := committingFinally) (fun _ => Grammar.commits_from_start) hs hd n
  constructor
  · intro source
    exact (hfrom (Cursor.start source)).commitIsFinal.parse
  · intro c
    exact (hfrom c).commitIsFinal

/-- A choice whose second alternative is a rule with an alternation of its own: the inner one is
stopped first, and its diagnostic ends those of the choice. -/
theorem commit_is_final_at_byte_one :
    let s : System :=
      ⟨⟨[.defined ⟨.and (.literal 'a') (.or (.and (.literal 'b') (.literal 'c')) (.literal 'd')),
        []⟩]⟩, []⟩
    let d : Definition :=
      ⟨.alternatives [.literal 'x', .reference "rule"], [("rule", .strong 0)]⟩
    let r := (s.parser d).parse (Source.ofString 0 "abx") 3
    let inner : Failure := ⟨[⟨"'c'", 2⟩], true⟩
    let outer : Failure := ⟨[⟨"'x'", 0⟩, ⟨"'c'", 2⟩], true⟩
    s.Everywhere Grammar.IsPlain ∧ d.body.Everywhere Grammar.IsPlain ∧
      r.stops = [(1, inner), (0, outer)] ∧ r.CommitIsFinal ∧
      ∃ e, r.ending = .value (.failure e) ∧ e.consumed = true ∧
        inner.diagnostics <:+ e.diagnostics := by
  intro s d r inner outer
  have hliteral : ∀ ch, (Grammar.literal ch).Everywhere Grammar.IsPlain :=
    fun _ => .intro trivial (by simp [Grammar.literal])
  have hand : ∀ {g g' : Grammar}, g.Everywhere Grammar.IsPlain → g'.Everywhere Grammar.IsPlain →
      (Grammar.and g g').Everywhere Grammar.IsPlain :=
    fun hg hg' => .intro trivial (by simp [Grammar.and, hg, hg'])
  have hs : s.Everywhere Grammar.IsPlain := by
    have hinner : (Grammar.or (.and (.literal 'b') (.literal 'c')) (.literal 'd')).Everywhere
        Grammar.IsPlain :=
      .intro trivial (by simp [hand (hliteral 'b') (hliteral 'c'), hliteral 'd'])
    exact System.Each.of_single (hand (hliteral 'a') hinner) []
  have hd : d.body.Everywhere Grammar.IsPlain := by
    have hrule : (Grammar.reference "rule").Everywhere Grammar.IsPlain :=
      .intro trivial (by simp)
    exact .intro trivial (by simp [d, Grammar.alternatives, or_imp, forall_and, hrule, hliteral])
  have hstops : r.stops = [(1, inner), (0, outer)] := rfl
  have hfinal : r.CommitIsFinal := (System.commit_is_final hs hd 3).1 _
  exact ⟨hs, hd, hstops, hfinal, hfinal.final _ _ hstops⟩

end CommittedParsing
