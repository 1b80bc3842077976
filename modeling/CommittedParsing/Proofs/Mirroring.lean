import CommittedParsing.Proofs.Fuel
import Mathlib.Data.List.Forall2

/-!
# Runs that mirror each other

Two runs at different places, in different sources or with different fuels, may still do the same.
What the same is depends on which places correspond to each other: their texts have to be the same
from there on, but not what stands before them. If the first of two runs has ended, the second has
to end in the corresponding way, and to be stopped at corresponding places.

Main statements:
* `Run.MirroredBy.bind`, `Run.MirroredBy.loop` — runs in sequence and loops;
* `Parser.MirroredBy.repeatFrom`, `Parser.MirroredBy.choiceAfter`, `Parser.MirroredBy.fix` — the
  combinators; a repetition only asks whether two positions are the same.
-/

namespace CommittedParsing

open CommittedParsing.Parser Run

/-! ## Corresponding places -/

/-- Which cursors correspond, and which positions. The text from there on is the same, and positions
are told apart in the same way. -/
structure Correspondence where
  Cursors : Cursor → Cursor → Prop
  Positions : Nat → Nat → Prop
  rest_eq : ∀ {c c'}, Cursors c c' → c.rest = c'.rest
  atEnd_eq : ∀ {c c'}, Cursors c c' → c.atEnd = c'.atEnd
  position : ∀ {c c'}, Cursors c c' → Positions c.position c'.position
  skip : ∀ {c c' matched rest}, Cursors c c' → c.rest = matched ++ rest →
    Cursors (c.skip matched rest) (c'.skip matched rest)
  eq_iff : ∀ {p p' q q'}, Positions p p' → Positions q q' → (p = q ↔ p' = q')

namespace Correspondence

/-- The other way round. -/
def flip (K : Correspondence) : Correspondence where
  Cursors c c' := K.Cursors c' c
  Positions p p' := K.Positions p' p
  rest_eq h := (K.rest_eq h).symm
  atEnd_eq h := (K.atEnd_eq h).symm
  position := K.position
  skip h hrest := K.skip h ((K.rest_eq h).trans hrest)
  eq_iff h h' := (K.eq_iff h h').symm

/-- Every place corresponds to itself alone. -/
def same : Correspondence where
  Cursors := Eq
  Positions := Eq
  rest_eq h := congrArg Cursor.rest h
  atEnd_eq h := congrArg Cursor.atEnd h
  position h := congrArg Cursor.position h
  skip h _ := by rw [h]
  eq_iff h h' := by rw [h, h']

variable (K : Correspondence)

/-- The same was expected, at corresponding positions. -/
structure Diagnostics (d d' : Diagnostic) : Prop where
  expected : d.expected = d'.expected
  position : K.Positions d.position d'.position

/-- The diagnostics correspond one to one, and the failures are both committed or both not. -/
structure Failures (e e' : Failure) : Prop where
  diagnostics : List.Forall₂ K.Diagnostics e.diagnostics e'.diagnostics
  consumed : e.consumed = e'.consumed

/-- The same value at corresponding cursors, or corresponding failures. -/
inductive Outcomes {α : Type} : Outcome α → Outcome α → Prop where
  | success (a : α) {rest rest' : Cursor} : K.Cursors rest rest' →
      Outcomes (.success a rest) (.success a rest')
  | failure {e e' : Failure} : K.Failures e e' → Outcomes (.failure e) (.failure e')

/-- Alternations that began at corresponding positions were stopped by corresponding failures. -/
structure Stops (stop stop' : Nat × Failure) : Prop where
  position : K.Positions stop.1 stop'.1
  failure : K.Failures stop.2 stop'.2

namespace Failures

variable {K} {e e' later later' : Failure} {c c' : Cursor}

/-- What is missing at corresponding places. -/
theorem expected (hc : K.Cursors c c') (description : String) :
    K.Failures (Failure.expected description c.position)
      (Failure.expected description c'.position) where
  diagnostics := .cons ⟨rfl, K.position hc⟩ .nil
  consumed := rfl

/-- A failure that expects nothing corresponds to itself. -/
theorem empty : K.Failures Failure.empty Failure.empty := ⟨.nil, rfl⟩

/-- Committing keeps the correspondence of failures. -/
theorem commit (he : K.Failures e e') : K.Failures e.commit e'.commit := ⟨he.diagnostics, rfl⟩

theorem uncommit (he : K.Failures e e') : K.Failures e.uncommit e'.uncommit := ⟨he.diagnostics, rfl⟩

/-- The commit is that of the later failure on both sides. -/
theorem merge (he : K.Failures e e') (hlater : K.Failures later later') :
    K.Failures (e.merge later) (e'.merge later') where
  diagnostics := List.rel_append he.diagnostics hlater.diagnostics
  consumed := hlater.consumed

/-- Where every place corresponds to itself alone, failures that correspond are equal. -/
theorem eq_of_same (he : same.Failures e e') : e = e' := by
  rcases e with ⟨diagnostics, consumed⟩
  rcases e' with ⟨diagnostics', consumed'⟩
  rcases he with ⟨hdiagnostics, rfl⟩
  have heq : List.Forall₂ Eq diagnostics diagnostics' := by
    refine hdiagnostics.imp ?_
    rintro ⟨expected, position⟩ ⟨expected', position'⟩ ⟨rfl, rfl⟩
    rfl
  rw [List.forall₂_eq_eq_eq] at heq
  rw [heq]

/-- In the correspondence of equal things a failure corresponds to itself. -/
theorem same_refl (e : Failure) : same.Failures e e where
  diagnostics := List.forall₂_same.2 fun _ _ => ⟨rfl, rfl⟩
  consumed := rfl

end Failures

/-- So are outcomes, -/
theorem Outcomes.eq_of_same {α : Type} {outcome outcome' : Outcome α}
    (h : same.Outcomes outcome outcome') : outcome = outcome' := by
  cases h with
  | success a hrest =>
    cases hrest
    rfl
  | failure he => rw [he.eq_of_same]

/-- and every outcome corresponds to itself. -/
theorem Outcomes.same_refl {α : Type} (outcome : Outcome α) : same.Outcomes outcome outcome := by
  cases outcome with
  | success a rest => exact .success a rfl
  | failure e => exact .failure (.same_refl e)

end Correspondence

/-! ## Runs -/

/-- Two endings with related values, or with the same fault. -/
inductive Ending.Rel {α β : Type} (R : α → β → Prop) : Ending α → Ending β → Prop where
  | value {a : α} {b : β} : R a b → Rel R (.value a) (.value b)
  | fault (e : Fault) : Rel R (.fault e) (.fault e)

/-- What is related to an ending that is one is one, too. -/
theorem Ending.Rel.ended {α β : Type} {R : α → β → Prop} {x : Ending α} {y : Ending β}
    (h : Ending.Rel R x y) : y ≠ .outOfFuel := by
  cases h <;> simp

/-- If the first run has ended, the second has ended in a related way, after corresponding stops. -/
def Run.MirroredBy {α β : Type} (K : Correspondence) (R : α → β → Prop) (r : Run α) (r' : Run β) :
    Prop :=
  r.ending ≠ .outOfFuel → Ending.Rel R r.ending r'.ending ∧ List.Forall₂ K.Stops r.stops r'.stops

variable {K : Correspondence} {F : FuelOrder} {α β γ δ σ σ' : Type} {n m : Nat}

namespace Run.MirroredBy

variable {R : α → β → Prop} {Q : γ → δ → Prop} {r : Run α} {r' : Run β}

/-- Nothing is asked of the second run as long as the first has not ended. -/
theorem of_outOfFuel (h : r.ending = .outOfFuel) : r.MirroredBy K R r' :=
  fun hended => absurd h hended

theorem pure {a : α} {b : β} (hab : R a b) : (Pure.pure a : Run α).MirroredBy K R (Pure.pure b) :=
  fun _ => ⟨.value hab, .nil⟩

theorem fault (e : Fault) : (Run.fault e : Run α).MirroredBy K R (Run.fault e) :=
  fun _ => ⟨.fault e, .nil⟩

/-- Records put in front keep the mirroring, if the stops among them correspond. -/
theorem prepend {records records' : List Record} (h : r.MirroredBy K R r')
    (hrecords : List.Forall₂ K.Stops (records.filterMap Record.stop?)
      (records'.filterMap Record.stop?)) :
    (r.prepend records).MirroredBy K R (r'.prepend records') := by
  intro hended
  rcases h hended with ⟨hending, hstops⟩
  refine ⟨hending, ?_⟩
  rw [stops_prepend, stops_prepend]
  exact List.rel_append hrecords hstops

/-- The definitions of rules that are announced may differ. -/
theorem announce (h : r.MirroredBy K R r') (count count' : Nat) :
    (r.prepend (List.replicate count .ruleDefined)).MirroredBy K R
      (r'.prepend (List.replicate count' .ruleDefined)) := by
  refine h.prepend ?_
  rw [Record.filterMap_stop?_ruleDefined, Record.filterMap_stop?_ruleDefined]
  exact .nil

/-- Two runs in a row mirror two others if the first ones do, and the second ones from related values. -/
theorem bind {next : α → Run γ} {next' : β → Run δ} (hr : r.MirroredBy K R r')
    (hnext : ∀ a b, R a b → (next a).MirroredBy K Q (next' b)) :
    (r >>= next).MirroredBy K Q (r' >>= next') := by
  rcases r with ⟨records, ending⟩
  cases ending with
  | value a =>
    rcases hr (by simp) with ⟨hending, hstops⟩
    rcases r' with ⟨records', ending'⟩
    cases hending with
    | value hab =>
      rw [bind_value, bind_value]
      exact (hnext a _ hab).prepend hstops
  | fault e =>
    rcases hr (by simp) with ⟨hending, hstops⟩
    rcases r' with ⟨records', ending'⟩
    cases hending with
    | fault e => exact fun _ => ⟨.fault e, hstops⟩
  | outOfFuel => exact of_outOfFuel rfl

/-- More rounds may be had. -/
theorem loop {S : σ → σ' → Prop} {step : σ → Run (σ ⊕ α)} {step' : σ' → Run (σ' ⊕ β)}
    (hstep : ∀ s s', S s s' → (step s).MirroredBy K (Sum.LiftRel S R) (step' s')) (hle : n ≤ m)
    {s : σ} {s' : σ'} (hs : S s s') : (Run.loop step n s).MirroredBy K R (Run.loop step' m s') := by
  induction n generalizing m s s' with
  | zero => exact of_outOfFuel rfl
  | succ n ih =>
    rcases Nat.exists_eq_add_of_le' (Nat.one_le_of_lt hle) with ⟨m, rfl⟩
    rw [loop_succ, loop_succ]
    refine (hstep s s' hs).bind ?_
    intro round round' hround
    cases hround with
    | inl hs => exact ih (Nat.le_of_succ_le_succ hle) hs
    | inr hab => exact pure hab

end Run.MirroredBy

/-! ### Steps of a parse -/

namespace Run.MirroredBy

variable {r r' : Run (Outcome α)} {c c' : Cursor}

/-- One value, had at corresponding cursors. -/
theorem succeed (a : α) (hc : K.Cursors c c') :
    (Run.succeed a c).MirroredBy K K.Outcomes (Run.succeed a c') :=
  pure (.success a hc)

theorem fail {e e' : Failure} (he : K.Failures e e') :
    (Run.fail e : Run (Outcome α)).MirroredBy K K.Outcomes (Run.fail e') :=
  pure (.failure he)

/-- What follows corresponding outcomes: the same value at corresponding cursors, or failures. -/
theorem bind_outcome {R : β → γ → Prop} {next : Outcome α → Run β} {next' : Outcome α → Run γ}
    (hr : r.MirroredBy K K.Outcomes r')
    (hsuccess : ∀ a rest rest', K.Cursors rest rest' →
      (next (.success a rest)).MirroredBy K R (next' (.success a rest')))
    (hfailure : ∀ e e', K.Failures e e' →
      (next (.failure e)).MirroredBy K R (next' (.failure e'))) :
    (r >>= next).MirroredBy K R (r' >>= next') := by
  refine hr.bind ?_
  intro outcome outcome' houtcome
  cases houtcome with
  | success a hrest => exact hsuccess a _ _ hrest
  | failure he => exact hfailure _ _ he

/-- Going on after a success. -/
theorem andThen {next next' : α → Cursor → Run (Outcome β)} (hr : r.MirroredBy K K.Outcomes r')
    (hnext : ∀ a rest rest', K.Cursors rest rest' →
      (next a rest).MirroredBy K K.Outcomes (next' a rest')) :
    (r.andThen next).MirroredBy K K.Outcomes (r'.andThen next') :=
  hr.bind_outcome hnext fun _ _ he => fail he

/-- A change to failures that takes corresponding ones to corresponding ones. -/
theorem mapFailure {change change' : Failure → Failure} (hr : r.MirroredBy K K.Outcomes r')
    (hchange : ∀ e e', K.Failures e e' → K.Failures (change e) (change' e')) :
    (r.mapFailure change).MirroredBy K K.Outcomes (r'.mapFailure change') :=
  hr.bind_outcome (fun a _ _ hrest => pure (.success a hrest))
    fun e e' he => pure (.failure (hchange e e' he))

theorem commit (hr : r.MirroredBy K K.Outcomes r') : r.commit.MirroredBy K K.Outcomes r'.commit :=
  hr.mapFailure fun _ _ he => he.commit

/-- An alternation that is stopped. -/
theorem stop {e e' : Failure} (hc : K.Cursors c c') (he : K.Failures e e') :
    ((Run.fail e : Run (Outcome α)).prepend [.committed c.position e]).MirroredBy K K.Outcomes
      ((Run.fail e').prepend [.committed c'.position e']) :=
  (fail he).prepend (.cons ⟨K.position hc, he⟩ .nil)

end Run.MirroredBy

/-! ## Parsers -/

/-- With supplies of fuel that compare, the runs of the second parser mirror those of the first
wherever the cursors correspond. -/
def Parser.MirroredBy (K : Correspondence) (F : FuelOrder) (p q : Parser α) : Prop :=
  ∀ n m c c', F.Rel n m → K.Cursors c c' → (p n c).MirroredBy K K.Outcomes (q m c')

namespace Parser.MirroredBy

open Run.MirroredBy

variable {p p' : Parser α} {q q' : Parser β} {r r' : Parser γ}

/-- The next character is the same on both sides. -/
theorem satisfy (accepts : Char → Bool) (description : String) :
    (Parser.satisfy accepts description).MirroredBy K F (Parser.satisfy accepts description) := by
  intro n m c c' _ hc
  have hrest := K.rest_eq hc
  cases hcons : c.rest with
  | nil =>
    rw [satisfy_eq_of_nil hcons, satisfy_eq_of_nil (hrest.symm.trans hcons)]
    exact fail (.expected hc description)
  | cons ch rest =>
    rw [satisfy_eq_of_cons hcons, satisfy_eq_of_cons (hrest.symm.trans hcons)]
    by_cases haccepts : accepts ch = true
    · rw [if_pos haccepts, if_pos haccepts]
      exact succeed ch (K.skip hc hcons)
    · rw [if_neg haccepts, if_neg haccepts]
      exact fail (.expected hc description)

/-- So is the text that is left. -/
theorem text (expected : String) :
    (Parser.text expected).MirroredBy K F (Parser.text expected) := by
  intro n m c c' _ hc
  unfold Parser.text
  rw [← K.rest_eq hc]
  split
  next rest hrest => exact succeed expected (K.skip hc (dropPrefix?_eq_some_iff.1 hrest))
  next => exact fail (.expected hc _)

/-- Corresponding cursors are at the end together, and expect the same where they are not. -/
theorem endOfInput : Parser.endOfInput.MirroredBy K F Parser.endOfInput := by
  intro n m c c' _ hc
  unfold Parser.endOfInput
  rw [← K.atEnd_eq hc]
  split
  next => exact succeed () hc
  next => exact fail (.expected hc _)

theorem pure (a : α) : (Parser.pure a).MirroredBy K F (Parser.pure a) :=
  fun _ _ _ _ _ hc => succeed a hc

theorem fault (e : Fault) : (Parser.fault e : Parser α).MirroredBy K F (Parser.fault e) :=
  fun _ _ _ _ _ _ => .fault e

theorem map (hp : p.MirroredBy K F p') (f : α → β) : (p.map f).MirroredBy K F (p'.map f) :=
  fun n m c c' hnm hc => (hp n m c c' hnm hc).andThen fun a _ _ hrest => succeed (f a) hrest

/-- A change of the value that may fault does so on both sides, or on neither. -/
theorem mapChecked (hp : p.MirroredBy K F p') (f : α → Except Fault β) :
    (p.mapChecked f).MirroredBy K F (p'.mapChecked f) := by
  intro n m c c' hnm hc
  refine (hp n m c c' hnm hc).andThen ?_
  intro a rest rest' hrest
  cases f a with
  | error e => exact .fault e
  | ok b => exact succeed b hrest

/-- A condition on the value is asked of the same value on both sides. -/
theorem filterChecked (hp : p.MirroredBy K F p') (accepts : α → Except Fault Bool)
    (description : String) :
    (p.filterChecked accepts description).MirroredBy K F (p'.filterChecked accepts description) := by
  intro n m c c' hnm hc
  refine (hp n m c c' hnm hc).andThen ?_
  intro a rest rest' hrest
  cases accepts a with
  | error e => exact .fault e
  | ok accepted =>
    cases accepted with
    | true => exact succeed a hrest
    | false => exact fail (Correspondence.Failures.expected hc description).commit

/-- A span tells where a value stands, so corresponding positions have to be the same. -/
theorem position (hp : p.MirroredBy K F p') (hsame : ∀ i j, K.Positions i j → i = j) :
    (Parser.position p).MirroredBy K F (Parser.position p') := by
  intro n m c c' hnm hc
  refine (hp n m c c' hnm hc).andThen ?_
  intro a rest rest' hrest
  rw [hsame _ _ (K.position hc), hsame _ _ (K.position hrest)]
  exact succeed _ hrest

/-! ### Sequences -/

theorem seq2 (hp : p.MirroredBy K F p') (hq : q.MirroredBy K F q') (combine : α → β → γ) :
    (Parser.seq2 p q combine).MirroredBy K F (Parser.seq2 p' q' combine) := by
  intro n m c c' hnm hc
  refine (hp n m c c' hnm hc).andThen ?_
  intro a middle middle' hmiddle
  refine (hq n m middle middle' hnm hmiddle).commit.andThen ?_
  exact fun b _ _ hrest => succeed (combine a b) hrest

theorem seq3 (hp : p.MirroredBy K F p') (hq : q.MirroredBy K F q') (hr : r.MirroredBy K F r')
    (combine : α → β → γ → δ) :
    (Parser.seq3 p q r combine).MirroredBy K F (Parser.seq3 p' q' r' combine) := by
  intro n m c c' hnm hc
  refine (hp n m c c' hnm hc).andThen ?_
  intro a afterFirst afterFirst' hfirst
  refine (hq n m afterFirst afterFirst' hnm hfirst).commit.andThen ?_
  intro b afterSecond afterSecond' hsecond
  refine (hr n m afterSecond afterSecond' hnm hsecond).commit.andThen ?_
  exact fun d _ _ hrest => succeed (combine a b d) hrest

/-- The value is the same on both sides, so both go on with what belongs to it. -/
theorem bind {next next' : α → Parser β} (hp : p.MirroredBy K F p')
    (hnext : ∀ a, (next a).MirroredBy K F (next' a)) :
    (Parser.bind p next).MirroredBy K F (Parser.bind p' next') := by
  intro n m c c' hnm hc
  refine (hp n m c c' hnm hc).andThen ?_
  exact fun a rest rest' hrest => (hnext a n m rest rest' hnm hrest).commit

/-! ### Alternatives and marks -/

/-- The second alternatives start from corresponding cursors again, and the failures are merged alike.
-/
theorem or {q q' : Parser α} (hp : p.MirroredBy K F p') (hq : q.MirroredBy K F q') :
    (Parser.or p q).MirroredBy K F (Parser.or p' q') := by
  intro n m c c' hnm hc
  refine (hp n m c c' hnm hc).bind_outcome (fun a _ _ hrest => succeed a hrest) ?_
  intro e e' he
  dsimp only
  rw [← he.consumed]
  by_cases hconsumed : e.consumed = true
  · rw [if_pos hconsumed, if_pos hconsumed]
    exact stop hc he
  · rw [if_neg hconsumed, if_neg hconsumed]
    exact (hq n m c c' hnm hc).mapFailure fun _ _ hlater => he.merge hlater

/-- A choice does so alternative by alternative; what has failed so far corresponds as well. -/
theorem choiceAfter {count : Nat} {ps ps' : Fin count → Parser α}
    (hps : ∀ i, (ps i).MirroredBy K F (ps' i)) {past past' : Failure} (hpast : K.Failures past past') :
    (Parser.choiceAfter past (List.ofFn ps)).MirroredBy K F
      (Parser.choiceAfter past' (List.ofFn ps')) := by
  -- on the number of alternatives, with the failures before them merged on both sides
  induction count generalizing past past' with
  | zero => exact fun _ _ _ _ _ _ => fail hpast
  | succ count ih =>
    intro n m c c' hnm hc
    rw [List.ofFn_succ, List.ofFn_succ]
    refine (hps 0 n m c c' hnm hc).bind_outcome (fun a _ _ hrest => succeed a hrest) ?_
    intro e e' he
    have hmerged := hpast.merge he
    dsimp only
    rw [← he.consumed]
    by_cases hconsumed : e.consumed = true
    · rw [if_pos hconsumed, if_pos hconsumed]
      exact stop hc hmerged
    · rw [if_neg hconsumed, if_neg hconsumed]
      exact ih (fun i => hps i.succ) hmerged n m c c' hnm hc

theorem attempt (hp : p.MirroredBy K F p') :
    (Parser.attempt p).MirroredBy K F (Parser.attempt p') :=
  fun n m c c' hnm hc => (hp n m c c' hnm hc).mapFailure fun _ _ he => he.uncommit

/-- A label is put on both failures, or on neither. -/
theorem label (hp : p.MirroredBy K F p') (description : String) :
    (Parser.label description p).MirroredBy K F (Parser.label description p') := by
  intro n m c c' hnm hc
  refine (hp n m c c' hnm hc).mapFailure ?_
  intro e e' he
  rw [← he.consumed]
  split
  · exact he
  · exact .expected hc description

/-- An optional parser takes back to corresponding cursors. -/
theorem optional (hp : p.MirroredBy K F p') :
    (Parser.optional p).MirroredBy K F (Parser.optional p') := by
  intro n m c c' hnm hc
  refine (hp n m c c' hnm hc).bind_outcome (fun a _ _ hrest => succeed (some a) hrest) ?_
  intro e e' he
  dsimp only
  rw [← he.consumed]
  split
  · exact fail he
  · exact succeed none hc

theorem not (hp : p.MirroredBy K F p') (description : String) :
    (Parser.not description p).MirroredBy K F (Parser.not description p') := by
  intro n m c c' hnm hc
  refine (hp n m c c' hnm hc).bind_outcome ?_ fun _ _ _ => succeed () hc
  exact fun _ _ _ _ => fail (.expected hc description)

/-! ### Repetitions and chains -/

/-- Whether a round has moved the cursor is the same on both sides. -/
theorem repeatFrom (hp : p.MirroredBy K F p') (past : List α) :
    (Parser.repeatFrom p past).MirroredBy K F (Parser.repeatFrom p' past) := by
  intro n m c c' hnm hc
  -- the values so far are the same, and the cursors correspond
  refine Run.MirroredBy.loop (S := fun state state' =>
    state.1 = state'.1 ∧ K.Cursors state.2 state'.2) ?_ (F.le hnm) ⟨rfl, hc⟩
  rintro ⟨past, c⟩ ⟨_, c'⟩ ⟨rfl, hc⟩
  refine (hp n m c c' hnm hc).bind_outcome ?_ ?_
  · intro a rest rest' hrest
    -- both have moved or neither has
    have hmoved := K.eq_iff (K.position hrest) (K.position hc)
    dsimp only
    by_cases hsame : rest.position = c.position
    · rw [if_pos hsame, if_pos (hmoved.1 hsame)]
      exact .pure (.inr (.success _ hrest))
    · rw [if_neg hsame, if_neg fun h => hsame (hmoved.2 h)]
      exact .pure (.inl ⟨rfl, hrest⟩)
  · intro e e' he
    dsimp only
    rw [← he.consumed]
    split
    · exact .pure (.inr (.failure he))
    · exact .pure (.inr (.success _ hc))

/-- With one item at least, the first is parsed in front of the repetition. -/
theorem many1 (hp : p.MirroredBy K F p') : (Parser.many1 p).MirroredBy K F (Parser.many1 p') := by
  intro n m c c' hnm hc
  refine (hp n m c c' hnm hc).andThen ?_
  intro a rest rest' hrest
  have hmoved := K.eq_iff (K.position hrest) (K.position hc)
  by_cases hsame : rest.position = c.position
  · rw [if_pos hsame, if_pos (hmoved.1 hsame)]
    exact succeed [a] hrest
  · rw [if_neg hsame, if_neg fun h => hsame (hmoved.2 h)]
    exact hp.repeatFrom [a] n m rest rest' hnm hrest

/-- What the operands have come to is the same on both sides, and so is what the next pair makes of it. -/
theorem chain (hp : p.MirroredBy K F p') (hq : q.MirroredBy K F q') (start : α → σ)
    (take : σ → β → α → Except Fault σ) :
    (Parser.chain p q start take).MirroredBy K F (Parser.chain p' q' start take) := by
  intro n m c c' hnm hc
  refine (hp n m c c' hnm hc).andThen ?_
  intro first rest rest' hrest
  -- the rounds go in step: the same state, at corresponding cursors
  refine Run.MirroredBy.loop (S := fun state state' =>
    state.1 = state'.1 ∧ K.Cursors state.2 state'.2) ?_ (F.le hnm) ⟨rfl, hrest⟩
  rintro ⟨s, c⟩ ⟨_, c'⟩ ⟨rfl, hc⟩
  refine (hq n m c c' hnm hc).bind_outcome ?_ ?_
  · intro b middle middle' hmiddle
    refine (hp n m middle middle' hnm hmiddle).commit.bind_outcome ?_ ?_
    · intro a rest rest' hrest
      dsimp only
      cases take s b a with
      | error e => exact .fault e
      | ok s' => exact .pure (.inl ⟨rfl, hrest⟩)
    · exact fun e e' he => .pure (.inr (.failure he))
  · intro e e' he
    dsimp only
    rw [← he.consumed]
    split
    · exact .pure (.inr (.failure he))
    · exact .pure (.inr (.success _ hc))

/-! ### Rules -/

/-- A rule inside gets what is left of either supply. -/
theorem fix {definition definition' : Parser α → Parser α}
    (h : ∀ p p' : Parser α, p.MirroredBy K F p' →
      (definition p).MirroredBy K F (definition' p')) :
    (Parser.fix definition).MirroredBy K F (Parser.fix definition') := by
  intro n
  induction n with
  | zero => exact fun _ _ _ _ _ => of_outOfFuel rfl
  | succ n ih =>
    intro m c c' hnm hc
    rcases Nat.exists_eq_add_of_le' (Nat.one_le_of_lt (F.le hnm)) with ⟨m, rfl⟩
    rw [fix_succ, fix_succ]
    refine h _ _ ?_ n m c c' (F.pred hnm) hc
    exact fun _ _ d d' _ hd => ih m d d' (F.pred hnm) hd

end Parser.MirroredBy

end CommittedParsing
