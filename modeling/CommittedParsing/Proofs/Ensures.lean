import CommittedParsing.Parser.Alternation
import CommittedParsing.Parser.Character
import CommittedParsing.Parser.Repetition

/-!
# What runs ensure

A run ensures a condition if every value it ends with meets it, and if it ends without a value only
in ways that are allowed. With every way allowed this is partial correctness, with none it is total
correctness. Each combinator has one rule here; what a whole grammar ensures is put together from
these rules, without opening a combinator again.

Main statements:
* `Run.Ensures.bind`, `Run.Ensures.andThen` — conditions of runs in sequence;
* `Run.Ensures.loop` — a loop keeps an invariant, and ends if the invariant bounds the rounds left;
* `Parser.ensures_repeatFrom`, `Parser.ensures_chainFrom` — the rules of the two loops.
-/

namespace CommittedParsing

/-! ## Conditions of runs -/

namespace Run

variable {α β σ : Type}

/-- A run ends with a value that meets `post`, or without a value in a way that `abort` allows: with
a fault, or (`none`) for want of fuel. -/
def Ensures (r : Run α) (abort : Option Fault → Prop) (post : α → Prop) : Prop :=
  match r.ending with
  | .value a => post a
  | .fault e => abort (some e)
  | .outOfFuel => abort none

/-- Every way of ending without a value is allowed. -/
def anyAbort : Option Fault → Prop := fun _ => True

/-- No way of ending without a value is allowed. -/
def noAbort : Option Fault → Prop := fun _ => False

namespace Ensures

variable {abort : Option Fault → Prop} {post mid : α → Prop} {after : β → Prop} {r : Run α}

/-- A run that comes to a value meets the condition on values. -/
theorem post_of_value (h : r.Ensures abort post) {a : α} (hr : r.ending = .value a) : post a := by
  unfold Ensures at h
  rw [hr] at h
  exact h

/-- A fault that a run comes to is one that is allowed. -/
theorem abort_of_fault (h : r.Ensures abort post) {e : Fault} (hr : r.ending = .fault e) :
    abort (some e) := by
  unfold Ensures at h
  rw [hr] at h
  exact h

/-- Where a run may not end without a value, it ends with one. -/
theorem exists_value (h : r.Ensures noAbort post) : ∃ a, r.ending = .value a ∧ post a := by
  rcases r with ⟨records, ending⟩
  cases ending with
  | value a => exact ⟨a, rfl, h⟩
  | fault e => exact h.elim
  | outOfFuel => exact h.elim

/-- The rule of consequence, for the values. -/
theorem imp (h : r.Ensures abort mid) (himp : ∀ a, mid a → post a) : r.Ensures abort post := by
  rcases r with ⟨records, ending⟩
  cases ending with
  | value a => exact himp a h
  | fault e => exact h
  | outOfFuel => exact h

/-- Records do not matter to a condition on the ending. -/
theorem prepend (records : List Record) (h : r.Ensures abort post) :
    (r.prepend records).Ensures abort post := h

/-- A checked computation ensures what its value meets, if its faults are allowed. -/
theorem ofExcept {x : Except Fault α} (hok : ∀ a, x = .ok a → post a)
    (herror : ∀ e, x = .error e → abort (some e)) : (Run.ofExcept x).Ensures abort post := by
  cases x with
  | ok a => exact hok a rfl
  | error e => exact herror e rfl

/-- Where every way of ending is allowed, its faults are. -/
theorem ofExcept_anyAbort {x : Except Fault α} (hok : ∀ a, x = .ok a → post a) :
    (Run.ofExcept x).Ensures anyAbort post :=
  ofExcept hok fun _ _ => trivial

/-- The rule of composition: what the first run ensures of its value, the second may rely on. -/
theorem bind {next : α → Run β} (hr : r.Ensures abort mid)
    (hnext : ∀ a, mid a → (next a).Ensures abort after) : (r >>= next).Ensures abort after := by
  rcases r with ⟨records, ending⟩
  cases ending with
  | value a =>
    rw [bind_value]
    exact (hnext a hr).prepend records
  | fault e => exact hr
  | outOfFuel => exact hr

/-- The rule of loops. The invariant may speak of the number of rounds left; if it fails when none
is left, the loop ends. -/
theorem loop {step : σ → Run (σ ⊕ α)} {I : Nat → σ → Prop}
    (hzero : ∀ s, I 0 s → abort none)
    (hsucc : ∀ n s, I (n + 1) s → (step s).Ensures abort (Sum.elim (I n) post))
    {n : Nat} {s : σ} (hs : I n s) : (Run.loop step n s).Ensures abort post := by
  induction n generalizing s with
  | zero => exact hzero s hs
  | succ n ih =>
    rw [loop_succ]
    refine (hsucc n s hs).bind ?_
    intro round hround
    cases round with
    | inl s' => exact ih hround
    | inr a => exact hround

end Ensures

end Run

/-! ## Conditions of outcomes -/

/-- A condition on successes and one on failures. -/
def Outcome.Meets {α : Type} (onSuccess : α → Cursor → Prop) (onFailure : Failure → Prop) :
    Outcome α → Prop
  | .success a rest => onSuccess a rest
  | .failure e => onFailure e

namespace Run.Ensures

variable {α β : Type} {abort : Option Fault → Prop}
  {good : α → Cursor → Prop} {good' : β → Cursor → Prop} {bad bad' : Failure → Prop}
  {r : Run (Outcome α)}

/-- Both conditions may be weakened, each on its own. -/
theorem mono {good' : α → Cursor → Prop} (hr : r.Ensures abort (Outcome.Meets good bad))
    (hgood : ∀ a rest, good a rest → good' a rest) (hbad : ∀ e, bad e → bad' e) :
    r.Ensures abort (Outcome.Meets good' bad') := by
  refine hr.imp ?_
  intro outcome houtcome
  cases outcome with
  | success a rest => exact hgood a rest houtcome
  | failure e => exact hbad e houtcome

/-- A success on the spot meets what holds of its value and its cursor. -/
theorem of_succeed {a : α} {rest : Cursor} (h : good a rest) :
    (Run.succeed a rest).Ensures abort (Outcome.Meets good bad) := h

/-- A failure on the spot meets what holds of it. -/
theorem of_fail {e : Failure} (h : bad e) :
    (Run.fail e : Run (Outcome α)).Ensures abort (Outcome.Meets good bad) := h

/-- What holds of every outcome needs no look at the run. -/
theorem of_forall (hgood : ∀ a rest, good a rest) (hbad : ∀ e, bad e) :
    r.Ensures Run.anyAbort (Outcome.Meets good bad) := by
  cases r using Run.outcome_cases with
  | success records a rest => exact hgood a rest
  | failure records e => exact hbad e
  | fault records e => exact trivial
  | outOfFuel records => exact trivial

/-- The rule of composition for outcomes: a failure of the first step is that of both. -/
theorem andThen {next : α → Cursor → Run (Outcome β)}
    (hr : r.Ensures abort (Outcome.Meets good bad))
    (hnext : ∀ a rest, good a rest → (next a rest).Ensures abort (Outcome.Meets good' bad'))
    (hbad : ∀ e, bad e → bad' e) :
    (r.andThen next).Ensures abort (Outcome.Meets good' bad') := by
  refine hr.bind ?_
  intro outcome houtcome
  cases outcome with
  | success a rest => exact hnext a rest houtcome
  | failure e => exact hbad e houtcome

/-- A change to a failure has to take the one condition to the other. -/
theorem mapFailure {change : Failure → Failure} (hr : r.Ensures abort (Outcome.Meets good bad))
    (hbad : ∀ e, bad e → bad' (change e)) :
    (r.mapFailure change).Ensures abort (Outcome.Meets good bad') := by
  refine hr.bind ?_
  intro outcome houtcome
  cases outcome with
  | success a rest => exact houtcome
  | failure e => exact hbad e houtcome

end Run.Ensures

/-! ## The rules of the combinators -/

namespace Parser

open Run Outcome

variable {α β γ δ σ : Type} {abort : Option Fault → Prop} {n : Nat} {c : Cursor}
  {bad bad' : Failure → Prop}

/-- A character is read where it comes next and passes the test; otherwise it is expected here. -/
theorem ensures_satisfy {accepts : Char → Bool} {description : String} {good : Char → Cursor → Prop}
    (hgood : ∀ ch rest, c.rest = ch :: rest → accepts ch = true → good ch (c.skip [ch] rest))
    (hbad : bad (Failure.expected description c.position)) :
    (satisfy accepts description n c).Ensures abort (Meets good bad) := by
  cases hrest : c.rest with
  | nil =>
    rw [satisfy_eq_of_nil hrest]
    exact hbad
  | cons ch rest =>
    rw [satisfy_eq_of_cons hrest]
    split
    next haccepts => exact hgood ch rest hrest haccepts
    next => exact hbad

/-- A text is read where it comes next as a whole; otherwise it is expected here. -/
theorem ensures_text {expected : String} {good : String → Cursor → Prop}
    (hgood : ∀ rest, c.rest = expected.toList ++ rest →
      good expected (c.skip expected.toList rest))
    (hbad : bad (Failure.expected ("\"" ++ expected ++ "\"") c.position)) :
    (text expected n c).Ensures abort (Meets good bad) := by
  unfold text
  split
  next rest hrest => exact hgood rest (dropPrefix?_eq_some_iff.1 hrest)
  next => exact hbad

/-- The end is found where nothing is left; otherwise it is expected here. -/
theorem ensures_endOfInput {good : Unit → Cursor → Prop} (hgood : c.atEnd = true → good () c)
    (hbad : bad (Failure.expected "end of input" c.position)) :
    (endOfInput n c).Ensures abort (Meets good bad) := by
  unfold endOfInput
  split
  next hend => exact hgood hend
  next => exact hbad

/-- A function takes the condition on values to the one on its results. -/
theorem ensures_map {p : Parser α} {f : α → β} {good : α → Cursor → Prop}
    {good' : β → Cursor → Prop} (hp : (p n c).Ensures abort (Meets good bad))
    (hgood : ∀ a rest, good a rest → good' (f a) rest) :
    (map f p n c).Ensures abort (Meets good' bad) :=
  hp.andThen hgood fun _ he => he

/-- So does one that may hit a fault, which has to be one that is allowed. -/
theorem ensures_mapChecked {p : Parser α} {f : α → Except Fault β} {good : α → Cursor → Prop}
    {good' : β → Cursor → Prop} (hp : (p n c).Ensures abort (Meets good bad))
    (hf : ∀ a rest, good a rest → (ofExcept (f a)).Ensures abort fun b => good' b rest) :
    (mapChecked f p n c).Ensures abort (Meets good' bad) := by
  refine hp.andThen ?_ fun _ he => he
  intro a rest ha
  exact (hf a rest ha).bind fun _ hb => Ensures.of_succeed hb

/-- A test passes values on as they are, or fails, committed, where the parse began. -/
theorem ensures_filterChecked {p : Parser α} {accepts : α → Except Fault Bool} {description : String}
    {good : α → Cursor → Prop} (hp : (p n c).Ensures abort (Meets good bad))
    (haccepts : ∀ a rest, good a rest → (ofExcept (accepts a)).Ensures abort fun _ => True)
    (hbad : bad (Failure.expected description c.position).commit) :
    (filterChecked accepts description p n c).Ensures abort (Meets good bad) := by
  refine hp.andThen ?_ fun _ he => he
  intro a rest ha
  refine (haccepts a rest ha).bind fun accepted _ => ?_
  split
  · exact Ensures.of_succeed ha
  · exact Ensures.of_fail hbad

/-- A value is given its span, from where the parse began to where it has ended. -/
theorem ensures_position {p : Parser α} {good : α → Cursor → Prop}
    {good' : α × Span → Cursor → Prop} (hp : (p n c).Ensures abort (Meets good bad))
    (hgood : ∀ a rest, good a rest → good' (a, ⟨c.position, rest.position⟩) rest) :
    (position p n c).Ensures abort (Meets good' bad) :=
  hp.andThen hgood fun _ he => he

/-! ### Sequences -/

/-- The second parser starts where the first has ended, and its failures are committed. -/
theorem ensures_seq2 {p : Parser α} {q : Parser β} {combine : α → β → γ}
    {good : α → Cursor → Prop} {good' : γ → Cursor → Prop}
    (hp : (p n c).Ensures abort (Meets good bad)) (hbad : ∀ e, bad e → bad' e)
    (hq : ∀ a afterFirst, good a afterFirst → (q n afterFirst).Ensures abort
      (Meets (fun b rest => good' (combine a b) rest) fun e => bad' e.commit)) :
    (seq2 p q combine n c).Ensures abort (Meets good' bad') := by
  refine hp.andThen ?_ hbad
  intro a afterFirst ha
  exact ((hq a afterFirst ha).mapFailure fun _ he => he).andThen (fun _ _ hb => hb) fun _ he => he

/-- So do the second and the third of three. -/
theorem ensures_seq3 {p : Parser α} {q : Parser β} {r : Parser γ} {combine : α → β → γ → δ}
    {good : α → Cursor → Prop} {good' : δ → Cursor → Prop}
    (hp : (p n c).Ensures abort (Meets good bad)) (hbad : ∀ e, bad e → bad' e)
    (hq : ∀ a afterFirst, good a afterFirst → (q n afterFirst).Ensures abort
      (Meets (fun b afterSecond => (r n afterSecond).Ensures abort
        (Meets (fun d rest => good' (combine a b d) rest) fun e => bad' e.commit))
        fun e => bad' e.commit)) :
    (seq3 p q r combine n c).Ensures abort (Meets good' bad') := by
  refine hp.andThen ?_ hbad
  intro a afterFirst ha
  refine ((hq a afterFirst ha).mapFailure fun _ he => he).andThen ?_ fun _ he => he
  intro b afterSecond hb
  exact (hb.mapFailure fun _ he => he).andThen (fun _ _ hd => hd) fun _ he => he

/-- After the first success every failure is a committed one, so nothing has to be known about the
parser that was chosen if failures are only restricted as long as they are not committed. -/
theorem ensures_bind {p : Parser α} {next : α → Parser β} {good : α → Cursor → Prop}
    {good' : β → Cursor → Prop} (hp : (p n c).Ensures abort (Meets good bad))
    (hbad : ∀ e, bad e → bad' e)
    (hnext : ∀ a rest, good a rest → (next a n rest).Ensures abort
      (Meets good' fun e => bad' e.commit)) :
    (Parser.bind p next n c).Ensures abort (Meets good' bad') := by
  refine hp.andThen ?_ hbad
  intro a rest ha
  exact (hnext a rest ha).mapFailure fun _ he => he

/-! ### Alternatives and marks -/

/-- A committed failure of the first alternative is final; otherwise the second one tries from the same
place, and if it fails as well the failures are merged. -/
theorem ensures_or {p q : Parser α} {good : α → Cursor → Prop}
    (hp : (p n c).Ensures abort (Meets good bad))
    (hcommitted : ∀ e, bad e → e.consumed = true → bad' e)
    (hq : ∀ e, bad e → e.consumed = false →
      (q n c).Ensures abort (Meets good fun later => bad' (e.merge later))) :
    (Parser.or p q n c).Ensures abort (Meets good bad') := by
  refine hp.bind ?_
  intro outcome houtcome
  cases outcome with
  | success a rest => exact houtcome
  | failure e =>
    dsimp only
    split
    next hconsumed => exact hcommitted e houtcome hconsumed
    next hconsumed =>
      exact (hq e houtcome (Bool.eq_false_iff.2 hconsumed)).mapFailure fun _ he => he

/-- The condition `G` holds of the diagnostics gathered so far. -/
theorem ensures_choiceAfter {ps : List (Parser α)} {good : α → Cursor → Prop}
    {G : Failure → Prop} (hps : ∀ p ∈ ps, (p n c).Ensures abort (Meets good bad))
    (hcommitted : ∀ f e, G f → bad e → e.consumed = true → bad' (f.merge e))
    (hgathered : ∀ f e, G f → bad e → e.consumed = false → G (f.merge e))
    (hnone : ∀ f, G f → bad' f) {f : Failure} (hf : G f) :
    (choiceAfter f ps n c).Ensures abort (Meets good bad') := by
  -- alternative by alternative, with `G` of what has been gathered so far
  induction ps generalizing f with
  | nil => exact hnone f hf
  | cons p ps ih =>
    refine (hps p List.mem_cons_self).bind ?_
    intro outcome houtcome
    cases outcome with
    | success a rest => exact houtcome
    | failure e =>
      dsimp only
      split
      next hconsumed => exact hcommitted f e hf houtcome hconsumed
      next hconsumed =>
        refine ih (fun q hq => hps q (List.mem_cons_of_mem _ hq)) ?_
        exact hgathered f e hf houtcome (Bool.eq_false_iff.2 hconsumed)

/-- An alternative is tried once those before it have failed, in a way that leaves the choice open. -/
theorem ensures_choice {count : Nat} {ps : Fin count → Parser α} {good : α → Cursor → Prop}
    {F : Fin count → Prop}
    (hps : ∀ i, (∀ j < i, F j) → (ps i n c).Ensures abort
      (Meets good fun e => F i ∧ e.consumed = false))
    (hnone : (∀ i, F i) → ∀ e, bad e) (past : Failure) :
    (choiceAfter past (List.ofFn ps) n c).Ensures abort (Meets good bad) := by
  -- on the number of alternatives; those that have failed are remembered in `F`
  induction count generalizing past with
  | zero =>
    rw [List.ofFn_zero]
    exact hnone (fun i => i.elim0) past
  | succ count ih =>
    rw [List.ofFn_succ]
    refine (hps 0 (fun j hj => absurd hj (Fin.not_lt_zero j))).bind ?_
    intro outcome houtcome
    cases outcome with
    | success a rest => exact houtcome
    | failure e =>
      rcases houtcome with ⟨hfirst, he⟩
      simp only [he]
      refine ih (F := fun i => F i.succ) ?_ ?_ (past.merge e)
      · intro i hbefore
        refine hps i.succ ?_
        intro j hj
        cases j using Fin.cases with
        | zero => exact hfirst
        | succ j => exact hbefore j (Fin.succ_lt_succ_iff.1 hj)
      · intro hlater
        refine hnone ?_
        intro i
        cases i using Fin.cases with
        | zero => exact hfirst
        | succ i => exact hlater i

/-- An attempt takes the mark off a failure. -/
theorem ensures_attempt {p : Parser α} {good : α → Cursor → Prop}
    (hp : (p n c).Ensures abort (Meets good bad)) (hbad : ∀ e, bad e → bad' e.uncommit) :
    (attempt p n c).Ensures abort (Meets good bad') :=
  hp.mapFailure hbad

/-- A label replaces a failure that is not committed by one of its own. -/
theorem ensures_label {p : Parser α} {description : String} {good : α → Cursor → Prop}
    (hp : (p n c).Ensures abort (Meets good bad))
    (hcommitted : ∀ e, bad e → e.consumed = true → bad' e)
    (huncommitted : bad' (Failure.expected description c.position)) :
    (label description p n c).Ensures abort (Meets good bad') := by
  refine hp.mapFailure ?_
  intro e he
  split
  next hconsumed => exact hcommitted e he hconsumed
  next => exact huncommitted

/-- An uncommitted failure is taken for there being none. -/
theorem ensures_optional {p : Parser α} {good : α → Cursor → Prop}
    {good' : Option α → Cursor → Prop} (hp : (p n c).Ensures abort (Meets good bad))
    (hsome : ∀ a rest, good a rest → good' (some a) rest)
    (hcommitted : ∀ e, bad e → e.consumed = true → bad' e) (hnone : good' none c) :
    (optional p n c).Ensures abort (Meets good' bad') := by
  refine hp.bind ?_
  intro outcome houtcome
  cases outcome with
  | success a rest => exact hsome a rest houtcome
  | failure e =>
    dsimp only
    split
    next hconsumed => exact hcommitted e houtcome hconsumed
    next => exact hnone

/-- A negative lookahead succeeds where it began if its body fails, and fails there if it succeeds. -/
theorem ensures_not {p : Parser α} {description : String} {good : α → Cursor → Prop}
    {good' : Unit → Cursor → Prop} (hp : (p n c).Ensures abort (Meets good bad))
    (hgood : good' () c) (hbad : bad' (Failure.expected description c.position)) :
    (Parser.not description p n c).Ensures abort (Meets good' bad') := by
  refine hp.bind ?_
  intro outcome houtcome
  cases outcome with
  | success a rest => exact hbad
  | failure e => exact hgood

/-! ### Repetitions and chains -/

/-- The invariant speaks of the rounds left, of the values so far in reverse and of the cursor. -/
theorem ensures_repeatFrom {p : Parser α} {good : List α → Cursor → Prop}
    {I : Nat → List α → Cursor → Prop} (hzero : ∀ past c, I 0 past c → abort none)
    (hp : ∀ k past c, I (k + 1) past c → (p n c).Ensures abort
      (Meets
        (fun a rest =>
          (rest.position = c.position → good (a :: past).reverse rest) ∧
            (rest.position ≠ c.position → I k (a :: past) rest))
        fun e =>
          (e.consumed = true → bad e) ∧ (e.consumed = false → good past.reverse c)))
    {past : List α} (h : I n past c) :
    (repeatFrom p past n c).Ensures abort (Meets good bad) := by
  -- the invariant goes with the number of rounds that are left
  refine Ensures.loop (I := fun k state => I k state.1 state.2)
    (fun state => hzero state.1 state.2) ?_ h
  rintro k ⟨past, c⟩ hinv
  refine (hp k past c hinv).bind ?_
  intro outcome houtcome
  cases outcome with
  | success a rest =>
    dsimp only
    split
    next hsame => exact houtcome.1 hsame
    next hmoved => exact houtcome.2 hmoved
  | failure e =>
    dsimp only
    split
    next hconsumed => exact houtcome.1 hconsumed
    next hconsumed => exact houtcome.2 (Bool.eq_false_iff.2 hconsumed)

/-- The invariant speaks of the rounds left, of what the operands have come to and of the cursor. -/
theorem ensures_chainFrom {operator : Parser β} {operand : Parser α} {take : σ → β → α → Except Fault σ}
    {good : σ → Cursor → Prop} {I : Nat → σ → Cursor → Prop} (hzero : ∀ s c, I 0 s c → abort none)
    (hround : ∀ k s c, I (k + 1) s c → (operator n c).Ensures abort
      (Meets
        (fun b afterOperator => (operand n afterOperator).Ensures abort
          (Meets (fun a rest => (ofExcept (take s b a)).Ensures abort fun s => I k s rest)
            fun e => bad e.commit))
        fun e => (e.consumed = true → bad e) ∧ (e.consumed = false → good s c)))
    {s : σ} (h : I n s c) : (chainFrom operator operand take s n c).Ensures abort (Meets good bad) := by
  -- the invariant goes with the number of rounds that are left
  refine Ensures.loop (I := fun k state => I k state.1 state.2)
    (fun state => hzero state.1 state.2) ?_ h
  rintro k ⟨s, c⟩ hinv
  refine (hround k s c hinv).bind ?_
  intro outcome houtcome
  cases outcome with
  | success b afterOperator =>
    have hoperand : (operand n afterOperator).commit.Ensures abort
        (Meets (fun a rest => (ofExcept (take s b a)).Ensures abort fun s => I k s rest) bad) :=
      houtcome.mapFailure fun _ he => he
    refine hoperand.bind ?_
    intro outcome houtcome
    cases outcome with
    | success a rest => exact Ensures.bind houtcome fun _ hs => hs
    | failure e => exact houtcome
  | failure e =>
    dsimp only
    split
    next hconsumed => exact houtcome.1 hconsumed
    next hconsumed => exact houtcome.2 (Bool.eq_false_iff.2 hconsumed)

/-- The rounds of a chain start with the first operand. -/
theorem ensures_chain {operand : Parser α} {operator : Parser β} {start : α → σ}
    {take : σ → β → α → Except Fault σ} {good : α → Cursor → Prop} {good' : σ → Cursor → Prop}
    (hfirst : (operand n c).Ensures abort (Meets good bad)) (hbad : ∀ e, bad e → bad' e)
    (hothers : ∀ a rest, good a rest →
      (chainFrom operator operand take (start a) n rest).Ensures abort (Meets good' bad')) :
    (chain operand operator start take n c).Ensures abort (Meets good' bad') :=
  hfirst.andThen hothers hbad

/-- A fold from the right by computations, from the last pair on: what holds of each combination of an
operand with what is to its right holds of the whole. -/
theorem ensures_foldRightChecked {combine : β → α → α → Except Fault α}
    {V : α → List (β × α) → α → Prop} (hnil : ∀ first, V first [] first)
    (hcons : ∀ first b a pairs right, V a pairs right →
      (ofExcept (combine b first right)).Ensures abort (V first ((b, a) :: pairs)))
    (first : α) (pairs : List (β × α)) :
    (ofExcept (foldRightChecked combine first pairs)).Ensures abort (V first pairs) := by
  induction pairs generalizing first with
  | nil => exact hnil first
  | cons pair pairs ih =>
    obtain ⟨b, a⟩ := pair
    have hright := ih a
    rw [foldRightChecked_cons]
    cases hfold : foldRightChecked combine a pairs with
    | error e =>
      rw [hfold] at hright
      exact hright
    | ok right =>
      rw [hfold] at hright
      exact hcons first b a pairs right hright

/-- The rounds go on behind the first item, unless that did not move. -/
theorem ensures_many1 {p : Parser α} {good : α → Cursor → Prop} {good' : List α → Cursor → Prop}
    (hp : (p n c).Ensures abort (Meets good bad)) (hbad : ∀ e, bad e → bad' e)
    (hsame : ∀ a rest, good a rest → rest.position = c.position → good' [a] rest)
    (hmoved : ∀ a rest, good a rest → rest.position ≠ c.position →
      (repeatFrom p [a] n rest).Ensures abort (Meets good' bad')) :
    (many1 p n c).Ensures abort (Meets good' bad') := by
  refine hp.andThen ?_ hbad
  intro a rest ha
  split
  next h => exact hsame a rest ha h
  next h => exact hmoved a rest ha h

end Parser

end CommittedParsing
