import CommittedParsing.Grammar.Forms
import CommittedParsing.Proofs.Comparison

/-!
# Added attempts

A grammar without attempts, and the same grammar with some of its parts wrapped in `attempt`. The
second may go on where a committed failure ends the first; every other outcome of the first is an
outcome of the second.

Successes and uncommitted failures are kept together: an alternation and a repetition go on after an
uncommitted failure of a part, so they can only keep their successes if their parts keep such
failures. A committed failure of a part is lost, but then the whole fails committed as well.
Negative lookahead is what breaks this: it makes a success of a committed failure.

Main statements:
* `Run.KeptBy.bind`, `Run.KeptBy.loop` — what runs in sequence and loops keep;
* `Grammar.kept_with_attempts` — the law for one grammar, from the law for what it refers to;
* `System.outcome_kept_with_attempts` — the law for every grammar of a system of rules.
-/

namespace CommittedParsing

/-! ## Values that are kept -/

namespace Run

variable {α β σ : Type}

/-- Where the first run ends with a value of some kind, the second ends with the same value. -/
def KeptBy (kind : α → Prop) (r r' : Run α) : Prop :=
  ∀ a, r.ending = .value a → kind a → r'.ending = .value a

namespace KeptBy

variable {kind : α → Prop} {kind' : β → Prop} {r r' : Run α}

/-- A run keeps its own value. -/
theorem refl (r : Run α) : r.KeptBy kind r := fun _ hr _ => hr

/-- Records do not matter for what is kept. -/
theorem prepend (h : r.KeptBy kind r') (records records' : List Record) :
    (r.prepend records).KeptBy kind (r'.prepend records') := h

/-- Going on after a value that is not kept must not come to a value that is to be kept. -/
theorem bind {next next' : α → Run β} (hr : r.KeptBy kind r')
    (hnext : ∀ a, kind a → (next a).KeptBy kind' (next' a))
    (hlost : ∀ a, ¬ kind a → ∀ b, (next a).ending = .value b → ¬ kind' b) :
    (r >>= next).KeptBy kind' (r' >>= next') := by
  intro b hb hkind'
  rcases ending_bind_eq_value_iff.1 hb with ⟨a, ha, hnexta⟩
  by_cases hkind : kind a
  · exact ending_bind_eq_value_iff.2 ⟨a, hr a ha hkind, hnext a hkind b hnexta hkind'⟩
  · exact absurd hkind' (hlost a hkind b hnexta)

/-- A loop keeps its answers of some kind if one round does, together with every next state. -/
theorem loop {step step' : σ → Run (σ ⊕ α)}
    (hstep : ∀ s, (step s).KeptBy (Sum.elim (fun _ => True) kind) (step' s)) (n : Nat) (s : σ) :
    (Run.loop step n s).KeptBy kind (Run.loop step' n s) := by
  induction n generalizing s with
  | zero => exact refl _
  | succ n ih =>
    rw [loop_succ, loop_succ]
    refine (hstep s).bind ?_ ?_
    · intro round _
      cases round with
      | inl s' => exact ih s'
      | inr a => exact refl _
    · -- only answers can be lost, since every next state is kept
      intro round hlost b hb
      cases round with
      | inl s' => exact absurd trivial hlost
      | inr a =>
        cases hb
        exact hlost

end KeptBy

end Run

/-- A success, or a failure that is not committed. -/
def Outcome.IsUncommitted {α : Type} : Outcome α → Prop
  | .success _ _ => True
  | .failure e => e.consumed = false

/-- A committed failure is none of the outcomes that are kept. -/
theorem Outcome.not_isUncommitted {α : Type} {e : Failure} (he : e.consumed = true) :
    ¬ (.failure e : Outcome α).IsUncommitted :=
  Bool.not_eq_false _ ▸ he

/-! ## Steps of a parse -/

namespace Run.KeptBy

open Outcome

variable {α β : Type} {r r' : Run (Outcome α)}

/-- What ends with a committed failure comes to nothing that has to be kept. -/
theorem of_committed {e : Failure} (he : e.consumed = true) {b : Outcome β}
    (hb : (Run.fail e : Run (Outcome β)).ending = .value b) : ¬ b.IsUncommitted := by
  cases hb
  exact not_isUncommitted he

/-- The same for the answer of a loop. -/
theorem of_committed_answer {σ : Type} {e : Failure} (he : e.consumed = true) {b : σ ⊕ Outcome β}
    (hb : (pure (.inr (.failure e)) : Run (σ ⊕ Outcome β)).ending = .value b) :
    ¬ Sum.elim (fun _ => True) IsUncommitted b := by
  cases hb
  exact not_isUncommitted (α := β) he

/-- What follows a success and what follows an uncommitted failure is kept, and a committed failure
leads to nothing that has to be. -/
theorem bind_outcome {kind' : β → Prop} {next next' : Outcome α → Run β}
    (hr : r.KeptBy IsUncommitted r')
    (hsuccess : ∀ a rest, (next (.success a rest)).KeptBy kind' (next' (.success a rest)))
    (hfailure : ∀ e : Failure, e.consumed = false →
      (next (.failure e)).KeptBy kind' (next' (.failure e)))
    (hcommitted : ∀ e : Failure, e.consumed = true →
      ∀ b, (next (.failure e)).ending = .value b → ¬ kind' b) :
    (r >>= next).KeptBy kind' (r' >>= next') := by
  refine hr.bind ?_ ?_
  · intro outcome houtcome
    cases outcome with
    | success a rest => exact hsuccess a rest
    | failure e => exact hfailure e houtcome
  · intro outcome houtcome
    cases outcome with
    | success a rest => exact absurd trivial houtcome
    | failure e => exact hcommitted e (Bool.of_not_eq_false houtcome)

/-- After a success the next step keeps what it comes to; a failure of the first is that of both. -/
theorem andThen {next next' : α → Cursor → Run (Outcome β)} (hr : r.KeptBy IsUncommitted r')
    (hnext : ∀ a rest, (next a rest).KeptBy IsUncommitted (next' a rest)) :
    (r.andThen next).KeptBy IsUncommitted (r'.andThen next') :=
  hr.bind_outcome hnext (fun _ _ => refl _) fun _ he _ hb => of_committed he hb

/-- A change to the failures that does not clear a commit. -/
theorem mapFailure {change : Failure → Failure} (hr : r.KeptBy IsUncommitted r')
    (hchange : ∀ e, e.consumed = true → (change e).consumed = true) :
    (r.mapFailure change).KeptBy IsUncommitted (r'.mapFailure change) :=
  hr.bind_outcome (fun _ _ => refl _) (fun _ _ => refl _)
    fun e he _ hb => of_committed (hchange e he) hb

/-- A commit makes every failure one that need not be kept. -/
theorem commit (hr : r.KeptBy IsUncommitted r') : r.commit.KeptBy IsUncommitted r'.commit :=
  hr.mapFailure fun _ _ => rfl

/-- Clearing commits changes nothing about an uncommitted failure. -/
theorem uncommit (hr : r.KeptBy IsUncommitted r') :
    r.KeptBy IsUncommitted (r'.mapFailure Failure.uncommit) := by
  intro outcome houtcome hkind
  have houtcome' := hr outcome houtcome hkind
  cases outcome with
  | success a rest => exact ending_mapFailure_eq_success_iff.2 houtcome'
  | failure e =>
    rcases e with ⟨diagnostics, consumed⟩
    cases hkind
    exact ending_mapFailure_eq_failure_iff.2 ⟨_, houtcome', rfl⟩

end Run.KeptBy

/-! ## The combinators -/

namespace Parser

open Run Outcome

variable {α β γ δ σ : Type}

/-- The second parser keeps all outcomes of the first but the committed failures, with any fuel and
everywhere. -/
def KeptBy (p q : Parser α) : Prop := ∀ n c, (p n c).KeptBy IsUncommitted (q n c)

namespace KeptBy

variable {p p' : Parser α} {q q' : Parser β}

/-- A change to the values keeps outcomes. -/
theorem map (hp : p.KeptBy p') (f : α → β) : (p.map f).KeptBy (p'.map f) :=
  fun n c => (hp n c).andThen fun _ _ => Run.KeptBy.refl _

/-- So does a change that may hit a fault: it hits it on both sides. -/
theorem mapChecked (hp : p.KeptBy p') (f : α → Except Fault β) :
    (p.mapChecked f).KeptBy (p'.mapChecked f) :=
  fun n c => (hp n c).andThen fun _ _ => Run.KeptBy.refl _

/-- The second alternative is tried only after an uncommitted failure, and such a failure is kept. -/
theorem or {q q' : Parser α} (hp : p.KeptBy p') (hq : q.KeptBy q') :
    (Parser.or p q).KeptBy (Parser.or p' q') := by
  intro n c
  refine (hp n c).bind_outcome (fun _ _ => Run.KeptBy.refl _) ?_ ?_
  · intro e he
    simp only [he]
    exact (hq n c).mapFailure fun _ hlater => hlater
  · intro e he b hb
    simp only [he, if_true] at hb
    exact Run.KeptBy.of_committed he hb

/-- So is every further alternative. -/
theorem choiceAfter {count : Nat} {ps ps' : Fin count → Parser α} (hps : ∀ i, (ps i).KeptBy (ps' i))
    (past : Failure) :
    (choiceAfter past (List.ofFn ps)).KeptBy (Parser.choiceAfter past (List.ofFn ps')) := by
  intro n c
  -- by the number of alternatives left; both sides have gathered the same diagnostics so far
  induction count generalizing past with
  | zero => exact Run.KeptBy.refl _
  | succ count ih =>
    rw [List.ofFn_succ, List.ofFn_succ]
    refine (hps 0 n c).bind_outcome (fun _ _ => Run.KeptBy.refl _) ?_ ?_
    · intro e he
      simp only [he]
      exact ih (fun i => hps i.succ) (past.merge e)
    · intro e he b hb
      simp only [he, if_true] at hb
      exact Run.KeptBy.of_committed (e := past.merge e) he hb

/-- An option is absent only after an uncommitted failure. -/
theorem optional (hp : p.KeptBy p') : (Parser.optional p).KeptBy (Parser.optional p') := by
  intro n c
  refine (hp n c).bind_outcome (fun _ _ => Run.KeptBy.refl _) ?_ ?_
  · exact fun e _ => Run.KeptBy.refl _
  · intro e he b hb
    simp only [he, if_true] at hb
    exact Run.KeptBy.of_committed he hb

/-- Later parts of a sequence are committed, so only their successes have to be kept. -/
theorem seq2 (hp : p.KeptBy p') (hq : q.KeptBy q') (combine : α → β → γ) :
    (Parser.seq2 p q combine).KeptBy (Parser.seq2 p' q' combine) :=
  fun n c => (hp n c).andThen fun _ afterFirst =>
    (hq n afterFirst).commit.andThen fun _ _ => Run.KeptBy.refl _

theorem seq3 {r r' : Parser γ} (hp : p.KeptBy p') (hq : q.KeptBy q') (hr : r.KeptBy r')
    (combine : α → β → γ → δ) :
    (Parser.seq3 p q r combine).KeptBy (Parser.seq3 p' q' r' combine) :=
  fun n c => (hp n c).andThen fun _ afterFirst =>
    (hq n afterFirst).commit.andThen fun _ afterSecond =>
      (hr n afterSecond).commit.andThen fun _ _ => Run.KeptBy.refl _

/-- A repetition ends with a success after an uncommitted failure, and such a failure is kept. -/
theorem repeatFrom (hp : p.KeptBy p') (past : List α) :
    (Parser.repeatFrom p past).KeptBy (Parser.repeatFrom p' past) := by
  intro n c
  refine Run.KeptBy.loop ?_ n (past, c)
  rintro ⟨past, c⟩
  refine (hp n c).bind_outcome ?_ (fun _ _ => Run.KeptBy.refl _) ?_
  · exact fun a rest => Run.KeptBy.refl _
  · intro e he b hb
    simp only [he, if_true] at hb
    exact Run.KeptBy.of_committed_answer he hb

/-- The first occurrence is required, and then it is a repetition. -/
theorem many1 (hp : p.KeptBy p') : (Parser.many1 p).KeptBy (Parser.many1 p') := by
  intro n c
  refine (hp n c).andThen ?_
  intro a rest
  split
  · exact Run.KeptBy.refl _
  · exact hp.repeatFrom [a] n rest

/-- A chain ends with a success after an uncommitted failure of its operator. -/
theorem chain (hp : p.KeptBy p') (hq : q.KeptBy q') (start : α → σ)
    (take : σ → β → α → Except Fault σ) :
    (Parser.chain p q start take).KeptBy (Parser.chain p' q' start take) := by
  intro n c
  refine (hp n c).andThen ?_
  intro first rest
  refine Run.KeptBy.loop ?_ n (start first, rest)
  rintro ⟨s, c⟩
  refine (hq n c).bind_outcome ?_ (fun _ _ => Run.KeptBy.refl _) ?_
  · -- after the operator the operand is required, so any failure of it ends the chain
    intro b afterOperator
    refine (hp n afterOperator).commit.bind_outcome (fun _ _ => Run.KeptBy.refl _)
      (fun _ _ => Run.KeptBy.refl _) ?_
    exact fun _ he _ hx => Run.KeptBy.of_committed_answer he hx
  · intro e he x hx
    simp only [he, if_true] at hx
    exact Run.KeptBy.of_committed_answer he hx

end KeptBy

end Parser

/-! ## Grammars with attempts added -/

namespace Grammar

mutual

/-- The grammar without its attempts; their bodies stay. -/
@[simp] def withoutAttempts : Grammar → Grammar
  | satisfy accepts description => satisfy accepts description
  | text expected => text expected
  | endOfInput => endOfInput
  | pure value => pure value
  | custom parse => custom parse
  | map body change => map body.withoutAttempts change
  | filter body accepts description => filter body.withoutAttempts accepts description
  | bind first captured next =>
    bind first.withoutAttempts captured fun v => withoutAttemptsMade (next v)
  | many body => many body.withoutAttempts
  | many1 body => many1 body.withoutAttempts
  | or first second => or first.withoutAttempts second.withoutAttempts
  | choice count alternatives => choice count fun i => (alternatives i).withoutAttempts
  | attempt body => body.withoutAttempts
  | seq2 first second combine => seq2 first.withoutAttempts second.withoutAttempts combine
  | seq3 first second third combine =>
    seq3 first.withoutAttempts second.withoutAttempts third.withoutAttempts combine
  | optional body => optional body.withoutAttempts
  | not body description => not body.withoutAttempts description
  | sepBy item separator => sepBy item.withoutAttempts separator.withoutAttempts
  | label body description => label body.withoutAttempts description
  | position body => position body.withoutAttempts
  | chainLeft operand operator fold =>
    chainLeft operand.withoutAttempts operator.withoutAttempts fold
  | chainRight operand operator fold =>
    chainRight operand.withoutAttempts operator.withoutAttempts fold
  | delayed body => delayed body.withoutAttempts
  | call name => call name
  | recursive name body => recursive name body.withoutAttempts
  | reference name => reference name

/-- What a binder goes on with, without its attempts. -/
def withoutAttemptsMade : Except Fault Grammar → Except Fault Grammar
  | .ok g => .ok g.withoutAttempts
  | .error e => .error e

end

/-- The second grammar is the first with any of its parts, however deep, wrapped in attempts. -/
def GainsAttempts (g g' : Grammar) : Prop := g'.withoutAttempts = g

/-- The grammar has no attempt yet, does not look ahead for the absence of something, and is not a
function of its own. -/
def IsPlain : Grammar → Prop
  | attempt _ | not _ _ | custom _ => False
  | _ => True

end Grammar

/-- The comparison for the law: the second parser keeps the outcomes of the first. -/
def keepingOutcomes : Comparison where
  Rel p q := ∀ c, (p c).KeptBy Outcome.IsUncommitted (q c)
  outOfFuel _ := .refl _
  fault _ _ := .refl _
  announce _ _ h c := (h c).prepend _ _

/-- A grammar keeps the outcomes that it had without its attempts if what it refers to does. -/
theorem Grammar.kept_with_attempts {g : Grammar} (hg : g.withoutAttempts.Everywhere IsPlain) :
    keepingOutcomes.Grammars g.withoutAttempts g := by
  induction g with
  | satisfy accepts description => exact fun _ _ _ => .refl _
  | text expected => exact fun _ _ _ => .refl _
  | endOfInput => exact fun _ _ _ => .refl _
  | pure value => exact fun _ _ _ => .refl _
  | custom parse => exact hg.here.elim
  | map body change ih =>
    intro _ _ _ _ hcontext n c
    exact (ih (hg.part (by simp)) hcontext n c).andThen fun _ _ => .refl _
  | filter body accepts description ih =>
    intro _ _ _ _ hcontext n c
    exact (ih (hg.part (by simp)) hcontext n c).andThen fun _ _ => .refl _
  | bind first captured next ihFirst ihNext =>
    intro _ _ _ _ hcontext n c
    refine (ihFirst (hg.part (by simp)) hcontext n c).andThen ?_
    intro v rest
    -- from the same value both sides go on with the same grammar, but for its attempts
    have hmade : MadeRel keepingOutcomes.Grammars (withoutAttemptsMade (next v)) (next v) := by
      cases hv : next v with
      | ok g =>
        have hg : g.withoutAttempts.Everywhere IsPlain :=
          hg.next (v := v) (by simp only [hv, withoutAttemptsMade])
        exact .ok (ihNext v g hv hg)
      | error e => exact .error e
    exact Run.KeptBy.commit (Comparison.Grammars.made hmade hcontext n rest)
  | many body ih =>
    intro _ _ _ _ hcontext
    exact (Parser.KeptBy.repeatFrom (ih (hg.part (by simp)) hcontext) []).map _
  | many1 body ih =>
    intro _ _ _ _ hcontext
    exact (Parser.KeptBy.many1 (ih (hg.part (by simp)) hcontext)).map _
  | or first second ihFirst ihSecond =>
    intro _ _ _ _ hcontext
    exact Parser.KeptBy.or (ihFirst (hg.part (by simp)) hcontext)
      (ihSecond (hg.part (by simp)) hcontext)
  | choice count alternatives ih =>
    intro _ _ _ _ hcontext
    refine Parser.KeptBy.choiceAfter (fun i => ?_) Failure.empty
    exact ih i (hg.part (by simp)) hcontext
  | attempt body ih =>
    -- the body has been kept, and the attempt around it leaves what is kept as it is
    intro _ _ _ _ hcontext n c
    exact (ih hg hcontext n c).uncommit
  | seq2 first second combine ihFirst ihSecond =>
    intro _ _ _ _ hcontext
    exact (Parser.KeptBy.seq2 (ihFirst (hg.part (by simp)) hcontext)
      (ihSecond (hg.part (by simp)) hcontext) Prod.mk).mapChecked _
  | seq3 first second third combine ihFirst ihSecond ihThird =>
    intro _ _ _ _ hcontext
    exact (Parser.KeptBy.seq3 (ihFirst (hg.part (by simp)) hcontext)
      (ihSecond (hg.part (by simp)) hcontext) (ihThird (hg.part (by simp)) hcontext) _).mapChecked _
  | optional body ih =>
    intro _ _ _ _ hcontext
    exact (Parser.KeptBy.optional (ih (hg.part (by simp)) hcontext)).map _
  | not body description ih => exact hg.here.elim
  | sepBy item separator ihItem ihSeparator =>
    intro _ _ _ _ hcontext
    exact ((Parser.KeptBy.chain (ihItem (hg.part (by simp)) hcontext)
      (ihSeparator (hg.part (by simp)) hcontext) _ _).map _).map _
  | label body description ih =>
    intro _ _ _ _ hcontext n c
    refine (ih (hg.part (by simp)) hcontext n c).mapFailure ?_
    intro e he
    simp [he]
  | position body ih =>
    intro _ _ _ _ hcontext n c
    have hbody := ih (hg.part (by simp)) hcontext n c
    exact (hbody.andThen fun _ _ => .refl _).andThen fun _ _ => .refl _
  | chainLeft operand operator fold ihOperand ihOperator =>
    intro _ _ _ _ hcontext
    exact Parser.KeptBy.chain (ihOperand (hg.part (by simp)) hcontext)
      (ihOperator (hg.part (by simp)) hcontext) _ _
  | chainRight operand operator fold ihOperand ihOperator =>
    intro _ _ _ _ hcontext
    exact ((Parser.KeptBy.chain (ihOperand (hg.part (by simp)) hcontext)
      (ihOperator (hg.part (by simp)) hcontext) _ _).map _).mapChecked _
  | delayed body ih =>
    exact Comparison.Grammars.delayed (ih (hg.part (by simp)))
  | call name => exact Comparison.Grammars.call name
  | recursive name body ih =>
    exact Comparison.Grammars.recursive (ih (hg.part (by simp))) name
  | reference name => exact Comparison.Grammars.reference name

/-- Wrapping parts of the grammars of a system in attempts keeps every success, with its value and
its rest, and every failure that is not committed, with its diagnostics in their order. -/
theorem System.outcome_kept_with_attempts {s s' : System}
    (hs : System.Rel Grammar.GainsAttempts s s') (hplain : s.Everywhere Grammar.IsPlain)
    {d d' : Definition} (hd : Definition.Rel Grammar.GainsAttempts d d')
    (hdplain : d.body.Everywhere Grammar.IsPlain) (n : Nat) (c : Cursor) :
    (∀ v rest, (s.parser d n c).ending = .value (.success v rest) →
      (s'.parser d' n c).ending = .value (.success v rest)) ∧
    (∀ e : Failure, (s.parser d n c).ending = .value (.failure e) → e.consumed = false →
      (s'.parser d' n c).ending = .value (.failure e)) := by
  have hkept : keepingOutcomes.Parsers (s.parser d) (s'.parser d') := by
    refine Comparison.systems ?_ (hs.and_everywhere hplain) ⟨⟨hd.body, hdplain⟩, hd.bindings⟩
    rintro _ g ⟨rfl, hg⟩
    exact Grammar.kept_with_attempts hg
  constructor
  · intro v rest hsuccess
    exact hkept n c _ hsuccess trivial
  · intro e hfailure hconsumed
    exact hkept n c _ hfailure hconsumed

/-- An alternative to a rule; the rule, its first part and the reference to it gain attempts. -/
theorem outcome_kept_of_letter_c :
    let s : System := ⟨⟨[.defined ⟨.and (.literal 'a') (.literal 'b'), []⟩]⟩, []⟩
    let s' : System :=
      ⟨⟨[.defined ⟨.attempt (.and (.attempt (.literal 'a')) (.literal 'b')), []⟩]⟩, []⟩
    let d : Definition := ⟨.or (.reference "rule") (.literal 'c'), [("rule", .strong 0)]⟩
    let d' : Definition :=
      ⟨.or (.attempt (.reference "rule")) (.literal 'c'), [("rule", .strong 0)]⟩
    let c := Cursor.start (Source.ofString 0 "c")
    System.Rel Grammar.GainsAttempts s s' ∧ s.Everywhere Grammar.IsPlain ∧
      Definition.Rel Grammar.GainsAttempts d d' ∧ d.body.Everywhere Grammar.IsPlain ∧
      (s.parser d 3 c).ending = .value (.success (.char 'c') c.next) ∧
      (s'.parser d' 3 c).ending = .value (.success (.char 'c') c.next) := by
  intro s s' d d' c
  have hliteral : ∀ ch, (Grammar.literal ch).Everywhere Grammar.IsPlain :=
    fun _ => .intro trivial (by simp [Grammar.literal])
  have hs : System.Rel Grammar.GainsAttempts s s' := by
    refine ⟨fun rule => ?_, fun name => .none⟩
    cases rule with
    | zero => exact .defined ⟨rfl, rfl⟩
    | succ rule => exact .freed
  have hplain : s.Everywhere Grammar.IsPlain :=
    System.Each.of_single (.intro trivial (by simp [Grammar.and, hliteral])) []
  have hd : Definition.Rel Grammar.GainsAttempts d d' := ⟨rfl, rfl⟩
  have hdplain : d.body.Everywhere Grammar.IsPlain := by
    have hrule : (Grammar.reference "rule").Everywhere Grammar.IsPlain :=
      .intro trivial (by simp)
    exact .intro trivial (by simp [d, hrule, hliteral])
  have hsuccess : (s.parser d 3 c).ending = .value (.success (.char 'c') c.next) := rfl
  have hkept := System.outcome_kept_with_attempts hs hplain hd hdplain 3 c
  exact ⟨hs, hplain, hd, hdplain, hsuccess, hkept.1 _ _ hsuccess⟩

/-- Where a committed failure is looked for, an attempt inside turns a success into a failure. -/
example :
    let c := Cursor.start (Source.ofString 0 "ac")
    let pair := Grammar.and (.literal 'a') (.literal 'b')
    (Grammar.parser (.not (.or pair (.literal 'a')) "nothing") 1 c).ending =
        .value (.success .unit c) ∧
      (Grammar.parser (.not (.or (.attempt pair) (.literal 'a')) "nothing") 1 c).ending =
        .value (.failure ⟨[⟨"nothing", 0⟩], false⟩) := ⟨rfl, rfl⟩

end CommittedParsing
