import CommittedParsing.Proofs.ParsingExpressions.Soundness
import Mathlib.Order.Filter.Finite

/-!
# What is derived is parsed

A verdict that the rules of parsing expressions give is come to by the parser, with any fuel from
some amount on. How much it takes is read off the derivation: each rule that is entered costs one
unit for all that is run inside it, and each round of a repetition one of its own.

Main statements:
* `Grammar.Yields.recursive`, `Grammar.Yields.call` — what the body of a rule comes to, the rule comes
  to with a unit more;
* `Parses.yields` — every derivation is followed, from some fuel on;
* `System.parses` — the same for a grammar of a system of rules.
-/

namespace CommittedParsing

open CommittedParsing.Parser Run Outcome

/-! ## Runs that come to a verdict -/

/-- The condition on outcomes: they are a success with this value and this place after it, or a
failure. -/
def Outcome.HasVerdict {α : Type} (verdict : Option (α × Cursor)) : Outcome α → Prop :=
  Meets (fun a rest => verdict = some (a, rest)) fun _ => verdict = none

namespace Run.Ensures

variable {α β : Type} {abort : Option Fault → Prop} {r : Run (Outcome α)} {a : α} {middle : Cursor}

/-- Behind a success, what goes on decides. -/
theorem andThen_some {next : α → Cursor → Run (Outcome β)} {post : Outcome β → Prop}
    (h : r.Ensures abort (HasVerdict (some (a, middle))))
    (hnext : (next a middle).Ensures abort post) : (r.andThen next).Ensures abort post := by
  refine h.bind ?_
  rintro (⟨a, rest⟩ | e) houtcome
  · cases houtcome
    exact hnext
  · cases houtcome

/-- Behind a failure, nothing goes on. -/
theorem andThen_none {next : α → Cursor → Run (Outcome β)} (h : r.Ensures abort (HasVerdict none)) :
    (r.andThen next).Ensures abort (HasVerdict none) := by
  refine h.bind ?_
  rintro (⟨a, rest⟩ | e) houtcome
  · cases houtcome
  · rfl

/-- The diagnostics are not part of the verdict, so a change of the failure keeps it. -/
theorem change_failure {verdict : Option (α × Cursor)} {change : Failure → Failure}
    (h : r.Ensures abort (HasVerdict verdict)) :
    (r.mapFailure change).Ensures abort (HasVerdict verdict) :=
  h.mapFailure fun _ he => he

end Run.Ensures

/-! ## Verdicts with enough fuel -/

/-- With every supply of at least `k`, the grammar comes to the verdict. -/
def Grammar.Yields (s : System) (names : Names) (g : Grammar) (c : Cursor) (verdict : Verdict)
    (k : Nat) : Prop :=
  ∀ supply : Supply s k names, (supply.run g c).Ensures noAbort (HasVerdict verdict)

/-- With every supply of at least `k` and at least as many rounds, a repetition of the grammar finds
these items, ends there and does not fail. -/
def Grammar.YieldsItems (s : System) (names : Names) (body : Grammar) (c : Cursor)
    (items : List Value) (rest : Cursor) (k : Nat) : Prop :=
  ∀ (supply : Supply s k names) (rounds : Nat) (past : List Value), k ≤ rounds →
    (Run.loop (repeatStep (body.denote supply.call supply.scope) supply.fuel) rounds
      (past, c)).Ensures noAbort (HasVerdict (some (past.reverse ++ items, rest)))

variable {s : System} {names : Names} {g body : Grammar} {c rest : Cursor} {verdict : Verdict}

namespace Grammar

/-! ### Grammars without parts -/

theorem Yields.satisfy {accepts : Char → Bool} {description : String} {ch : Char} {k : Nat}
    (hvalue : c.value? = some ch) (haccepts : accepts ch = true) :
    (Grammar.satisfy accepts description).Yields s names c (some (.char ch, c.next)) k := by
  intro supply
  have hchar : (Parser.satisfy accepts description supply.fuel c).Ensures noAbort
      (HasVerdict (some (ch, c.next))) := by
    unfold Parser.satisfy
    rw [hvalue]
    simp only [haccepts, if_true]
    rfl
  exact hchar.andThen_some rfl

theorem Yields.satisfy_none {accepts : Char → Bool} {description : String} {k : Nat}
    (hnone : ∀ ch, c.value? = some ch → accepts ch = false) :
    (Grammar.satisfy accepts description).Yields s names c none k := by
  intro supply
  have hchar : (Parser.satisfy accepts description supply.fuel c).Ensures noAbort
      (HasVerdict none) := by
    unfold Parser.satisfy
    split
    next ch hvalue =>
      rw [hnone ch hvalue]
      rfl
    next => rfl
  exact hchar.andThen_none

theorem Yields.text {expected : String} {rest : List Char} {k : Nat}
    (hrest : c.rest = expected.toList ++ rest) :
    (Grammar.text expected).Yields s names c
      (some (.string expected, c.skip expected.toList rest)) k := by
  intro supply
  have htext : (Parser.text expected supply.fuel c).Ensures noAbort
      (HasVerdict (some (expected, c.skip expected.toList rest))) := by
    unfold Parser.text
    rw [dropPrefix?_eq_some_iff.2 hrest]
    rfl
  exact htext.andThen_some rfl

theorem Yields.text_none {expected : String} {k : Nat}
    (hnone : ∀ rest, c.rest ≠ expected.toList ++ rest) :
    (Grammar.text expected).Yields s names c none k := by
  intro supply
  have htext : (Parser.text expected supply.fuel c).Ensures noAbort (HasVerdict none) := by
    unfold Parser.text
    split
    next rest hrest => exact absurd (dropPrefix?_eq_some_iff.1 hrest) (hnone rest)
    next => rfl
  exact htext.andThen_none

theorem Yields.endOfInput {k : Nat} (hend : c.atEnd = true) :
    Grammar.endOfInput.Yields s names c (some (.unit, c)) k := by
  intro supply
  have hunit : (Parser.endOfInput supply.fuel c).Ensures noAbort (HasVerdict (some ((), c))) := by
    unfold Parser.endOfInput
    rw [hend]
    rfl
  exact hunit.andThen_some rfl

theorem Yields.endOfInput_none {k : Nat} (hend : c.atEnd = false) :
    Grammar.endOfInput.Yields s names c none k := by
  intro supply
  have hunit : (Parser.endOfInput supply.fuel c).Ensures noAbort (HasVerdict none) := by
    unfold Parser.endOfInput
    rw [hend]
    rfl
  exact hunit.andThen_none

/-! ### Values and sequences -/

theorem Yields.map {change : Value → Except Fault Value} {v w : Value} {k : Nat}
    (h : body.Yields s names c (some (v, rest)) k) (hchange : change v = .ok w) :
    (Grammar.map body change).Yields s names c (some (w, rest)) k := by
  intro supply
  refine (h supply).andThen_some ?_
  rw [hchange]
  rfl

theorem Yields.filter {accepts : Value → Except Fault Bool} {description : String} {v : Value} {k : Nat}
    (h : body.Yields s names c (some (v, rest)) k) (haccepts : accepts v = .ok true) :
    (Grammar.filter body accepts description).Yields s names c (some (v, rest)) k := by
  intro supply
  refine (h supply).andThen_some ?_
  rw [haccepts]
  rfl

/-- A value that the condition rejects is a failure. -/
theorem Yields.filter_rejected {accepts : Value → Except Fault Bool} {description : String}
    {v : Value} {k : Nat} (h : body.Yields s names c (some (v, rest)) k) (haccepts : accepts v = .ok false) :
    (Grammar.filter body accepts description).Yields s names c none k := by
  intro supply
  refine (h supply).andThen_some ?_
  rw [haccepts]
  rfl

theorem Yields.bind {first made : Grammar} {captured : List String}
    {next : Value → Except Fault Grammar} {v : Value} {k : Nat}
    (hfirst : first.Yields s names c (some (v, rest)) k) (hnext : next v = .ok made)
    (hmade : made.Yields s names rest verdict k) :
    (Grammar.bind first captured next).Yields s names c verdict k := by
  intro supply
  refine (hfirst supply).andThen_some ?_
  dsimp only
  rw [hnext, Grammar.denoteMade]
  exact ((hmade supply).prepend _).change_failure

section Sequences

variable {first second third : Grammar} {v w x joined : Value} {middle afterFirst afterSecond : Cursor}
  {k : Nat}

theorem Yields.seq2 {combine : Value → Value → Except Fault Value}
    (hfirst : first.Yields s names c (some (v, middle)) k)
    (hsecond : second.Yields s names middle (some (w, rest)) k) (hjoined : combine v w = .ok joined) :
    (Grammar.seq2 first second combine).Yields s names c (some (joined, rest)) k := by
  intro supply
  have hboth : (Parser.and (first.denote supply.call supply.scope)
      (second.denote supply.call supply.scope) supply.fuel c).Ensures noAbort
      (HasVerdict (some ((v, w), rest))) :=
    (hfirst supply).andThen_some ((hsecond supply).change_failure.andThen_some rfl)
  refine hboth.andThen_some ?_
  dsimp only
  rw [hjoined]
  rfl

/-- A sequence fails where its second grammar does. -/
theorem Yields.seq2_second_none {combine : Value → Value → Except Fault Value}
    (hfirst : first.Yields s names c (some (v, middle)) k)
    (hsecond : second.Yields s names middle none k) :
    (Grammar.seq2 first second combine).Yields s names c none k := by
  intro supply
  have hboth : (Parser.and (first.denote supply.call supply.scope)
      (second.denote supply.call supply.scope) supply.fuel c).Ensures noAbort (HasVerdict none) :=
    (hfirst supply).andThen_some (hsecond supply).change_failure.andThen_none
  exact hboth.andThen_none

theorem Yields.seq3 {combine : Value → Value → Value → Except Fault Value}
    (hfirst : first.Yields s names c (some (v, afterFirst)) k)
    (hsecond : second.Yields s names afterFirst (some (w, afterSecond)) k)
    (hthird : third.Yields s names afterSecond (some (x, rest)) k)
    (hjoined : combine v w x = .ok joined) :
    (Grammar.seq3 first second third combine).Yields s names c (some (joined, rest)) k := by
  intro supply
  have hall : (Parser.seq3 (first.denote supply.call supply.scope)
      (second.denote supply.call supply.scope) (third.denote supply.call supply.scope)
      (fun v w x => (v, w, x)) supply.fuel c).Ensures noAbort
      (HasVerdict (some ((v, w, x), rest))) := by
    refine (hfirst supply).andThen_some ?_
    refine (hsecond supply).change_failure.andThen_some ?_
    exact (hthird supply).change_failure.andThen_some rfl
  refine hall.andThen_some ?_
  dsimp only
  rw [hjoined]
  rfl

theorem Yields.seq3_second_none {combine : Value → Value → Value → Except Fault Value}
    (hfirst : first.Yields s names c (some (v, afterFirst)) k)
    (hsecond : second.Yields s names afterFirst none k) :
    (Grammar.seq3 first second third combine).Yields s names c none k := by
  intro supply
  have hall : (Parser.seq3 (first.denote supply.call supply.scope)
      (second.denote supply.call supply.scope) (third.denote supply.call supply.scope)
      (fun v w x => (v, w, x)) supply.fuel c).Ensures noAbort (HasVerdict none) :=
    (hfirst supply).andThen_some (hsecond supply).change_failure.andThen_none
  exact hall.andThen_none

theorem Yields.seq3_third_none {combine : Value → Value → Value → Except Fault Value}
    (hfirst : first.Yields s names c (some (v, afterFirst)) k)
    (hsecond : second.Yields s names afterFirst (some (w, afterSecond)) k)
    (hthird : third.Yields s names afterSecond none k) :
    (Grammar.seq3 first second third combine).Yields s names c none k := by
  intro supply
  have hall : (Parser.seq3 (first.denote supply.call supply.scope)
      (second.denote supply.call supply.scope) (third.denote supply.call supply.scope)
      (fun v w x => (v, w, x)) supply.fuel c).Ensures noAbort (HasVerdict none) := by
    refine (hfirst supply).andThen_some ?_
    refine (hsecond supply).change_failure.andThen_some ?_
    exact (hthird supply).change_failure.andThen_none
  exact hall.andThen_none

end Sequences

/-! ### Alternatives and marks -/

/-- An attempt that fails does so uncommitted. -/
theorem Yields.attempt_none {k : Nat} (h : g.Yields s names c none k) (hattempt : g.IsAttempt)
    (supply : Supply s k names) :
    (supply.run g c).Ensures noAbort (Meets (fun _ _ => False) fun e => e.consumed = false) := by
  refine (hattempt.ensures (h supply)).mono ?_ fun _ he => he.2
  rintro v rest heq
  cases heq

/-- The first alternative decides where it succeeds. -/
theorem Yields.or {first second : Grammar} {result : Value × Cursor} {k : Nat}
    (h : first.Yields s names c (some result) k) :
    (Grammar.or first second).Yields s names c (some result) k := by
  intro supply
  refine (h supply).bind ?_
  rintro (⟨v, rest⟩ | e) houtcome
  · exact houtcome
  · cases houtcome

/-- Where the first fails, being an attempt, it has not committed, and the second decides. -/
theorem Yields.or_second {first second : Grammar} {k : Nat} (hattempt : first.IsAttempt)
    (hfirst : first.Yields s names c none k) (hsecond : second.Yields s names c verdict k) :
    (Grammar.or first second).Yields s names c verdict k := by
  intro supply
  refine (hfirst.attempt_none hattempt supply).bind ?_
  rintro (⟨v, rest⟩ | e) houtcome
  · exact houtcome.elim
  · change e.consumed = false at houtcome
    simp only [houtcome]
    exact (hsecond supply).change_failure

/-- The alternative that succeeds is come to, those before it having failed uncommitted. -/
theorem Yields.choice {count : Nat} {alternatives : Fin count → Grammar} {result : Value × Cursor}
    {k : Nat} (hattempts : ∀ i, (alternatives i).IsAttempt) (i : Fin count)
    (hbefore : ∀ j < i, (alternatives j).Yields s names c none k)
    (hsuccess : (alternatives i).Yields s names c (some result) k) :
    (Grammar.choice count alternatives).Yields s names c (some result) k := by
  intro supply
  refine ensures_choice (F := fun j => j < i) ?_ ?_ _
  · intro j hprior
    rcases Nat.lt_trichotomy j i with hlt | heq | hgt
    · refine ((hbefore j hlt).attempt_none (hattempts j) supply).mono (fun _ _ h => h.elim) ?_
      exact fun _ he => ⟨hlt, he⟩
    · cases Fin.ext heq
      refine (hsuccess supply).mono (fun _ _ h => h) ?_
      rintro e heq
      cases heq
    · exact absurd (hprior i hgt) (Nat.lt_irrefl i)
  · exact fun hall => absurd (hall i) (Nat.lt_irrefl i)

/-- A choice fails where every alternative does. -/
theorem Yields.choice_none {count : Nat} {alternatives : Fin count → Grammar} {k : Nat}
    (hattempts : ∀ i, (alternatives i).IsAttempt)
    (h : ∀ i, (alternatives i).Yields s names c none k) :
    (Grammar.choice count alternatives).Yields s names c none k := by
  intro supply
  refine ensures_choice (F := fun _ => True) ?_ (fun _ _ => rfl) _
  intro i _
  refine ((h i).attempt_none (hattempts i) supply).mono (fun _ _ h => h.elim) ?_
  exact fun _ he => ⟨trivial, he⟩

theorem Yields.optional {v : Value} {k : Nat} (h : body.Yields s names c (some (v, rest)) k) :
    (Grammar.optional body).Yields s names c (some (.some v, rest)) k := by
  intro supply
  have hoption : (Parser.optional (body.denote supply.call supply.scope) supply.fuel c).Ensures
      noAbort (HasVerdict (some (some v, rest))) := by
    refine (h supply).bind ?_
    rintro (⟨v', rest'⟩ | e) houtcome
    · cases houtcome
      rfl
    · cases houtcome
  exact hoption.andThen_some rfl

/-- What fails without committing is taken for nothing. -/
theorem Yields.optional_none {k : Nat} (hattempt : body.IsAttempt)
    (h : body.Yields s names c none k) :
    (Grammar.optional body).Yields s names c (some (.none, c)) k := by
  intro supply
  have hoption : (Parser.optional (body.denote supply.call supply.scope) supply.fuel c).Ensures
      noAbort (HasVerdict (some (none, c))) := by
    refine (h.attempt_none hattempt supply).bind ?_
    rintro (⟨v, rest⟩ | e) houtcome
    · exact houtcome.elim
    · change e.consumed = false at houtcome
      simp only [houtcome]
      rfl
  exact hoption.andThen_some rfl

/-- A look ahead succeeds where its grammar fails. -/
theorem Yields.not {description : String} {k : Nat} (h : body.Yields s names c none k) :
    (Grammar.not body description).Yields s names c (some (.unit, c)) k := by
  intro supply
  have hnot : (Parser.not description (body.denote supply.call supply.scope)
      supply.fuel c).Ensures noAbort (HasVerdict (some ((), c))) := by
    refine (h supply).bind ?_
    rintro (⟨v, rest⟩ | e) houtcome
    · cases houtcome
    · rfl
  exact hnot.andThen_some rfl

/-- A look ahead fails where its grammar succeeds. -/
theorem Yields.not_none {description : String} {result : Value × Cursor} {k : Nat}
    (h : body.Yields s names c (some result) k) :
    (Grammar.not body description).Yields s names c none k := by
  intro supply
  have hnot : (Parser.not description (body.denote supply.call supply.scope)
      supply.fuel c).Ensures noAbort (HasVerdict none) := by
    refine (h supply).bind ?_
    rintro (⟨v, rest⟩ | e) houtcome
    · rfl
    · cases houtcome
  exact hnot.andThen_none

theorem Yields.position {v : Value} {k : Nat} (h : body.Yields s names c (some (v, rest)) k) :
    (Grammar.position body).Yields s names c
      (some (.pair v (.span ⟨c.position, rest.position⟩), rest)) k := by
  intro supply
  have hspan : (Parser.position (body.denote supply.call supply.scope) supply.fuel c).Ensures
      noAbort (HasVerdict (some ((v, ⟨c.position, rest.position⟩), rest))) :=
    (h supply).andThen_some rfl
  exact hspan.andThen_some rfl

theorem Yields.position_none {k : Nat} (h : body.Yields s names c none k) :
    (Grammar.position body).Yields s names c none k := by
  intro supply
  have hspan : (Parser.position (body.denote supply.call supply.scope) supply.fuel c).Ensures
      noAbort (HasVerdict none) := (h supply).andThen_none
  exact hspan.andThen_none

/-! ### Repetitions -/

/-- A repetition stops before a round that fails. -/
theorem YieldsItems.stop {k : Nat} (hattempt : body.IsAttempt) (h : body.Yields s names c none k)
    (hk : 1 ≤ k) : body.YieldsItems s names c [] c k := by
  intro supply rounds past hrounds
  rcases Nat.exists_eq_add_of_le' (hk.trans hrounds) with ⟨rounds, rfl⟩
  rw [repeatFrom_succ]
  refine (h.attempt_none hattempt supply).bind ?_
  rintro (⟨v, rest⟩ | e) houtcome
  · exact houtcome.elim
  · change e.consumed = false at houtcome
    simp only [houtcome, List.append_nil]
    rfl

/-- A round that does not move is kept, and is the last. -/
theorem YieldsItems.still {v : Value} {k : Nat} (h : body.Yields s names c (some (v, rest)) k)
    (hsame : rest.position = c.position) (hk : 1 ≤ k) :
    body.YieldsItems s names c [v] rest k := by
  intro supply rounds past hrounds
  rcases Nat.exists_eq_add_of_le' (hk.trans hrounds) with ⟨rounds, rfl⟩
  rw [repeatFrom_succ]
  refine (h supply).bind ?_
  rintro (⟨v', rest'⟩ | e) houtcome
  · cases houtcome
    simp only [hsame, if_true, List.reverse_cons]
    rfl
  · cases houtcome

/-- A round that moves is kept, and costs a unit of the rounds left. -/
theorem YieldsItems.more {v : Value} {items : List Value} {middle : Cursor} {k : Nat}
    (h : body.Yields s names c (some (v, middle)) k) (hmoved : middle.position ≠ c.position)
    (hitems : body.YieldsItems s names middle items rest k) :
    body.YieldsItems s names c (v :: items) rest (k + 1) := by
  intro supply rounds past hrounds
  rcases Nat.exists_eq_add_of_le' (Nat.one_le_of_lt hrounds) with ⟨rounds, rfl⟩
  rw [repeatFrom_succ]
  refine (h supply.weaken).bind ?_
  rintro (⟨v', rest'⟩ | e) houtcome
  · cases houtcome
    have hlater := hitems supply.weaken rounds (v :: past) (Nat.le_of_succ_le_succ hrounds)
    simp only [hmoved, if_false]
    rw [List.reverse_cons, List.append_assoc] at hlater
    exact hlater
  · cases houtcome

/-- A repetition yields the items that its grammar yields one behind the other. -/
theorem Yields.many {items : List Value} {k : Nat}
    (h : body.YieldsItems s names c items rest k) :
    (Grammar.many body).Yields s names c (some (.list items, rest)) k := by
  intro supply
  have hitems : (Parser.many (body.denote supply.call supply.scope) supply.fuel c).Ensures
      noAbort (HasVerdict (some (items, rest))) := h supply supply.fuel [] supply.enough
  exact hitems.andThen_some rfl

/-- A repetition that finds something has found it after a first success. -/
theorem ensures_many1_of_loop {p : Parser Value} {n : Nat} {v : Value} {items : List Value}
    (h : (Run.loop (repeatStep p n) (n + 1) ([], c)).Ensures noAbort
      (HasVerdict (some (v :: items, rest)))) :
    (Parser.many1 p n c).Ensures noAbort (HasVerdict (some (v :: items, rest))) := by
  rw [repeatFrom_succ] at h
  unfold Parser.many1
  generalize p n c = r at h ⊢
  cases r using outcome_cases with
  | success records a middle => exact h
  | failure records e =>
    rw [bind_value] at h
    dsimp only at h
    split at h
    next => cases h
    next => cases h
  | fault records e => exact h
  | outOfFuel records => exact h

theorem Yields.many1 {v : Value} {items : List Value} {k : Nat}
    (h : body.YieldsItems s names c (v :: items) rest k) :
    (Grammar.many1 body).Yields s names c (some (.list (v :: items), rest)) k := by
  intro supply
  have hloop := h supply (supply.fuel + 1) [] (Nat.le_succ_of_le supply.enough)
  exact (ensures_many1_of_loop hloop).andThen_some rfl

/-- Without a first item it fails. -/
theorem Yields.many1_none {k : Nat} (h : body.Yields s names c none k) :
    (Grammar.many1 body).Yields s names c none k := by
  intro supply
  have hitems : (Parser.many1 (body.denote supply.call supply.scope) supply.fuel c).Ensures
      noAbort (HasVerdict none) := (h supply).andThen_none
  exact hitems.andThen_none

/-! ### Rules -/

/-- Entering a rule costs a unit. -/
theorem Yields.recursive {name : String} {k : Nat}
    (h : body.Yields s ((name, .tied body) :: names) c verdict k) :
    (Grammar.recursive name body).Yields s names c verdict (k + 1) :=
  Enters.recursive.ensures h

/-- A tied rule is entered with what was left when it came into scope. -/
theorem Yields.reference_tied {name : String} {k : Nat}
    (h : body.Yields s ((name, .tied body) :: names) c verdict k) :
    (Grammar.reference name).Yields s ((name, .tied body) :: names) c verdict (k + 1) :=
  Enters.reference_tied.ensures h

/-- Running the definition of a stored rule costs a unit. -/
theorem Yields.reference_stored {name : String} {handle : Handle} {d : Definition} {k : Nat}
    (hresolve : s.store.resolve handle = .ok d)
    (h : d.body.Yields s (Names.ofBindings d.bindings) c verdict k) :
    (Grammar.reference name).Yields s ((name, .stored handle) :: names) c verdict (k + 1) :=
  (Enters.reference_stored hresolve).ensures h

/-- A name means what it meant before, if another one is bound. -/
theorem Yields.reference_outer {bound name : String} {referent : Referent} {k : Nat}
    (hname : bound ≠ name) (h : (Grammar.reference name).Yields s names c verdict k) :
    (Grammar.reference name).Yields s ((bound, referent) :: names) c verdict k := by
  rintro ⟨call, scope, fuel, hcalls, hbound, henough⟩
  unfold Supply.run
  cases hbound with
  | tied hcall hscope hm =>
    rw [Grammar.denote, Scope.parser_cons_of_ne hname]
    exact h ⟨call, _, fuel, hcalls, hscope, henough⟩
  | stored hp hscope =>
    rw [Grammar.denote, Scope.parser_cons_of_ne hname]
    exact h ⟨call, _, fuel, hcalls, hscope, henough⟩

/-- A call costs a unit. -/
theorem Yields.call {name : String} {k : Nat} (hlookup : s.library.lookup name = some body)
    (h : body.Yields s names c verdict k) :
    (Grammar.call name).Yields s names c verdict (k + 1) :=
  (Enters.call hlookup).ensures h

end Grammar

/-! ## Following a derivation -/

/-- Every rule that the names stand for backtracks. -/
def Names.Backtrack (names : Names) : Prop :=
  ∀ name body, (name, Referent.tied body) ∈ names → body.Everywhere Grammar.Backtracks

theorem Names.Backtrack.cons {name : String} {referent : Referent}
    (h : Names.Backtrack ((name, referent) :: names)) : names.Backtrack :=
  fun name body hmem => h name body (List.mem_cons_of_mem _ hmem)

theorem Names.backtrack_ofBindings (bindings : List (String × Handle)) :
    (Names.ofBindings bindings).Backtrack := by
  intro name body hmem
  simp [Names.ofBindings] at hmem

/-- A recursive binding of a backtracking body leaves the names backtracking. -/
theorem Names.Backtrack.tied {name : String} (h : names.Backtrack)
    (hbody : body.Everywhere Grammar.Backtracks) :
    Names.Backtrack ((name, .tied body) :: names) := by
  intro name' body' hmem
  rcases List.mem_cons.1 hmem with heq | hmem
  · cases heq
    exact hbody
  · exact h name' body' hmem

/-- Every derivation is followed by the parser, given enough fuel: by induction on the derivation. -/
theorem Parses.yields (hs : s.Everywhere Grammar.Backtracks) (h : Parses s names g c verdict)
    (hnames : names.Backtrack) (hg : g.Everywhere Grammar.Backtracks) :
    ∀ᶠ k in Filter.atTop, g.Yields s names c verdict k := by
  -- over the derivation, and beside it for the items of a repetition; every premise holds from some
  -- fuel on, so that all of them hold from the largest
  induction h using Parses.rec
    (motive_2 := fun names body c items rest _ => names.Backtrack →
      body.Everywhere Grammar.Backtracks → body.IsAttempt →
        ∀ᶠ k in Filter.atTop, body.YieldsItems s names c items rest k) with
  | satisfy hvalue haccepts => exact .of_forall fun _ => .satisfy hvalue haccepts
  | satisfy_none hnone => exact .of_forall fun _ => .satisfy_none hnone
  | text hrest => exact .of_forall fun _ => .text hrest
  | text_none hnone => exact .of_forall fun _ => .text_none hnone
  | endOfInput hend => exact .of_forall fun _ => .endOfInput hend
  | endOfInput_none hend => exact .of_forall fun _ => .endOfInput_none hend
  | pure => exact .of_forall fun _ _ => rfl
  | map _ hchange ih =>
    filter_upwards [ih hnames (hg.part (by simp))] with k h
    exact h.map hchange
  | map_none _ ih =>
    filter_upwards [ih hnames (hg.part (by simp))] with k h supply
    exact (h supply).andThen_none
  | filter _ haccepts ih =>
    filter_upwards [ih hnames (hg.part (by simp))] with k h
    exact h.filter haccepts
  | filter_rejected _ haccepts ih =>
    filter_upwards [ih hnames (hg.part (by simp))] with k h
    exact h.filter_rejected haccepts
  | filter_none _ ih =>
    filter_upwards [ih hnames (hg.part (by simp))] with k h supply
    exact (h supply).andThen_none
  | bind _ hnext _ ihFirst ihMade =>
    filter_upwards [ihFirst hnames (hg.part (by simp)), ihMade hnames (hg.next hnext)] with k h h'
    exact h.bind hnext h'
  | bind_none _ ih =>
    filter_upwards [ih hnames (hg.part (by simp))] with k h supply
    exact (h supply).andThen_none
  | seq2 _ _ hjoined ihFirst ihSecond =>
    filter_upwards [ihFirst hnames (hg.part (by simp)), ihSecond hnames (hg.part (by simp))]
      with k h h'
    exact h.seq2 h' hjoined
  | seq2_none _ ih =>
    filter_upwards [ih hnames (hg.part (by simp))] with k h supply
    exact (h supply).andThen_none.andThen_none
  | seq2_second_none _ _ ihFirst ihSecond =>
    filter_upwards [ihFirst hnames (hg.part (by simp)), ihSecond hnames (hg.part (by simp))]
      with k h h'
    exact h.seq2_second_none h'
  | seq3 _ _ _ hjoined ihFirst ihSecond ihThird =>
    filter_upwards [ihFirst hnames (hg.part (by simp)), ihSecond hnames (hg.part (by simp)),
      ihThird hnames (hg.part (by simp))] with k h h' h''
    exact h.seq3 h' h'' hjoined
  | seq3_none _ ih =>
    filter_upwards [ih hnames (hg.part (by simp))] with k h supply
    exact (h supply).andThen_none.andThen_none
  | seq3_second_none _ _ ihFirst ihSecond =>
    filter_upwards [ihFirst hnames (hg.part (by simp)), ihSecond hnames (hg.part (by simp))]
      with k h h'
    exact h.seq3_second_none h'
  | seq3_third_none _ _ _ ihFirst ihSecond ihThird =>
    filter_upwards [ihFirst hnames (hg.part (by simp)), ihSecond hnames (hg.part (by simp)),
      ihThird hnames (hg.part (by simp))] with k h h' h''
    exact h.seq3_third_none h' h''
  | or _ ih =>
    filter_upwards [ih hnames (hg.part (by simp))] with k h
    exact h.or
  | or_second _ _ ihFirst ihSecond =>
    filter_upwards [ihFirst hnames (hg.part (by simp)), ihSecond hnames (hg.part (by simp))]
      with k h h'
    exact .or_second hg.here.1 h h'
  | choice i _ _ ihBefore ih =>
    have hbefore := Filter.eventually_all.2 fun j => Filter.eventually_all.2 fun hj =>
      ihBefore j hj hnames (hg.part (by simp))
    filter_upwards [hbefore, ih hnames (hg.part (by simp))] with k h h'
    exact .choice hg.here i h h'
  | choice_none _ ih =>
    have hnone := Filter.eventually_all.2 fun j => ih j hnames (hg.part (by simp))
    filter_upwards [hnone] with k h
    exact .choice_none hg.here h
  | many _ ih =>
    filter_upwards [ih hnames (hg.part (by simp)) hg.here] with k h
    exact Grammar.Yields.many h
  | many1 _ ih =>
    filter_upwards [ih hnames (hg.part (by simp)) hg.here] with k h
    exact Grammar.Yields.many1 h
  | many1_none _ ih =>
    filter_upwards [ih hnames (hg.part (by simp))] with k h
    exact h.many1_none
  | optional _ ih =>
    filter_upwards [ih hnames (hg.part (by simp))] with k h
    exact h.optional
  | optional_none _ ih =>
    filter_upwards [ih hnames (hg.part (by simp))] with k h
    exact h.optional_none hg.here
  | not _ ih =>
    filter_upwards [ih hnames (hg.part (by simp))] with k h
    exact h.not
  | not_none _ ih =>
    filter_upwards [ih hnames (hg.part (by simp))] with k h
    exact h.not_none
  | attempt _ ih =>
    filter_upwards [ih hnames (hg.part (by simp))] with k h supply
    exact (h supply).change_failure
  | label _ ih =>
    filter_upwards [ih hnames (hg.part (by simp))] with k h supply
    exact (h supply).change_failure
  | position _ ih =>
    filter_upwards [ih hnames (hg.part (by simp))] with k h
    exact h.position
  | position_none _ ih =>
    filter_upwards [ih hnames (hg.part (by simp))] with k h
    exact h.position_none
  | delayed _ ih =>
    filter_upwards [ih hnames (hg.part (by simp))] with k h supply
    exact (h supply).prepend _
  | call hlookup _ ih =>
    exact eventually_succ (ih hnames (hs.library _ _ hlookup)) fun k h => h.call hlookup
  | @recursive _ body _ _ _ _ ih =>
    have hbody : body.Everywhere Grammar.Backtracks := hg.part (by simp)
    exact eventually_succ (ih (hnames.tied hbody) hbody) fun k h => h.recursive
  | reference_tied _ ih =>
    have hbody := hnames _ _ List.mem_cons_self
    exact eventually_succ (ih hnames hbody) fun k h => h.reference_tied
  | @reference_stored _ d _ _ _ _ hresolve _ ih =>
    have hbody := hs.rules _ _ (Store.resolve_eq_ok_iff.1 hresolve)
    exact eventually_succ (ih (Names.backtrack_ofBindings _) hbody) fun k h =>
      h.reference_stored hresolve
  | reference_outer hname _ ih =>
    filter_upwards [ih hnames.cons hg] with k h
    exact h.reference_outer hname
  | stop _ ih hnames hbody hattempt =>
    filter_upwards [ih hnames hbody, Filter.eventually_ge_atTop 1] with k h hk
    exact .stop hattempt h hk
  | still _ hsame ih hnames hbody =>
    filter_upwards [ih hnames hbody, Filter.eventually_ge_atTop 1] with k h hk
    exact .still h hsame hk
  | more _ hmoved _ ih ihItems hnames hbody hattempt =>
    have hround := (ih hnames hbody).and (ihItems hnames hbody hattempt)
    exact eventually_succ hround fun k h => .more h.1 hmoved h.2

/-! ## Systems -/

/-- Where every grammar of a system backtracks, a parser of it comes to each verdict of its grammar,
with any fuel from some amount on. -/
theorem System.parses (hs : s.Everywhere Grammar.Backtracks) {d : Definition}
    (hd : d.body.Everywhere Grammar.Backtracks)
    (h : Parses s (Names.ofBindings d.bindings) d.body c verdict) :
    ∀ᶠ n in Filter.atTop, (s.parser d n c).Ensures noAbort (HasVerdict verdict) := by
  filter_upwards [h.yields hs (Names.backtrack_ofBindings d.bindings) hd] with n hn
  exact hn (.whole s d n)

end CommittedParsing
