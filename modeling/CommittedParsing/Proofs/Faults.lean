import CommittedParsing.Proofs.Comparison

/-!
# Where faults come from

No combinator has a fault of its own. A run of a grammar ends without a value only for want of fuel,
because a name in it has no rule, or with a fault of the functions of the grammar or of what the
grammar refers to.

Main statements:
* `Grammar.ends_within` — the law for one grammar, from the law for what it refers to.
-/

namespace CommittedParsing

open CommittedParsing.Parser Run

/-- If the run ends without a value, it does so in a way that is allowed. -/
def Run.Within {α : Type} (r : Run α) (abort : Option Fault → Prop) : Prop :=
  r.Ensures abort fun _ => True

/-- The functions of the grammar itself raise only faults with that property. -/
def Grammar.Raises (P : Fault → Prop) : Grammar → Prop
  | custom parse => ∀ c e, parse c = .error e → P e
  | map _ change => ∀ v e, change v = .error e → P e
  | filter _ accepts _ => ∀ v e, accepts v = .error e → P e
  | bind _ _ next => ∀ v e, next v = .error e → P e
  | seq2 _ _ combine => ∀ v w e, combine v w = .error e → P e
  | seq3 _ _ _ combine => ∀ u v w e, combine u v w = .error e → P e
  | chainLeft _ _ fold | chainRight _ _ fold => ∀ u v w e, fold u v w = .error e → P e
  | _ => True

variable {α β γ δ σ : Type} {abort : Option Fault → Prop}

/-! ## Runs -/

namespace Run.Within

/-- A computation ends in ways that are allowed if its faults are. -/
theorem ofExcept {x : Except Fault α} (h : ∀ e, x = .error e → abort (some e)) :
    (Run.ofExcept x).Within abort :=
  Ensures.ofExcept (fun _ _ => trivial) h

/-- Records put in front do not touch how the run ends. -/
theorem prepend {r : Run α} (records : List Record) (h : r.Within abort) :
    (r.prepend records).Within abort :=
  h

/-- Two runs in a row end in ways that are allowed if both do. -/
theorem bind {r : Run α} {next : α → Run β} (hr : r.Within abort)
    (hnext : ∀ a, (next a).Within abort) : (r >>= next).Within abort :=
  Ensures.bind hr fun a _ => hnext a

/-- A run that goes on after a success stops only as its two parts may. -/
theorem andThen {r : Run (Outcome α)} {next : α → Cursor → Run (Outcome β)}
    (hr : r.Within abort) (hnext : ∀ a rest, (next a rest).Within abort) :
    (r.andThen next).Within abort := by
  refine hr.bind ?_
  rintro (⟨a, rest⟩ | e)
  · exact hnext a rest
  · exact trivial

/-- Changing a failure turns it into another failure, never into a fault. -/
theorem mapFailure {r : Run (Outcome α)} (change : Failure → Failure) (hr : r.Within abort) :
    (r.mapFailure change).Within abort :=
  hr.bind fun _ => trivial

/-- A loop may also run out of fuel. -/
theorem loop {step : σ → Run (σ ⊕ α)} (hfuel : abort none) (hstep : ∀ s, (step s).Within abort)
    (n : Nat) (s : σ) : (Run.loop step n s).Within abort := by
  refine Ensures.loop (I := fun _ _ => True) (fun _ _ => hfuel) ?_ trivial
  intro n s _
  refine (hstep s).imp ?_
  rintro (s' | a) _
  · exact trivial
  · exact trivial

end Run.Within

/-! ## Parsers -/

/-- Wherever it is run and with whatever fuel, the parser ends in ways that are allowed. -/
def Parser.Within (p : Parser α) (abort : Option Fault → Prop) : Prop :=
  ∀ n c, (p n c).Within abort

namespace Parser.Within

variable {p : Parser α} {q : Parser β}

/-- A change of the value that is total adds no way of stopping. -/
theorem map (f : α → β) (hp : p.Within abort) : (p.map f).Within abort :=
  fun n c => (hp n c).andThen fun _ _ => trivial

/-- A change ends in ways that are allowed if its faults are. -/
theorem mapChecked {f : α → Except Fault β} (hp : p.Within abort)
    (hf : ∀ a e, f a = .error e → abort (some e)) : (p.mapChecked f).Within abort :=
  fun n c => (hp n c).andThen fun a _ => (Run.Within.ofExcept (hf a)).bind fun _ => trivial

theorem seq2 (hp : p.Within abort) (hq : q.Within abort) (combine : α → β → γ) :
    (Parser.seq2 p q combine).Within abort := by
  intro n c
  refine (hp n c).andThen ?_
  intro a rest
  exact ((hq n rest).mapFailure _).andThen fun _ _ => trivial

theorem seq3 {r : Parser γ} (hp : p.Within abort) (hq : q.Within abort) (hr : r.Within abort)
    (combine : α → β → γ → δ) : (Parser.seq3 p q r combine).Within abort := by
  intro n c
  refine (hp n c).andThen fun a afterFirst => ?_
  refine ((hq n afterFirst).mapFailure _).andThen fun b afterSecond => ?_
  exact ((hr n afterSecond).mapFailure _).andThen fun _ _ => trivial

/-- A repetition may run out of fuel of itself, and for the rest stops only as its parser may. -/
theorem repeatFrom (hfuel : abort none) (hp : p.Within abort) (past : List α) :
    (Parser.repeatFrom p past).Within abort := by
  intro n c
  refine .loop hfuel ?_ n (past, c)
  intro state
  refine (hp n state.2).bind ?_
  rintro (⟨a, rest⟩ | e)
  · dsimp only
    split <;> exact trivial
  · dsimp only
    split <;> exact trivial

theorem many1 (hfuel : abort none) (hp : p.Within abort) : (Parser.many1 p).Within abort := by
  intro n c
  refine (hp n c).andThen ?_
  intro a rest
  split
  · exact trivial
  · exact repeatFrom hfuel hp [a] n rest

/-- A chain ends in ways that are allowed if its operands and operators do, and if so does taking them in. -/
theorem chain (hfuel : abort none) (hp : p.Within abort) (hq : q.Within abort) (start : α → σ)
    {take : σ → β → α → Except Fault σ} (htake : ∀ s b a e, take s b a = .error e → abort (some e)) :
    (Parser.chain p q start take).Within abort := by
  intro n c
  refine (hp n c).andThen ?_
  intro first rest
  refine .loop hfuel ?_ n (start first, rest)
  intro state
  refine (hq n state.2).bind ?_
  rintro (⟨b, afterOperator⟩ | e)
  · refine ((hp n afterOperator).mapFailure Failure.commit).bind ?_
    rintro (⟨a, rest⟩ | e)
    · exact (Run.Within.ofExcept (htake state.1 b a)).bind fun _ => trivial
    · exact trivial
  · dsimp only
    split <;> exact trivial

/-- Reading the operands and operators of a chain stops only as reading one of them may, or for want of
fuel. -/
theorem operands (hfuel : abort none) (hp : p.Within abort) (hq : q.Within abort) :
    (Parser.operands p q).Within abort := by
  have htake : ∀ state b a e, takePair (α := α) (β := β) state b a = .error e → abort (some e) := by
    simp [takePair]
  exact (chain hfuel hp hq _ htake).map _

theorem choiceAfter {ps : List (Parser α)} (hps : ∀ p ∈ ps, p.Within abort) (past : Failure) :
    (Parser.choiceAfter past ps).Within abort := by
  induction ps generalizing past with
  | nil => exact fun _ _ => trivial
  | cons p ps ih =>
    intro n c
    refine (hps p List.mem_cons_self n c).bind ?_
    rintro (⟨a, rest⟩ | e)
    · exact trivial
    · dsimp only
      split
      · exact trivial
      · exact ih (fun q hq => hps q (List.mem_cons_of_mem _ hq)) (past.merge e) n c

end Parser.Within

/-! ## The law for grammars -/

/-- A run of a grammar ends in ways that are allowed, if running out of fuel and a name without a
rule are, if the functions in it raise only faults that are, and if so does what it refers to. -/
theorem Grammar.ends_within (hfuel : abort none) (hname : abort (some .ruleUndefined)) {g : Grammar}
    (hg : g.Everywhere (Raises fun e => abort (some e))) {call : String → Scope → Parser Value}
    {scope : Scope} (hcall : ∀ name inner, (call name inner).Within abort)
    (hscope : ∀ entry ∈ scope, entry.2.Within abort) : (g.denote call scope).Within abort := by
  induction g generalizing scope with
  | satisfy accepts description =>
    refine Parser.Within.map _ ?_
    intro n c
    unfold Parser.satisfy
    split
    · split <;> exact trivial
    · exact trivial
  | text expected =>
    refine Parser.Within.map _ ?_
    intro n c
    unfold Parser.text
    split <;> exact trivial
  | endOfInput =>
    refine Parser.Within.map _ ?_
    intro n c
    unfold Parser.endOfInput
    split <;> exact trivial
  | pure value => exact fun _ _ => trivial
  | custom parse => exact fun n c => .ofExcept (hg.here c)
  | map body change ih => exact (ih (hg.part (by simp)) hscope).mapChecked hg.here
  | filter body accepts description ih =>
    intro n c
    refine (ih (hg.part (by simp)) hscope n c).andThen ?_
    intro v rest
    refine (Run.Within.ofExcept (hg.here v)).bind ?_
    intro accepted
    split <;> exact trivial
  | bind first captured next ihFirst ihNext =>
    intro n c
    refine (ihFirst (hg.part (by simp)) hscope n c).andThen ?_
    intro v rest
    refine Run.Within.mapFailure _ ?_
    change (denoteMade call (next v) scope n rest).Within abort
    -- either there is nothing to go on with, or a grammar that is part of this one
    cases hv : next v with
    | error e => exact hg.here v e hv
    | ok g => exact (ihNext v g hv (hg.next hv) hscope n rest).prepend _
  | many body ih => exact (Parser.Within.repeatFrom hfuel (ih (hg.part (by simp)) hscope) []).map _
  | many1 body ih => exact (Parser.Within.many1 hfuel (ih (hg.part (by simp)) hscope)).map _
  | or first second ihFirst ihSecond =>
    intro n c
    refine (ihFirst (hg.part (by simp)) hscope n c).bind ?_
    rintro (⟨v, rest⟩ | e)
    · exact trivial
    · dsimp only
      split
      · exact trivial
      · exact (ihSecond (hg.part (by simp)) hscope n c).mapFailure _
  | choice count alternatives ih =>
    refine Parser.Within.choiceAfter ?_ Failure.empty
    intro p hp
    rcases List.mem_ofFn.1 hp with ⟨i, rfl⟩
    exact ih i (hg.part (by simp)) hscope
  | attempt body ih => exact fun n c => (ih (hg.part (by simp)) hscope n c).mapFailure _
  | seq2 first second combine ihFirst ihSecond =>
    have hboth := (ihFirst (hg.part (by simp)) hscope).seq2 (ihSecond (hg.part (by simp)) hscope)
      Prod.mk
    exact hboth.mapChecked fun (v, w) => hg.here v w
  | seq3 first second third combine ihFirst ihSecond ihThird =>
    have hall := (ihFirst (hg.part (by simp)) hscope).seq3 (ihSecond (hg.part (by simp)) hscope)
      (ihThird (hg.part (by simp)) hscope) fun a b d => (a, b, d)
    exact hall.mapChecked fun (u, v, w) => hg.here u v w
  | optional body ih =>
    refine Parser.Within.map _ ?_
    intro n c
    refine (ih (hg.part (by simp)) hscope n c).bind ?_
    rintro (⟨v, rest⟩ | e)
    · exact trivial
    · dsimp only
      split
      · exact trivial
      · exact trivial
  | not body description ih =>
    refine Parser.Within.map _ ?_
    intro n c
    refine (ih (hg.part (by simp)) hscope n c).bind ?_
    rintro (⟨v, rest⟩ | e)
    · exact trivial
    · exact trivial
  | sepBy item separator ihItem ihSeparator =>
    have htake : ∀ (past : List Value) (b a : Value) e, takeItem past b a = .error e → abort (some e) := by
      simp [takeItem]
    have hchain := Parser.Within.chain hfuel (ihItem (hg.part (by simp)) hscope)
      (ihSeparator (hg.part (by simp)) hscope) (fun first => [first]) htake
    exact (hchain.map _).map _
  | label body description ih =>
    exact fun n c => (ih (hg.part (by simp)) hscope n c).mapFailure _
  | position body ih =>
    refine Parser.Within.map _ ?_
    intro n c
    exact (ih (hg.part (by simp)) hscope n c).andThen fun _ _ => trivial
  | chainLeft operand operator fold ihOperand ihOperator =>
    exact Parser.Within.chain hfuel (ihOperand (hg.part (by simp)) hscope)
      (ihOperator (hg.part (by simp)) hscope) id fun left v right => hg.here v left right
  | chainRight operand operator fold ihOperand ihOperator =>
    have hoperands := Parser.Within.operands hfuel (ihOperand (hg.part (by simp)) hscope)
      (ihOperator (hg.part (by simp)) hscope)
    refine hoperands.mapChecked ?_
    rintro ⟨first, pairs⟩ e he
    have hfold : (Run.ofExcept (foldRightChecked fold first pairs)).Within abort :=
      ensures_foldRightChecked (V := fun _ _ _ => True) (fun _ => trivial)
        (fun left v _ _ right _ => Run.Within.ofExcept (hg.here v left right)) first pairs
    refine hfold.abort_of_fault ?_
    rw [show foldRightChecked fold first pairs = .error e from he]
    rfl
  | delayed body ih => exact fun n c => (ih (hg.part (by simp)) hscope n c).prepend _
  | call name => exact hcall name scope
  | recursive name body ih =>
    intro n
    induction n with
    | zero => exact fun _ => hfuel
    | succ n ihFuel =>
      intro c
      rw [denote_recursive_succ]
      refine ih (hg.part (by simp)) ?_ n c
      rintro ⟨bound, p⟩ hmem
      rcases List.mem_cons.1 hmem with heq | hmem
      · cases heq
        exact fun _ c => ihFuel c
      · exact hscope _ hmem
  | reference name =>
    intro n c
    change (scope.parser name n c).Within abort
    induction scope with
    | nil => exact hname
    | cons entry outer ihOuter =>
      by_cases hbound : entry.1 = name
      · subst hbound
        rw [Scope.parser_cons_self]
        exact hscope entry List.mem_cons_self n c
      · rw [Scope.parser_cons_of_ne hbound]
        exact ihOuter fun entry hmem => hscope entry (List.mem_cons_of_mem _ hmem)

end CommittedParsing
