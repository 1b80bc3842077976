import CommittedParsing.Proofs.ParsingExpressions.Semantics

/-!
# What is parsed is derived

Where every choice is made between attempts, whatever a parser comes to is a verdict that the rules
of parsing expressions give. Every alternative, every round of a repetition and every option is an
attempt, so none of them can end the whole with a committed failure; commits that sequences, bindings
and filters make are cleared by the attempt around them, and elsewhere nothing looks at them.

Main statements:
* `Grammar.parsed` — the law for one grammar, from the law for what it refers to;
* `System.parsed` — the law for every grammar of a system of rules.
-/

namespace CommittedParsing

open CommittedParsing.Parser Run Outcome

/-- The condition on outcomes: the grammar has that verdict. -/
def Outcome.IsParsed (s : System) (names : Names) (g : Grammar) (c : Cursor) :
    Outcome Value → Prop :=
  Meets (fun v rest => Parses s names g c (some (v, rest))) fun _ => Parses s names g c none

/-- The parsers in scope come to verdicts of the names they are bound to. -/
inductive Scope.IsParsed (s : System) : Names → Scope → Prop where
  | nil : IsParsed s [] []
  | cons {name : String} {referent : Referent} {names : Names} {p : Parser Value} {scope : Scope} :
      (∀ n c, (p n c).Ensures anyAbort
        (Outcome.IsParsed s ((name, referent) :: names) (.reference name) c)) →
      IsParsed s names scope → IsParsed s ((name, referent) :: names) ((name, p) :: scope)

/-- A library whose calls come to verdicts of what they call. -/
def CallsParsed (s : System) (call : String → Scope → Parser Value) : Prop :=
  ∀ name names scope, Scope.IsParsed s names scope →
    ∀ n c, (call name scope n c).Ensures anyAbort (Outcome.IsParsed s names (.call name) c)

variable {s : System} {names : Names} {n : Nat} {c : Cursor}

/-! ## Names -/

/-- What a name parses is derived from a reference to it. -/
theorem Scope.IsParsed.parser {scope : Scope} (h : Scope.IsParsed s names scope) (name : String) :
    (scope.parser name n c).Ensures anyAbort (Outcome.IsParsed s names (.reference name) c) := by
  induction h with
  | nil => exact trivial
  | @cons bound referent names p scope hp _ ih =>
    by_cases hname : bound = name
    · subst hname
      rw [Scope.parser_cons_self]
      exact hp n c
    · rw [Scope.parser_cons_of_ne hname]
      exact ih.mono (fun _ _ h => .reference_outer hname h) fun _ h => .reference_outer hname h

/-- The names that a definition binds parse what the rules parse, and nothing where a rule is gone. -/
theorem Scope.IsParsed.ofBindings {family : Target → Parser Value}
    (h : ∀ handle d, s.store.resolve handle = .ok d → ∀ n c, (family (.rule handle) n c).Ensures
      anyAbort (Outcome.IsParsed s (Names.ofBindings d.bindings) d.body c))
    (hfault : ∀ handle e, s.store.resolve handle = .error e → ∀ n c,
      (family (.rule handle) n c).Ensures anyAbort fun _ => False)
    (bindings : List (String × Handle)) :
    Scope.IsParsed s (Names.ofBindings bindings) (System.scopeOf family bindings) := by
  induction bindings with
  | nil => exact .nil
  | cons binding bindings ih =>
    rcases binding with ⟨name, handle⟩
    refine .cons ?_ ih
    intro n c
    cases hresolve : s.store.resolve handle with
    | error e => exact (hfault handle e hresolve n c).imp fun _ h => h.elim
    | ok d =>
      exact (h handle d hresolve n c).mono (fun _ _ h => .reference_stored hresolve h)
        fun _ h => .reference_stored hresolve h

/-! ## Parts -/

section Parts

variable {call : String → Scope → Parser Value} {scope : Scope} {first second third body : Grammar}

/-- Wherever it is run, with any fuel, the parser of a grammar comes to verdicts of the grammar. -/
def Grammar.IsParsed (s : System) (call : String → Scope → Parser Value) (names : Names)
    (scope : Scope) (g : Grammar) : Prop :=
  ∀ n c, (g.denote call scope n c).Ensures anyAbort (Outcome.IsParsed s names g c)

namespace Grammar.IsParsed

/-- A sequence of two is derived from what both parts parse. -/
theorem seq2 (hfirst : first.IsParsed s call names scope)
    (hsecond : second.IsParsed s call names scope)
    (combine : Value → Value → Except Fault Value) :
    (Grammar.seq2 first second combine).IsParsed s call names scope := by
  intro n c
  -- of the two values it is known that they belong to a parse of each, one after the other
  have hboth : (Parser.and (first.denote call scope) (second.denote call scope) n c).Ensures anyAbort
      (Meets (fun read rest => ∃ middle, Parses s names first c (some (read.1, middle)) ∧
        Parses s names second middle (some (read.2, rest)))
        fun _ => Parses s names (.seq2 first second combine) c none) := by
    refine ensures_seq2 (hfirst n c) (fun _ h => .seq2_none h) ?_
    intro v middle hv
    exact (hsecond n middle).mono (fun _ _ hw => ⟨middle, hv, hw⟩) fun _ h => .seq2_second_none hv h
  refine ensures_mapChecked hboth ?_
  rintro ⟨v, w⟩ rest ⟨middle, hv, hw⟩
  exact .ofExcept_anyAbort fun joined hjoined => .seq2 hv hw hjoined

theorem seq3 (hfirst : first.IsParsed s call names scope)
    (hsecond : second.IsParsed s call names scope) (hthird : third.IsParsed s call names scope)
    (combine : Value → Value → Value → Except Fault Value) :
    (Grammar.seq3 first second third combine).IsParsed s call names scope := by
  intro n c
  have hall : (Parser.seq3 (first.denote call scope) (second.denote call scope)
      (third.denote call scope) (fun v w x => (v, w, x)) n c).Ensures anyAbort
      (Meets (fun read rest => ∃ afterFirst afterSecond,
        Parses s names first c (some (read.1, afterFirst)) ∧
          Parses s names second afterFirst (some (read.2.1, afterSecond)) ∧
          Parses s names third afterSecond (some (read.2.2, rest)))
        fun _ => Parses s names (.seq3 first second third combine) c none) := by
    refine ensures_seq3 (hfirst n c) (fun _ h => .seq3_none h) ?_
    intro v afterFirst hv
    refine (hsecond n afterFirst).mono ?_ fun _ h => .seq3_second_none hv h
    intro w afterSecond hw
    exact (hthird n afterSecond).mono (fun _ _ hx => ⟨afterFirst, afterSecond, hv, hw, hx⟩)
      fun _ h => .seq3_third_none hv hw h
  refine ensures_mapChecked hall ?_
  rintro ⟨v, w, x⟩ rest ⟨afterFirst, afterSecond, hv, hw, hx⟩
  exact .ofExcept_anyAbort fun joined hjoined => .seq3 hv hw hx hjoined

theorem text (expected : String) : (Grammar.text expected).IsParsed s call names scope := by
  intro n c
  have htext : (Parser.text expected n c).Ensures anyAbort
      (Meets (fun w rest => Parses s names (.text expected) c (some (.string w, rest)))
        fun _ => Parses s names (.text expected) c none) := by
    unfold Parser.text
    split
    next rest hrest => exact .text (dropPrefix?_eq_some_iff.1 hrest)
    next hnone =>
      refine .text_none ?_
      intro rest hrest
      rw [dropPrefix?_eq_some_iff.2 hrest] at hnone
      cases hnone
  exact ensures_map htext fun _ _ h => h

/-- Where the body is an attempt, what has been found so far and what a repetition yields from here
on make up the whole. -/
theorem repeatFrom (hbody : body.IsParsed s call names scope) (hattempt : body.IsAttempt)
    {P : List Value → Cursor → Prop} {past : List Value}
    (hpast : ∀ items rest, Repeats s names body c items rest → P (past.reverse ++ items) rest) :
    (Parser.repeatFrom (body.denote call scope) past n c).Ensures anyAbort
      (Meets P fun _ => False) := by
  -- whatever is derived from here on, with the items so far in front, has `P`
  refine ensures_repeatFrom
    (I := fun _ past c => ∀ items rest, Repeats s names body c items rest →
      P (past.reverse ++ items) rest)
    (fun _ _ _ => trivial) ?_ hpast
  intro k past c hpast
  refine (hattempt.ensures (hbody n c)).mono ?_ ?_
  · intro v rest hv
    constructor
    · intro hsame
      simpa using hpast [v] rest (.still hv hsame)
    · intro hmoved items last hitems
      simpa using hpast (v :: items) last (.more hv hmoved hitems)
  · rintro e ⟨hnone, he⟩
    constructor
    · intro hconsumed
      rw [he] at hconsumed
      cases hconsumed
    · intro _
      simpa using hpast [] c (.stop hnone)

/-- A repetition of an attempt is derived from its items and from the failure that ends it. -/
theorem many (hbody : body.IsParsed s call names scope) (hattempt : body.IsAttempt) :
    (Grammar.many body).IsParsed s call names scope := by
  intro n c
  have hitems : (Parser.many (body.denote call scope) n c).Ensures anyAbort
      (Meets (fun items rest => Repeats s names body c items rest) fun _ => False) :=
    hbody.repeatFrom hattempt fun _ _ h => h
  exact ensures_map (hitems.mono (fun _ _ h => .many h) fun _ h => h.elim) fun _ _ h => h

theorem many1 (hbody : body.IsParsed s call names scope) (hattempt : body.IsAttempt) :
    (Grammar.many1 body).IsParsed s call names scope := by
  intro n c
  have hitems : (Parser.many1 (body.denote call scope) n c).Ensures anyAbort
      (Meets (fun items rest => Parses s names (.many1 body) c (some (.list items, rest)))
        fun _ => Parses s names (.many1 body) c none) := by
    refine ensures_many1 (hbody n c) (fun _ h => .many1_none h) ?_ ?_
    · intro v rest hv hsame
      exact .many1 (.still hv hsame)
    · intro v middle hv hmoved
      refine (hbody.repeatFrom hattempt ?_).mono (fun _ _ h => h) fun _ h => h.elim
      intro items rest hitems
      exact .many1 (.more hv hmoved hitems)
  exact ensures_map hitems fun _ _ h => h

/-- Alternatives before the one that succeeds, or all of them, have failed at the same place. -/
theorem choice {count : Nat} {alternatives : Fin count → Grammar}
    (halternatives : ∀ i, (alternatives i).IsParsed s call names scope)
    (hattempts : ∀ i, (alternatives i).IsAttempt) :
    (Grammar.choice count alternatives).IsParsed s call names scope := by
  intro n c
  refine ensures_choice (F := fun i => Parses s names (alternatives i) c none) ?_ ?_ _
  · intro i hbefore
    refine ((hattempts i).ensures (halternatives i n c)).mono ?_ fun _ h => h
    exact fun _ _ h => .choice i hbefore h
  · exact fun hnone _ => .choice_none hnone

end Grammar.IsParsed

end Parts

/-! ## The law for grammars -/

/-- A grammar that backtracks comes to its verdicts if what it refers to does. -/
theorem Grammar.parsed {g : Grammar} (hg : g.Everywhere Backtracks)
    {call : String → Scope → Parser Value} (hcall : CallsParsed s call) {scope : Scope}
    (hscope : Scope.IsParsed s names scope) : g.IsParsed s call names scope := by
  induction g generalizing names scope with
  | satisfy accepts description =>
    intro n c
    have hchar : (Parser.satisfy accepts description n c).Ensures anyAbort
        (Meets (fun ch rest => Parses s names (.satisfy accepts description) c
          (some (.char ch, rest))) fun _ => Parses s names (.satisfy accepts description) c none) := by
      unfold Parser.satisfy
      split
      next ch hvalue =>
        split
        next haccepts => exact .satisfy hvalue haccepts
        next haccepts =>
          refine .satisfy_none ?_
          intro ch' hvalue'
          rw [hvalue] at hvalue'
          cases hvalue'
          exact Bool.eq_false_iff.2 haccepts
      next hnone =>
        refine .satisfy_none ?_
        intro ch hvalue
        rw [hnone] at hvalue
        cases hvalue
    exact ensures_map hchar fun _ _ h => h
  | text expected => exact .text expected
  | endOfInput =>
    intro n c
    have hend : (Parser.endOfInput n c).Ensures anyAbort
        (Meets (fun _ rest => Parses s names .endOfInput c (some (.unit, rest)))
          fun _ => Parses s names .endOfInput c none) := by
      unfold Parser.endOfInput
      split
      next hend => exact .endOfInput hend
      next hend => exact .endOfInput_none (Bool.eq_false_iff.2 hend)
    exact ensures_map hend fun _ _ h => h
  | pure v => exact fun _ _ => .pure
  | custom parse => exact hg.here.elim
  | map body change ih =>
    intro n c
    refine (ih (hg.part (by simp)) hscope n c).andThen ?_ fun _ h => .map_none h
    intro v rest hv
    cases hchange : change v with
    | error e => exact trivial
    | ok w => exact .map hv hchange
  | filter body accepts description ih =>
    intro n c
    refine (ih (hg.part (by simp)) hscope n c).andThen ?_ fun _ h => .filter_none h
    intro v rest hv
    cases haccepts : accepts v with
    | error e => exact trivial
    | ok accepted =>
      cases accepted with
      | true => exact .filter hv haccepts
      | false => exact .filter_rejected hv haccepts
  | bind first captured next ihFirst ihNext =>
    intro n c
    refine ensures_bind (ihFirst (hg.part (by simp)) hscope n c) (fun _ h => .bind_none h) ?_
    intro v rest hv
    cases hnext : next v with
    | error e =>
      rw [denoteMade]
      exact trivial
    | ok g =>
      rw [denoteMade]
      refine Ensures.prepend _ ((ihNext v g hnext (hg.next hnext) hscope n rest).mono ?_ ?_)
      · exact fun _ _ h => .bind hv hnext h
      · exact fun _ h => .bind hv hnext h
  | many body ih => exact (ih (hg.part (by simp)) hscope).many hg.here
  | many1 body ih => exact (ih (hg.part (by simp)) hscope).many1 hg.here
  | or first second ihFirst ihSecond =>
    intro n c
    rcases hg.here with ⟨hattempt, _⟩
    have hfirst : (first.denote call scope n c).Ensures anyAbort
        (Meets (fun v rest => Parses s names (.or first second) c (some (v, rest)))
          fun e => Parses s names first c none ∧ e.consumed = false) :=
      (hattempt.ensures (ihFirst (hg.part (by simp)) hscope n c)).mono (fun _ _ h => .or h)
        fun _ h => h
    refine ensures_or hfirst ?_ ?_
    · rintro e ⟨_, he⟩ hconsumed
      rw [he] at hconsumed
      cases hconsumed
    · rintro e ⟨hnone, _⟩ _
      exact (ihSecond (hg.part (by simp)) hscope n c).mono (fun _ _ h => .or_second hnone h)
        fun _ h => .or_second hnone h
  | choice count alternatives ih =>
    exact IsParsed.choice (fun i => ih i (hg.part (by simp)) hscope) hg.here
  | attempt body ih =>
    intro n c
    refine ensures_attempt ((ih (hg.part (by simp)) hscope n c).mono ?_ fun _ h => h) ?_
    · exact fun _ _ h => .attempt h
    · exact fun _ h => .attempt h
  | seq2 first second combine ihFirst ihSecond =>
    exact (ihFirst (hg.part (by simp)) hscope).seq2 (ihSecond (hg.part (by simp)) hscope) combine
  | seq3 first second third combine ihFirst ihSecond ihThird =>
    exact (ihFirst (hg.part (by simp)) hscope).seq3 (ihSecond (hg.part (by simp)) hscope)
      (ihThird (hg.part (by simp)) hscope) combine
  | optional body ih =>
    intro n c
    have hbody := hg.here.ensures (ih (hg.part (by simp)) hscope n c)
    have hoption : (Parser.optional (body.denote call scope) n c).Ensures anyAbort
        (Meets (fun v rest => Parses s names (.optional body) c (some (Value.ofOption v, rest)))
          fun _ => Parses s names (.optional body) c none) := by
      refine hbody.bind ?_
      rintro (⟨v, rest⟩ | e) h
      · exact .optional h
      · rcases h with ⟨hnone, he⟩
        simp only [he]
        exact .optional_none hnone
    exact ensures_map hoption fun _ _ h => h
  | not body description ih =>
    intro n c
    have hnot : (Parser.not description (body.denote call scope) n c).Ensures anyAbort
        (Meets (fun _ rest => Parses s names (.not body description) c (some (.unit, rest)))
          fun _ => Parses s names (.not body description) c none) := by
      refine (ih (hg.part (by simp)) hscope n c).bind ?_
      rintro (⟨v, rest⟩ | e) h
      · exact .not_none h
      · exact .not h
    exact ensures_map hnot fun _ _ h => h
  | sepBy item separator => exact hg.here.elim
  | label body description ih =>
    intro n c
    refine (ih (hg.part (by simp)) hscope n c).bind ?_
    rintro (⟨v, rest⟩ | e) h
    · exact .label h
    · exact .label h
  | position body ih =>
    intro n c
    have hspan : (Parser.position (body.denote call scope) n c).Ensures anyAbort
        (Meets (fun v rest => Parses s names (.position body) c (some (Value.withSpan v, rest)))
          fun _ => Parses s names (.position body) c none) :=
      (ih (hg.part (by simp)) hscope n c).andThen (fun _ _ h => .position h)
        fun _ h => .position_none h
    exact ensures_map hspan fun _ _ h => h
  | chainLeft operand operator fold => exact hg.here.elim
  | chainRight operand operator fold => exact hg.here.elim
  | delayed body ih =>
    intro n c
    refine Ensures.prepend _ ((ih (hg.part (by simp)) hscope n c).mono ?_ ?_)
    · exact fun _ _ h => .delayed h
    · exact fun _ h => .delayed h
  | call name => exact hcall name names scope hscope
  | recursive name body ih =>
    -- by the fuel that is left: the rule is run in a scope with itself, with less of it
    have hrule : ∀ n c, ((Grammar.recursive name body).denote call scope n c).Ensures anyAbort
        (Outcome.IsParsed s ((name, .tied body) :: names) body c) := by
      intro n
      induction n with
      | zero => exact fun _ => trivial
      | succ n ihFuel =>
        intro c
        rw [denote_recursive_succ]
        refine ih (hg.part (by simp)) (.cons ?_ hscope) n c
        intro _ c'
        exact (ihFuel c').mono (fun _ _ h => .reference_tied h) fun _ h => .reference_tied h
    intro n c
    exact (hrule n c).mono (fun _ _ h => .recursive h) fun _ h => .recursive h
  | reference name => exact fun n c => hscope.parser name

/-! ## Systems -/

/-- A rule that does not resolve parses nothing, it faults. -/
theorem System.rule_faults {handle : Handle} {e : Fault} (he : s.store.resolve handle = .error e)
    (n : Nat) (c : Cursor) : (s.target (.rule handle) n c).Ensures anyAbort fun _ => False := by
  cases n with
  | zero => exact trivial
  | succ n =>
    have hfault : s.target (.rule handle) (n + 1) c = Run.fault e := System.rule_eq_fault he n c
    rw [hfault]
    exact trivial

/-- Rules come to verdicts of their definitions, and calls to verdicts of what they call. -/
theorem System.targets_parsed (hs : s.Everywhere Grammar.Backtracks) (n : Nat) :
    (∀ handle d, s.store.resolve handle = .ok d → ∀ c, (s.target (.rule handle) n c).Ensures
      anyAbort (Outcome.IsParsed s (Names.ofBindings d.bindings) d.body c)) ∧
    CallsParsed s fun name scope _ => s.target (.call name scope) n := by
  -- on the fuel, for rules and calls together
  induction n with
  | zero => exact ⟨fun _ _ _ _ => trivial, fun _ _ _ _ _ _ => trivial⟩
  | succ n ih =>
    rcases ih with ⟨hrules, hcalls⟩
    constructor
    · intro handle d hresolve c
      have hrun := System.rule_succ hresolve n c
      change s.target (.rule handle) (n + 1) c = _ at hrun
      rw [hrun]
      have hbody := hs.rules _ d (Store.resolve_eq_ok_iff.1 hresolve)
      refine Grammar.parsed hbody hcalls (Scope.IsParsed.ofBindings ?_ ?_ d.bindings) n c
      · exact fun handle d hresolve _ => hrules handle d hresolve
      · exact fun handle e he _ => System.rule_faults he n
    · intro name names scope hscope _ c
      change (s.target (.call name scope) (n + 1) c).Ensures _ _
      cases hlookup : s.library.lookup name with
      | none =>
        rw [System.call_eq_fault hlookup]
        exact trivial
      | some body =>
        have hbody := hs.library name body hlookup
        rw [System.call_succ hlookup]
        refine ((Grammar.parsed hbody hcalls hscope n c).mono ?_ ?_).prepend _
        · exact fun _ _ h => .call hlookup h
        · exact fun _ h => .call hlookup h

/-- Where every grammar of a system backtracks, whatever a parser of it comes to is a verdict of its
grammar. -/
theorem System.parsed (hs : s.Everywhere Grammar.Backtracks) {d : Definition}
    (hd : d.body.Everywhere Grammar.Backtracks) (n : Nat) (c : Cursor) :
    (s.parser d n c).Ensures anyAbort
      (Outcome.IsParsed s (Names.ofBindings d.bindings) d.body c) := by
  refine Grammar.parsed hd ?_ (Scope.IsParsed.ofBindings ?_ ?_ d.bindings) n c
  · exact fun name names scope hscope n c =>
      (System.targets_parsed hs n).2 name names scope hscope n c
  · exact fun handle d hresolve n => (System.targets_parsed hs n).1 handle d hresolve
  · exact fun handle e he n => System.rule_faults he n

end CommittedParsing
