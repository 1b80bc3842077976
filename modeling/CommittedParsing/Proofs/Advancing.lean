import CommittedParsing.Grammar.Forms
import CommittedParsing.Proofs.Comparison
import CommittedParsing.Proofs.Supply

/-!
# Where parsers go

A parser that succeeds has read on from the cursor at which it began: it stays in its source, its
cursor stands between two characters, and it never goes back. Of some grammars it can be read off
that their successes go on by at least one character; repetitions and recursion rest on these.

Main statements:
* `Grammar.reads_on` — the law for one grammar, from the law for what its names stand for;
* `System.reads_on`, `Supply.reads_on` — the law for every grammar of a system, and with any supply;
* `System.success_moves_forward` — what a caller sees of the cursor after a success.
-/

namespace CommittedParsing

open CommittedParsing.Parser Run Outcome Text

/-! ## Grammars whose successes advance -/

/-- The grammar is not a function of its own. -/
def Grammar.IsCombined : Grammar → Prop
  | custom _ => False
  | _ => True

/-- A check that the successes of a grammar advance. It errs on the safe side: what it accepts does
advance. -/
inductive Advances (s : System) : Names → Grammar → Prop where
  | satisfy : Advances s names (.satisfy accepts description)
  | text : expected.toList ≠ [] → Advances s names (.text expected)
  | map : Advances s names body → Advances s names (.map body change)
  | filter : Advances s names body → Advances s names (.filter body accepts description)
  | bind_first : Advances s names first → Advances s names (.bind first captured next)
  /-- Whatever the first grammar yields, what the binder goes on with advances. -/
  | bind_next {next : Value → Except Fault Grammar} :
      (∀ v g, next v = .ok g → Advances s names g) → Advances s names (.bind first captured next)
  | many1 : Advances s names body → Advances s names (.many1 body)
  | or : Advances s names first → Advances s names second → Advances s names (.or first second)
  | choice {alternatives : Fin count → Grammar} : (∀ i, Advances s names (alternatives i)) →
      Advances s names (.choice count alternatives)
  | attempt : Advances s names body → Advances s names (.attempt body)
  | seq2_first : Advances s names first → Advances s names (.seq2 first second combine)
  | seq2_second : Advances s names second → Advances s names (.seq2 first second combine)
  | seq3_first : Advances s names first → Advances s names (.seq3 first second third combine)
  | seq3_second : Advances s names second → Advances s names (.seq3 first second third combine)
  | seq3_third : Advances s names third → Advances s names (.seq3 first second third combine)
  | sepBy : Advances s names item → Advances s names (.sepBy item separator)
  | label : Advances s names body → Advances s names (.label body description)
  | position : Advances s names body → Advances s names (.position body)
  | chainLeft : Advances s names operand → Advances s names (.chainLeft operand operator fold)
  | chainRight : Advances s names operand → Advances s names (.chainRight operand operator fold)
  | delayed : Advances s names body → Advances s names (.delayed body)
  | recursive : Advances s ((name, .tied body) :: names) body →
      Advances s names (.recursive name body)
  | call : Enters s ⟨names, .call name⟩ rule ⟨names', body⟩ → Advances s names' body →
      Advances s names (.call name)
  | reference : Enters s ⟨names, .reference name⟩ rule ⟨names', body⟩ → Advances s names' body →
      Advances s names (.reference name)

/-! ## The condition -/

/-- The condition on outcomes: a success has read on from the cursor, and something if the parser
advances. -/
def Outcome.ReadsOn {α : Type} (advances : Prop) (c : Cursor) : Outcome α → Prop :=
  Meets (fun _ rest => ∃ cs, c.Reads cs rest ∧ (advances → cs ≠ [])) fun _ => True

/-- Wherever it is run, with any fuel, the parser meets the condition. -/
def Parser.ReadsOn {α : Type} (advances : Prop) (p : Parser α) : Prop :=
  ∀ n c, (p n c).Ensures anyAbort (Outcome.ReadsOn advances c)

variable {α β γ δ σ : Type} {A B C : Prop}

namespace Run

variable {r : Run (Outcome α)} {c : Cursor}

/-- To advance in more cases is to advance in fewer. -/
theorem readsOn_imp (hr : r.Ensures anyAbort (Outcome.ReadsOn A c)) (himp : B → A) :
    r.Ensures anyAbort (Outcome.ReadsOn B c) := by
  refine hr.mono ?_ fun _ h => h
  rintro a rest ⟨cs, hread, hcs⟩
  exact ⟨cs, hread, fun hB => hcs (himp hB)⟩

/-- A success on the spot does not advance. -/
theorem readsOn_succeed (a : α) (c : Cursor) :
    (succeed a c).Ensures anyAbort (Outcome.ReadsOn False c) :=
  Ensures.of_succeed ⟨[], .refl c, False.elim⟩

/-- Two steps in a row advance if one of them does. -/
theorem readsOn_andThen {next : α → Cursor → Run (Outcome β)}
    (hr : r.Ensures anyAbort (Outcome.ReadsOn A c))
    (hnext : ∀ a rest, (next a rest).Ensures anyAbort (Outcome.ReadsOn B rest)) :
    (r.andThen next).Ensures anyAbort (Outcome.ReadsOn (A ∨ B) c) := by
  refine hr.andThen ?_ fun _ h => h
  rintro a middle ⟨cs, hread, hcs⟩
  refine (hnext a middle).mono ?_ fun _ h => h
  rintro b rest ⟨ds, hread', hds⟩
  refine ⟨cs ++ ds, hread.trans hread', ?_⟩
  rintro (hA | hB)
  · simp [hcs hA]
  · simp [hds hB]

/-- A second step that only looks at the value of the first. -/
theorem readsOn_change {next : α → Cursor → Run (Outcome β)}
    (hr : r.Ensures anyAbort (Outcome.ReadsOn A c))
    (hnext : ∀ a rest, (next a rest).Ensures anyAbort (Outcome.ReadsOn False rest)) :
    (r.andThen next).Ensures anyAbort (Outcome.ReadsOn A c) :=
  readsOn_imp (readsOn_andThen hr hnext) Or.inl

/-- What becomes of failures does not matter. -/
theorem readsOn_mapFailure {change : Failure → Failure}
    (hr : r.Ensures anyAbort (Outcome.ReadsOn A c)) :
    (r.mapFailure change).Ensures anyAbort (Outcome.ReadsOn A c) :=
  hr.mapFailure fun _ h => h

end Run

/-! ## The combinators -/

namespace Parser.ReadsOn

variable {p : Parser α} {q : Parser β} {r : Parser γ}

/-- A parser that advances in more cases advances in fewer. -/
theorem imp (hp : p.ReadsOn A) (himp : B → A) : p.ReadsOn B :=
  fun n c => readsOn_imp (hp n c) himp

/-- Where a character is read, the cursor has moved by one. -/
theorem satisfy (accepts : Char → Bool) (description : String) :
    (Parser.satisfy accepts description).ReadsOn True := by
  intro n c
  refine ensures_satisfy ?_ trivial
  intro ch rest hrest _
  exact ⟨[ch], .skip hrest, fun _ => by simp⟩

/-- A text moves the cursor, unless it is empty. -/
theorem text (expected : String) : (Parser.text expected).ReadsOn (expected.toList ≠ []) := by
  intro n c
  refine ensures_text ?_ trivial
  intro rest hrest
  exact ⟨expected.toList, .skip hrest, id⟩

/-- The end of the input is noted where the cursor is. -/
theorem endOfInput : Parser.endOfInput.ReadsOn False :=
  fun _ c => ensures_endOfInput (fun _ => ⟨[], .refl c, False.elim⟩) trivial

theorem pure (a : α) : (Parser.pure a).ReadsOn False := fun _ c => readsOn_succeed a c

/-- A function of the value does not move the cursor. -/
theorem map (hp : p.ReadsOn A) (f : α → β) : (p.map f).ReadsOn A :=
  fun n c => readsOn_change (hp n c) fun _ _ => readsOn_succeed _ _

theorem position (hp : p.ReadsOn A) : (Parser.position p).ReadsOn A :=
  fun n c => readsOn_change (hp n c) fun _ _ => readsOn_succeed _ _

/-- Nor does a function that may hit a fault. -/
theorem mapChecked (hp : p.ReadsOn A) (f : α → Except Fault β) : (p.mapChecked f).ReadsOn A := by
  intro n c
  refine readsOn_change (hp n c) ?_
  intro a rest
  cases f a with
  | error e => exact trivial
  | ok b => exact readsOn_succeed b rest

/-- Nor does a test of the value. -/
theorem filterChecked (hp : p.ReadsOn A) (accepts : α → Except Fault Bool) (description : String) :
    (p.filterChecked accepts description).ReadsOn A :=
  fun n c => ensures_filterChecked (hp n c) (fun _ _ _ => .ofExcept_anyAbort fun _ _ => trivial) trivial

/-- A sequence advances if one of its parts does. -/
theorem seq2 (hp : p.ReadsOn A) (hq : q.ReadsOn B) (combine : α → β → γ) :
    (Parser.seq2 p q combine).ReadsOn (A ∨ B) := by
  intro n c
  refine readsOn_andThen (hp n c) ?_
  intro a middle
  exact readsOn_change (readsOn_mapFailure (hq n middle)) fun _ _ => readsOn_succeed _ _

theorem seq3 (hp : p.ReadsOn A) (hq : q.ReadsOn B) (hr : r.ReadsOn C) (combine : α → β → γ → δ) :
    (Parser.seq3 p q r combine).ReadsOn (A ∨ B ∨ C) := by
  intro n c
  refine readsOn_andThen (hp n c) ?_
  intro a afterFirst
  refine readsOn_andThen (readsOn_mapFailure (hq n afterFirst)) ?_
  intro b afterSecond
  exact readsOn_change (readsOn_mapFailure (hr n afterSecond)) fun _ _ => readsOn_succeed _ _

/-- An alternative advances if both ways do, since it is not known which one succeeds. -/
theorem or {q : Parser α} (hp : p.ReadsOn A) (hq : q.ReadsOn B) :
    (Parser.or p q).ReadsOn (A ∧ B) := by
  intro n c
  refine ensures_or (readsOn_imp (hp n c) And.left) (fun _ _ _ => trivial) ?_
  intro e _ _
  exact readsOn_imp (hq n c) And.right

/-- So does a choice of any length, whatever alternatives have failed before. -/
theorem choice {count : Nat} {ps : Fin count → Parser α} (hps : ∀ i, (ps i).ReadsOn A)
    (past : Failure) : (choiceAfter past (List.ofFn ps)).ReadsOn A := by
  intro n c
  have hall : ∀ p ∈ List.ofFn ps, (p n c).Ensures anyAbort (Outcome.ReadsOn A c) := by
    intro p hp
    rcases List.mem_ofFn.1 hp with ⟨i, rfl⟩
    exact hps i n c
  exact ensures_choiceAfter (G := fun _ => True) hall (fun _ _ _ _ _ => trivial)
    (fun _ _ _ _ _ => trivial) (fun _ _ => trivial) trivial

/-- What is optional may be missing, so it need not advance. -/
theorem optional (hp : p.ReadsOn A) : (Parser.optional p).ReadsOn False := by
  intro n c
  refine ensures_optional (readsOn_imp (hp n c) False.elim) (fun _ _ h => h) (fun _ h _ => h) ?_
  exact ⟨[], .refl c, False.elim⟩

/-- A negative lookahead comes back to where it began. -/
theorem not (hp : p.ReadsOn A) (description : String) :
    (Parser.not description p).ReadsOn False :=
  fun n c => ensures_not (hp n c) ⟨[], .refl c, False.elim⟩ trivial

/-- What the rounds so far have read is part of what the repetition reads. -/
theorem repeatFrom (hp : p.ReadsOn A) (past : List α) : (Parser.repeatFrom p past).ReadsOn False := by
  intro n c
  -- the invariant of the rounds: they have read something from the start, perhaps nothing
  refine ensures_repeatFrom (I := fun _ _ middle => ∃ cs, c.Reads cs middle) (fun _ _ _ => trivial) ?_
    ⟨[], .refl c⟩
  rintro k past middle ⟨cs, hread⟩
  refine (hp n middle).mono ?_ fun _ _ => ⟨fun _ => trivial, fun _ => ⟨cs, hread, False.elim⟩⟩
  rintro a rest ⟨ds, hread', _⟩
  have hboth := hread.trans hread'
  exact ⟨fun _ => ⟨_, hboth, False.elim⟩, fun _ => ⟨_, hboth⟩⟩

/-- One round or more advance if the first one does. -/
theorem many1 (hp : p.ReadsOn A) : (Parser.many1 p).ReadsOn A := by
  intro n c
  refine readsOn_change (hp n c) ?_
  intro a rest
  split
  · exact readsOn_succeed _ _
  · exact hp.repeatFrom [a] n rest

/-- The rounds behind the first operand may be none. -/
theorem chainFrom (hq : q.ReadsOn B) (hp : p.ReadsOn A) (take : σ → β → α → Except Fault σ) (s : σ) :
    (Parser.chainFrom q p take s).ReadsOn False := by
  intro n c
  refine ensures_chainFrom (I := fun _ _ middle => ∃ cs, c.Reads cs middle) (fun _ _ _ => trivial) ?_
    ⟨[], .refl c⟩
  rintro k s middle ⟨cs, hread⟩
  refine (hq n middle).mono ?_ fun _ _ => ⟨fun _ => trivial, fun _ => ⟨cs, hread, False.elim⟩⟩
  rintro b afterOperator ⟨ds, hread', _⟩
  refine (hp n afterOperator).mono ?_ fun _ h => h
  rintro a rest ⟨es, hread'', _⟩
  exact .ofExcept_anyAbort fun _ _ => ⟨_, (hread.trans hread').trans hread''⟩

/-- A chain advances if its first operand does. -/
theorem chain (hp : p.ReadsOn A) (hq : q.ReadsOn B) (start : α → σ)
    (take : σ → β → α → Except Fault σ) : (Parser.chain p q start take).ReadsOn A :=
  fun n c => readsOn_change (hp n c) fun a rest => chainFrom hq hp take (start a) n rest

end Parser.ReadsOn

/-! ## Names -/

/-- The parsers in scope read on, and those of names that stand for advancing rules advance. -/
inductive Scope.ReadsOn (s : System) : Names → Scope → Prop where
  | nil : ReadsOn s [] []
  | cons {name : String} {referent : Referent} {names : Names} {p : Parser Value} {scope : Scope} :
      p.ReadsOn (Advances s ((name, referent) :: names) (.reference name)) →
      ReadsOn s names scope → ReadsOn s ((name, referent) :: names) ((name, p) :: scope)

/-- Calls read on, and advance if what they call does. -/
def CallsReadOn (s : System) (call : String → Scope → Parser Value) : Prop :=
  ∀ name names scope, Scope.ReadsOn s names scope →
    (call name scope).ReadsOn (Advances s names (.call name))

variable {s : System} {names : Names}

/-- A reference past a rule of another name advances as it does outside of that rule. -/
theorem Advances.reference_of_outer {bound name : String} {referent : Referent}
    (hname : bound ≠ name) (h : Advances s ((bound, referent) :: names) (.reference name)) :
    Advances s names (.reference name) := by
  cases h with
  | reference henters hbody =>
    cases henters with
    | reference_tied => exact absurd rfl hname
    | reference_stored => exact absurd rfl hname
    | reference_outer _ henters => exact .reference henters hbody

/-- If a reference to a rule that is being tied advances, so does the body of the rule. -/
theorem Advances.body_of_tied {name : String} {body : Grammar}
    (h : Advances s ((name, .tied body) :: names) (.reference name)) :
    Advances s ((name, .tied body) :: names) body := by
  cases h with
  | reference henters hbody =>
    cases henters with
    | reference_tied => exact hbody
    | reference_outer hname _ => exact absurd rfl hname

/-- If a reference to a stored rule advances, the rule is defined and its body does. -/
theorem Advances.body_of_stored {name : String} {handle : Handle}
    (h : Advances s ((name, .stored handle) :: names) (.reference name)) :
    ∃ d, s.store.resolve handle = .ok d ∧ Advances s (Names.ofBindings d.bindings) d.body := by
  cases h with
  | reference henters hbody =>
    cases henters with
    | reference_stored hresolve => exact ⟨_, hresolve, hbody⟩
    | reference_outer hname _ => exact absurd rfl hname

/-- In a scope that reads on, the parser of each name advances if the reference does. -/
theorem Scope.ReadsOn.parser {scope : Scope} (h : Scope.ReadsOn s names scope) (name : String) :
    (scope.parser name).ReadsOn (Advances s names (.reference name)) := by
  induction h with
  | nil => exact fun _ _ => trivial
  | @cons bound referent names p scope hp _ ih =>
    by_cases hname : bound = name
    · subst hname
      rw [Scope.parser_cons_self]
      exact hp
    · rw [Scope.parser_cons_of_ne hname]
      exact ih.imp (Advances.reference_of_outer hname)

/-! ## The law for grammars -/

/-- A grammar reads on, and advances where the check accepts it, if what it refers to does. -/
theorem Grammar.reads_on {g : Grammar} (hg : g.Everywhere IsCombined)
    {call : String → Scope → Parser Value} (hcall : CallsReadOn s call) {scope : Scope}
    (hscope : Scope.ReadsOn s names scope) : (g.denote call scope).ReadsOn (Advances s names g) := by
  induction g generalizing names scope with
  | satisfy accepts description =>
    exact ((Parser.ReadsOn.satisfy _ _).map _).imp fun _ => trivial
  | text expected =>
    refine ((Parser.ReadsOn.text _).map _).imp ?_
    intro h
    cases h with
    | text hne => exact hne
  | endOfInput => exact (Parser.ReadsOn.endOfInput.map _).imp nofun
  | pure value => exact (Parser.ReadsOn.pure value).imp nofun
  | custom parse => exact hg.here.elim
  | map body change ih =>
    refine ((ih (hg.part (by simp)) hscope).mapChecked change).imp ?_
    intro h
    cases h with
    | map hadvances => exact hadvances
  | filter body accepts description ih =>
    refine ((ih (hg.part (by simp)) hscope).filterChecked accepts description).imp ?_
    intro h
    cases h with
    | filter hadvances => exact hadvances
  | bind first captured next ihFirst ihNext =>
    intro n c
    have hfirst := ihFirst (hg.part (by simp)) hscope n c
    -- of what the binder goes on with it is known that it advances if all that it may go on with does
    have hmade : ∀ v rest, (denoteMade call (next v) scope n rest).Ensures anyAbort
        (Outcome.ReadsOn (∀ v g, next v = .ok g → Advances s names g) rest) := by
      intro v rest
      cases hv : next v with
      | error e =>
        rw [denoteMade]
        exact trivial
      | ok g =>
        rw [denoteMade]
        exact readsOn_imp ((ihNext v g hv (hg.next hv) hscope n rest).prepend _) fun h => h v g hv
    refine readsOn_imp (readsOn_andThen hfirst fun v rest => readsOn_mapFailure (hmade v rest)) ?_
    intro h
    cases h with
    | bind_first hadvances => exact .inl hadvances
    | bind_next hadvances => exact .inr hadvances
  | many body ih =>
    exact (((ih (hg.part (by simp)) hscope).repeatFrom []).map _).imp nofun
  | many1 body ih =>
    refine ((ih (hg.part (by simp)) hscope).many1.map _).imp ?_
    intro h
    cases h with
    | many1 hadvances => exact hadvances
  | or first second ihFirst ihSecond =>
    have hfirst := ihFirst (hg.part (by simp)) hscope
    have hsecond := ihSecond (hg.part (by simp)) hscope
    refine (hfirst.or hsecond).imp ?_
    intro h
    cases h with
    | or hadvances hadvances' => exact ⟨hadvances, hadvances'⟩
  | choice count alternatives ih =>
    refine Parser.ReadsOn.choice ?_ Failure.empty
    intro i
    refine (ih i (hg.part (by simp)) hscope).imp ?_
    intro h
    cases h with
    | choice hadvances => exact hadvances i
  | attempt body ih =>
    intro n c
    refine readsOn_imp (readsOn_mapFailure (ih (hg.part (by simp)) hscope n c)) ?_
    intro h
    cases h with
    | attempt hadvances => exact hadvances
  | seq2 first second combine ihFirst ihSecond =>
    have hfirst := ihFirst (hg.part (by simp)) hscope
    have hsecond := ihSecond (hg.part (by simp)) hscope
    refine ((hfirst.seq2 hsecond _).mapChecked _).imp ?_
    intro h
    cases h with
    | seq2_first hadvances => exact .inl hadvances
    | seq2_second hadvances => exact .inr hadvances
  | seq3 first second third combine ihFirst ihSecond ihThird =>
    have hfirst := ihFirst (hg.part (by simp)) hscope
    have hsecond := ihSecond (hg.part (by simp)) hscope
    have hthird := ihThird (hg.part (by simp)) hscope
    refine ((hfirst.seq3 hsecond hthird _).mapChecked _).imp ?_
    intro h
    cases h with
    | seq3_first hadvances => exact .inl hadvances
    | seq3_second hadvances => exact .inr (.inl hadvances)
    | seq3_third hadvances => exact .inr (.inr hadvances)
  | optional body ih => exact ((ih (hg.part (by simp)) hscope).optional.map _).imp nofun
  | not body description ih =>
    exact (((ih (hg.part (by simp)) hscope).not description).map _).imp nofun
  | sepBy item separator ihItem ihSeparator =>
    have hitem := ihItem (hg.part (by simp)) hscope
    have hseparator := ihSeparator (hg.part (by simp)) hscope
    refine (((hitem.chain hseparator _ _).map _).map _).imp ?_
    intro h
    cases h with
    | sepBy hadvances => exact hadvances
  | label body description ih =>
    intro n c
    refine readsOn_imp (readsOn_mapFailure (ih (hg.part (by simp)) hscope n c)) ?_
    intro h
    cases h with
    | label hadvances => exact hadvances
  | position body ih =>
    refine ((ih (hg.part (by simp)) hscope).position.map _).imp ?_
    intro h
    cases h with
    | position hadvances => exact hadvances
  | chainLeft operand operator fold ihOperand ihOperator =>
    have hoperand := ihOperand (hg.part (by simp)) hscope
    have hoperator := ihOperator (hg.part (by simp)) hscope
    refine (hoperand.chain hoperator _ _).imp ?_
    intro h
    cases h with
    | chainLeft hadvances => exact hadvances
  | chainRight operand operator fold ihOperand ihOperator =>
    have hoperand := ihOperand (hg.part (by simp)) hscope
    have hoperator := ihOperator (hg.part (by simp)) hscope
    refine (((hoperand.chain hoperator _ _).map _).mapChecked _).imp ?_
    intro h
    cases h with
    | chainRight hadvances => exact hadvances
  | delayed body ih =>
    intro n c
    refine readsOn_imp ((ih (hg.part (by simp)) hscope n c).prepend _) ?_
    intro h
    cases h with
    | delayed hadvances => exact hadvances
  | call name => exact hcall name names scope hscope
  | recursive name body ih =>
    -- by the fuel that is left: the rule is run in a scope with itself, with less of it
    have hrule : ((Grammar.recursive name body).denote call scope).ReadsOn
        (Advances s ((name, .tied body) :: names) body) := by
      intro n
      induction n with
      | zero => exact fun _ => trivial
      | succ n ihFuel =>
        intro c
        rw [denote_recursive_succ]
        refine ih (hg.part (by simp)) (.cons ?_ hscope) n c
        intro _ c'
        exact readsOn_imp (ihFuel c') Advances.body_of_tied
    refine hrule.imp ?_
    intro h
    cases h with
    | recursive hadvances => exact hadvances
  | reference name => exact hscope.parser name

/-! ## Systems -/

/-- The scope of a definition reads on if the rules that its handles lead to do. -/
theorem Scope.ReadsOn.ofBindings {family : Target → Parser Value}
    (h : ∀ handle, (family (.rule handle)).ReadsOn
      (∃ d, s.store.resolve handle = .ok d ∧ Advances s (Names.ofBindings d.bindings) d.body))
    (bindings : List (String × Handle)) :
    Scope.ReadsOn s (Names.ofBindings bindings) (System.scopeOf family bindings) := by
  induction bindings with
  | nil => exact .nil
  | cons binding bindings ih =>
    rcases binding with ⟨name, handle⟩
    exact .cons ((h handle).imp Advances.body_of_stored) ih

/-- Rules read on as their definitions do, and calls as what they call does. -/
theorem System.targets_read_on (hs : s.Everywhere Grammar.IsCombined) (n : Nat) :
    (∀ handle c, (s.target (.rule handle) n c).Ensures anyAbort (Outcome.ReadsOn
      (∃ d, s.store.resolve handle = .ok d ∧ Advances s (Names.ofBindings d.bindings) d.body) c)) ∧
    CallsReadOn s fun name scope _ => s.target (.call name scope) n := by
  -- by the fuel: what a definition refers to is run with a unit less
  induction n with
  | zero => exact ⟨fun _ _ => trivial, fun _ _ _ _ _ _ => trivial⟩
  | succ n ih =>
    rcases ih with ⟨hrules, hcalls⟩
    constructor
    · intro handle c
      cases hresolve : s.store.resolve handle with
      | error e =>
        have hrun : s.target (.rule handle) (n + 1) c = Run.fault e := System.rule_eq_fault hresolve n c
        rw [hrun]
        exact trivial
      | ok d =>
        have hbody := hs.rules _ d (Store.resolve_eq_ok_iff.1 hresolve)
        have hscope : Scope.ReadsOn s (Names.ofBindings d.bindings)
            (System.scopeOf (fun t _ => s.target t n) d.bindings) :=
          .ofBindings (fun handle _ c => hrules handle c) d.bindings
        have hrun := System.rule_succ hresolve n c
        change s.target (.rule handle) (n + 1) c = _ at hrun
        rw [hrun]
        refine readsOn_imp (Grammar.reads_on hbody hcalls hscope n c) ?_
        rintro ⟨d', heq, hadvances⟩
        cases heq
        exact hadvances
    · intro name names scope hscope _ c
      change (s.target (.call name scope) (n + 1) c).Ensures _ _
      cases hlookup : s.library.lookup name with
      | none =>
        rw [System.call_eq_fault hlookup]
        exact trivial
      | some body =>
        have hbody := hs.library name body hlookup
        rw [System.call_succ hlookup]
        refine readsOn_imp ((Grammar.reads_on hbody hcalls hscope n c).prepend _) ?_
        intro h
        cases h with
        | call henters hadvances =>
          cases henters with
          | call hlookup' =>
            rw [hlookup] at hlookup'
            cases hlookup'
            exact hadvances

/-- Every rule of the system reads on, and advances if its definition does. -/
theorem System.rule_reads_on (hs : s.Everywhere Grammar.IsCombined) (handle : Handle) :
    (s.target (.rule handle)).ReadsOn
      (∃ d, s.store.resolve handle = .ok d ∧ Advances s (Names.ofBindings d.bindings) d.body) :=
  fun n c => (targets_read_on hs n).1 handle c

/-- And so does every grammar of the library in the scope of its call. -/
theorem System.call_reads_on (hs : s.Everywhere Grammar.IsCombined) :
    CallsReadOn s fun name scope => s.target (.call name scope) :=
  fun name names scope hscope n c => (targets_read_on hs n).2 name names scope hscope n c

/-- Where no grammar of a system is a function of its own, its parsers read on. -/
theorem System.reads_on (hs : s.Everywhere Grammar.IsCombined) {d : Definition}
    (hd : d.body.Everywhere Grammar.IsCombined) :
    (s.parser d).ReadsOn (Advances s (Names.ofBindings d.bindings) d.body) :=
  Grammar.reads_on hd (call_reads_on hs) (.ofBindings (rule_reads_on hs) d.bindings)

/-! ## Supplies -/

/-- A condition holds everywhere in the rules that the names stand for. -/
def Names.Everywhere (P : Grammar → Prop) (names : Names) : Prop :=
  ∀ name body, (name, Referent.tied body) ∈ names → body.Everywhere P

/-- What holds of all names that are in scope holds of the outer ones. -/
theorem Names.Everywhere.cons {P : Grammar → Prop} {name : String} {referent : Referent}
    (h : Names.Everywhere P ((name, referent) :: names)) : names.Everywhere P :=
  fun name body hmem => h name body (List.mem_cons_of_mem _ hmem)

/-- Calls that are supplied with fuel by the system read on. -/
theorem CallsSupplied.readOn {k : Nat} {call : String → Scope → Parser Value}
    (hs : s.Everywhere Grammar.IsCombined) (h : CallsSupplied s k call) : CallsReadOn s call := by
  intro name names scope hscope n c
  rcases h name scope n with ⟨m, _, hrun⟩
  rw [hrun]
  exact System.call_reads_on hs name names scope hscope m c

/-- Scopes that are supplied with fuel by the system read on. -/
theorem Scope.Supplied.readsOn {k : Nat} {scope : Scope} (hs : s.Everywhere Grammar.IsCombined)
    (hnames : names.Everywhere Grammar.IsCombined) (h : scope.Supplied s k names) :
    Scope.ReadsOn s names scope := by
  -- over the names in scope; what a recursive name stands for lies in the outer scope
  induction h with
  | nil => exact .nil
  | @tied name body names scope call m hcall hscope hm ih =>
    have houter := ih hnames.cons
    have hrule : (Grammar.recursive name body).Everywhere Grammar.IsCombined :=
      .intro trivial (by simpa using hnames name body List.mem_cons_self)
    refine .cons ?_ houter
    intro _ c
    refine readsOn_imp (Grammar.reads_on hrule (hcall.readOn hs) houter m c) ?_
    exact fun hadvances => .recursive hadvances.body_of_tied
  | @stored name handle names scope p hp hscope ih =>
    refine .cons ?_ (ih hnames.cons)
    intro n c
    rcases hp n with ⟨m, _, hrun⟩
    rw [hrun]
    exact readsOn_imp (System.rule_reads_on hs handle m c) Advances.body_of_stored

/-- With any supply a grammar reads on, and advances where the check accepts it. -/
theorem Supply.reads_on {k : Nat} (hs : s.Everywhere Grammar.IsCombined)
    (hnames : names.Everywhere Grammar.IsCombined) {g : Grammar}
    (hg : g.Everywhere Grammar.IsCombined) (supply : Supply s k names) (c : Cursor) :
    (supply.run g c).Ensures anyAbort (Outcome.ReadsOn (Advances s names g) c) :=
  Grammar.reads_on hg (supply.calls.readOn hs) (supply.names_bound.readsOn hs hnames) supply.fuel c

/-! ## What a caller sees -/

/-- The cursors that a caller comes by: those at a start, those a character further on, and those
after a success of a parser. -/
inductive Cursor.Reached : Cursor → Prop where
  | start (source : Source) : Reached (Cursor.start source)
  | next {c : Cursor} : Reached c → Reached c.next
  | parse {s : System} {d : Definition} {n : Nat} {c c' : Cursor} {v : Value} :
      s.Everywhere Grammar.IsCombined → d.body.Everywhere Grammar.IsCombined → Reached c →
      (s.parser d n c).ending = .value (.success v c') → Reached c'

/-- A cursor that was reached from the start by reading stands between two characters. -/
theorem Cursor.Reached.valid {c : Cursor} (h : c.Reached) : c.Valid := by
  induction h with
  | start source => exact valid_start source
  | next _ ih => exact ih.next
  | parse hs hd _ hsuccess ih =>
    rcases (System.reads_on hs hd _ _).post_of_value hsuccess with ⟨cs, hread, _⟩
    exact hread.valid ih

/-- Cutting the source of a valid cursor at its byte gives the text that is left there. -/
theorem Cursor.Valid.splitAtByte? {c : Cursor} (h : c.Valid) :
    ∃ before, Text.splitAtByte? c.position c.source.text = some (before, c.rest) := by
  rcases h with ⟨before, htext, hposition⟩
  refine ⟨before, ?_⟩
  rw [htext, ← hposition]
  exact splitAtByte?_byteLength before c.rest

/-- What has been read lies behind, as the comparison of cursors has it. -/
theorem Cursor.Reads.isAtMost {c d : Cursor} {cs : List Char} (h : c.Reads cs d) :
    c.isAtMost d = true := by
  have hsource : c.sameSource d = true := by simp [Cursor.sameSource, h.source_eq]
  have hle : c.position ≤ d.position := by
    rw [h.position_eq]
    exact Nat.le_add_right _ _
  simp only [Cursor.isAtMost, Cursor.isBefore, Cursor.compare?, hsource, if_true]
  rcases Nat.lt_or_eq_of_le hle with hlt | heq
  · simp [Nat.compare_eq_lt.2 hlt]
  · simp [Nat.compare_eq_eq.2 heq]

/-- From every cursor that a caller comes by, a success of a grammar without functions of its own ends
in the same source, between two characters, not before the start and not behind the end of the text:
what is cut off there is the unparsed text, its bytes are the ones that remain, and in the order of
cursors the start is at most the end. -/
theorem System.success_moves_forward (hs : s.Everywhere Grammar.IsCombined) {d : Definition}
    (hd : d.body.Everywhere Grammar.IsCombined) {n : Nat} {c rest : Cursor} (hc : c.Reached)
    {v : Value} (hsuccess : (s.parser d n c).ending = .value (.success v rest)) :
    rest.source = c.source ∧
      (∃ before, splitAtByte? rest.position rest.source.text = some (before, rest.rest)) ∧
      c.position ≤ rest.position ∧ rest.position ≤ rest.source.size ∧
      rest.position + rest.remaining = rest.source.size ∧ c.isAtMost rest = true := by
  rcases (System.reads_on hs hd n c).post_of_value hsuccess with ⟨cs, hread, _⟩
  have hvalid : rest.Valid := hread.valid hc.valid
  have hremaining : rest.position + rest.remaining = rest.source.size := by
    rw [hvalid.remaining_eq]
    exact hvalid.position_add_byteLength_rest
  have hforward : c.position ≤ rest.position := by
    rw [hread.position_eq]
    exact Nat.le_add_right _ _
  exact ⟨hread.source_eq, hvalid.splitAtByte?, hforward, hvalid.position_le_size, hremaining,
    hread.isAtMost⟩

/-- A repeated rule whose texts take three bytes, begun after a character of two bytes and a first
success. -/
theorem success_moves_forward_from_byte_five :
    let s : System := ⟨⟨[.defined ⟨.text "é1", []⟩]⟩, []⟩
    let d : Definition := ⟨.many (.reference "rule"), [("rule", .strong 0)]⟩
    let source := Source.ofString 0 "ßé1é1x"
    let c : Cursor := ⟨source, 5, ['é', '1', 'x']⟩
    let rest : Cursor := ⟨source, 8, ['x']⟩
    s.Everywhere Grammar.IsCombined ∧ d.body.Everywhere Grammar.IsCombined ∧ c.Reached ∧
      (s.parser d 3 c).ending = .value (.success (.list [.string "é1"]) rest) ∧
      rest.source = c.source ∧
      (∃ before, splitAtByte? rest.position rest.source.text = some (before, rest.rest)) ∧
      c.position ≤ rest.position ∧ rest.position ≤ rest.source.size ∧
      rest.position + rest.remaining = rest.source.size ∧ c.isAtMost rest = true := by
  intro s d source c rest
  have htext : (Grammar.text "é1").Everywhere Grammar.IsCombined := .intro trivial (by simp)
  have hs : s.Everywhere Grammar.IsCombined := System.Each.of_single htext []
  have hd : d.body.Everywhere Grammar.IsCombined := by
    have hrule : (Grammar.reference "rule").Everywhere Grammar.IsCombined :=
      .intro trivial (by simp)
    exact .intro trivial (by simp [d, hrule])
  have hc : c.Reached := by
    have hnext : (Cursor.start source).next.Reached := .next (.start source)
    have hfirst : (s.parser ⟨.text "é1", []⟩ 1 (Cursor.start source).next).ending =
        .value (.success (.string "é1") c) := rfl
    exact .parse hs htext hnext hfirst
  have hsuccess : (s.parser d 3 c).ending = .value (.success (.list [.string "é1"]) rest) := rfl
  exact ⟨hs, hd, hc, hsuccess, System.success_moves_forward hs hd hc hsuccess⟩

end CommittedParsing
