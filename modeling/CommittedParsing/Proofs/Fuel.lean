import CommittedParsing.Rules.System

/-!
# Fuel

A run that has ended does not depend on its fuel: with more of it, the same run ends in the same way
and leaves the same records. So fuel is no part of what a grammar means; it only bounds how long one
is prepared to wait.

Rules are run with what is left of the fuel, which is less the deeper they are, while a definition
that is run by itself hands on all it has. Two such runs are compared as well: what is compared is
not a fuel with a larger one, but any two that stay comparable when both are used up by a unit.

Main statements:
* `Grammar.continued` — the law for one grammar, from the law for what it refers to;
* `System.parser_of_ended`, `System.rule_of_ended` — a run that has ended is the run with any more
  fuel;
* `System.parser_of_rule`, `System.rule_of_definition` — a rule comes to what its definition comes to.
-/

namespace CommittedParsing

open CommittedParsing.Parser Run

/-- If the first run has ended, the second is the same run. -/
def Run.ContinuedBy {α : Type} (r r' : Run α) : Prop := r.ending ≠ .outOfFuel → r' = r

/-- A way to compare supplies of fuel that stays when both are used up by a unit. -/
structure FuelOrder where
  Rel : Nat → Nat → Prop
  le : ∀ {n m}, Rel n m → n ≤ m
  pred : ∀ {n m}, Rel (n + 1) (m + 1) → Rel n m

namespace FuelOrder

/-- The second is larger. -/
def larger : FuelOrder := ⟨(· ≤ ·), id, Nat.le_of_succ_le_succ⟩

/-- The second is larger by so much. -/
def ahead (k : Nat) : FuelOrder := ⟨fun n m => n + k ≤ m, by omega, by omega⟩

/-- The second is larger, and the first is at most so much. -/
def upTo (k : Nat) : FuelOrder := ⟨fun n m => n ≤ m ∧ n ≤ k, And.left, by omega⟩

end FuelOrder

variable {α β γ δ σ : Type} {F : FuelOrder} {n m : Nat}

/-! ## Runs -/

namespace Run.ContinuedBy

/-- A run continues itself. -/
theorem refl (r : Run α) : r.ContinuedBy r := fun _ => rfl

/-- Whatever is run with more fuel continues a run that has not ended. -/
theorem of_outOfFuel {r r' : Run α} (h : r.ending = .outOfFuel) : r.ContinuedBy r' :=
  fun hended => absurd h hended

/-- Two runs that agree still agree behind the same records. -/
theorem prepend {r r' : Run α} (records : List Record) (h : r.ContinuedBy r') :
    (r.prepend records).ContinuedBy (r'.prepend records) := by
  intro hended
  rw [h hended]

/-- Two runs in a row are continued one by one: the second begins from the value of the first. -/
theorem bind {r r' : Run α} {next next' : α → Run β} (hr : r.ContinuedBy r')
    (hnext : ∀ a, (next a).ContinuedBy (next' a)) : (r >>= next).ContinuedBy (r' >>= next') := by
  rcases r with ⟨records, ending⟩
  cases ending with
  | value a =>
    have hsame : r' = ⟨records, .value a⟩ := hr (by simp)
    rw [hsame, bind_value, bind_value]
    exact (hnext a).prepend records
  | fault e =>
    have hsame : r' = ⟨records, .fault e⟩ := hr (by simp)
    rw [hsame]
    exact refl _
  | outOfFuel => exact of_outOfFuel rfl

/-- If the first part goes on as before, and so does what comes after, the whole does. -/
theorem andThen {r r' : Run (Outcome α)} {next next' : α → Cursor → Run (Outcome β)}
    (hr : r.ContinuedBy r') (hnext : ∀ a rest, (next a rest).ContinuedBy (next' a rest)) :
    (r.andThen next).ContinuedBy (r'.andThen next') := by
  refine hr.bind ?_
  rintro (⟨a, rest⟩ | e)
  · exact hnext a rest
  · exact refl _

theorem mapFailure {r r' : Run (Outcome α)} (change : Failure → Failure) (hr : r.ContinuedBy r') :
    (r.mapFailure change).ContinuedBy (r'.mapFailure change) :=
  hr.bind fun _ => refl _

/-- More rounds may be had. -/
theorem loop {step step' : σ → Run (σ ⊕ α)} (hstep : ∀ s, (step s).ContinuedBy (step' s))
    (hle : n ≤ m) (s : σ) : (Run.loop step n s).ContinuedBy (Run.loop step' m s) := by
  induction n generalizing m s with
  | zero => exact of_outOfFuel rfl
  | succ n ih =>
    rcases Nat.exists_eq_add_of_le' (Nat.one_le_of_lt hle) with ⟨m, rfl⟩
    rw [loop_succ, loop_succ]
    refine (hstep s).bind ?_
    rintro (s' | a)
    · exact ih (Nat.le_of_succ_le_succ hle) s'
    · exact refl _

end Run.ContinuedBy

/-! ## Parsers -/

/-- With supplies of fuel that compare, the runs of the second parser continue those of the first. -/
def Parser.ContinuedBy (F : FuelOrder) (p q : Parser α) : Prop :=
  ∀ n m c, F.Rel n m → (p n c).ContinuedBy (q m c)

namespace Parser.ContinuedBy

variable {p p' : Parser α} {q q' : Parser β}

/-- What is done with a value takes no fuel. -/
theorem map (f : α → β) (hp : p.ContinuedBy F p') : (p.map f).ContinuedBy F (p'.map f) :=
  fun n m c hnm => (hp n m c hnm).andThen fun _ _ => .refl _

/-- The same change of the value keeps the agreement, faults of the change included. -/
theorem mapChecked (f : α → Except Fault β) (hp : p.ContinuedBy F p') :
    (p.mapChecked f).ContinuedBy F (p'.mapChecked f) :=
  fun n m c hnm => (hp n m c hnm).andThen fun _ _ => .refl _

/-- All parts of a sequence are run with the same supply. -/
theorem seq2 (hp : p.ContinuedBy F p') (hq : q.ContinuedBy F q') (combine : α → β → γ) :
    (Parser.seq2 p q combine).ContinuedBy F (Parser.seq2 p' q' combine) := by
  intro n m c hnm
  refine (hp n m c hnm).andThen ?_
  intro a rest
  exact ((hq n m rest hnm).mapFailure _).andThen fun _ _ => .refl _

theorem seq3 {r r' : Parser γ} (hp : p.ContinuedBy F p') (hq : q.ContinuedBy F q')
    (hr : r.ContinuedBy F r') (combine : α → β → γ → δ) :
    (Parser.seq3 p q r combine).ContinuedBy F (Parser.seq3 p' q' r' combine) := by
  intro n m c hnm
  refine (hp n m c hnm).andThen fun a afterFirst => ?_
  refine ((hq n m afterFirst hnm).mapFailure _).andThen fun b afterSecond => ?_
  exact ((hr n m afterSecond hnm).mapFailure _).andThen fun _ _ => .refl _

/-- A repetition may have more rounds with more fuel. -/
theorem repeatFrom (hp : p.ContinuedBy F p') (past : List α) :
    (Parser.repeatFrom p past).ContinuedBy F (Parser.repeatFrom p' past) := by
  intro n m c hnm
  refine Run.ContinuedBy.loop ?_ (F.le hnm) (past, c)
  exact fun state => (hp n m state.2 hnm).bind fun _ => .refl _

/-- A repetition of at least one item is taken apart into the first item and the others. -/
theorem many1 (hp : p.ContinuedBy F p') : (Parser.many1 p).ContinuedBy F (Parser.many1 p') := by
  intro n m c hnm
  refine (hp n m c hnm).andThen ?_
  intro a rest
  split
  · exact .refl _
  · exact hp.repeatFrom [a] n m rest hnm

/-- So may a chain. -/
theorem chain (hp : p.ContinuedBy F p') (hq : q.ContinuedBy F q') (start : α → σ)
    (take : σ → β → α → Except Fault σ) :
    (Parser.chain p q start take).ContinuedBy F (Parser.chain p' q' start take) := by
  intro n m c hnm
  refine (hp n m c hnm).andThen ?_
  intro first rest
  refine Run.ContinuedBy.loop ?_ (F.le hnm) (start first, rest)
  intro state
  refine (hq n m state.2 hnm).bind ?_
  rintro (⟨b, afterOperator⟩ | e)
  · exact ((hp n m afterOperator hnm).mapFailure Failure.commit).bind fun _ => .refl _
  · exact .refl _

/-- Every alternative is run with the same supply. -/
theorem choiceAfter {count : Nat} {ps ps' : Fin count → Parser α}
    (hps : ∀ i, (ps i).ContinuedBy F (ps' i)) (past : Failure) :
    (Parser.choiceAfter past (List.ofFn ps)).ContinuedBy F
      (Parser.choiceAfter past (List.ofFn ps')) := by
  induction count generalizing past with
  | zero => exact fun _ _ _ _ => .refl _
  | succ count ih =>
    intro n m c hnm
    rw [List.ofFn_succ, List.ofFn_succ]
    refine (hps 0 n m c hnm).bind ?_
    rintro (⟨a, rest⟩ | e)
    · exact .refl _
    · dsimp only
      split
      · exact .refl _
      · exact ih (fun i => hps i.succ) (past.merge e) n m c hnm

/-- A rule inside gets what is left of either supply. -/
theorem fix {definition definition' : Parser α → Parser α}
    (h : ∀ p p' : Parser α, p.ContinuedBy F p' →
      (definition p).ContinuedBy F (definition' p')) :
    (Parser.fix definition).ContinuedBy F (Parser.fix definition') := by
  intro n
  induction n with
  | zero => exact fun _ _ _ => .of_outOfFuel rfl
  | succ n ih =>
    intro m c hnm
    rcases Nat.exists_eq_add_of_le' (Nat.one_le_of_lt (F.le hnm)) with ⟨m, rfl⟩
    rw [fix_succ, fix_succ]
    refine h _ _ ?_ n m c (F.pred hnm)
    exact fun _ _ c' _ => ih m c' (F.pred hnm)

end Parser.ContinuedBy

/-! ## The law for grammars -/

/-- The same names are in scope, and the parsers of the second continue those of the first. -/
inductive Scope.ContinuedBy (F : FuelOrder) : Scope → Scope → Prop where
  | nil : ContinuedBy F [] []
  | cons (name : String) {p p' : Parser Value} {outer outer' : Scope} :
      p.ContinuedBy F p' → ContinuedBy F outer outer' →
      ContinuedBy F ((name, p) :: outer) ((name, p') :: outer')

/-- What a name stands for is continued by what it stands for in the second scope. -/
theorem Scope.ContinuedBy.parser {scope scope' : Scope} (h : scope.ContinuedBy F scope')
    (name : String) : (scope.parser name).ContinuedBy F (scope'.parser name) := by
  induction h with
  | nil => exact fun _ _ _ _ => .refl _
  | cons bound hp _ ih =>
    by_cases hname : bound = name
    · subst hname
      rw [Scope.parser_cons_self, Scope.parser_cons_self]
      exact hp
    · rw [Scope.parser_cons_of_ne hname, Scope.parser_cons_of_ne hname]
      exact ih

/-- The runs of a grammar are continued if those of what it refers to are. -/
theorem Grammar.continued (g : Grammar) {call call' : String → Scope → Parser Value}
    (hcall : ∀ name inner inner', Scope.ContinuedBy F inner inner' →
      (call name inner).ContinuedBy F (call' name inner'))
    {scope scope' : Scope} (hscope : scope.ContinuedBy F scope') :
    (g.denote call scope).ContinuedBy F (g.denote call' scope') := by
  induction g generalizing scope scope' with
  | satisfy accepts description => exact fun _ _ _ _ => .refl _
  | text expected => exact fun _ _ _ _ => .refl _
  | endOfInput => exact fun _ _ _ _ => .refl _
  | pure value => exact fun _ _ _ _ => .refl _
  | custom parse => exact fun _ _ _ _ => .refl _
  | map body change ih => exact (ih hscope).mapChecked change
  | filter body accepts description ih =>
    exact fun n m c hnm => (ih hscope n m c hnm).andThen fun _ _ => .refl _
  | bind first captured next ihFirst ihNext =>
    intro n m c hnm
    refine (ihFirst hscope n m c hnm).andThen ?_
    intro v rest
    refine Run.ContinuedBy.mapFailure _ ?_
    change (denoteMade call (next v) scope n rest).ContinuedBy (denoteMade call' (next v) scope' m rest)
    -- the value is the same, so both go on with the same grammar
    cases hv : next v with
    | error e => exact .refl _
    | ok g => exact (ihNext v g hv hscope n m rest hnm).prepend _
  | many body ih => exact ((ih hscope).repeatFrom []).map _
  | many1 body ih => exact (ih hscope).many1.map _
  | or first second ihFirst ihSecond =>
    intro n m c hnm
    refine (ihFirst hscope n m c hnm).bind ?_
    rintro (⟨v, rest⟩ | e)
    · exact .refl _
    · dsimp only
      split
      · exact .refl _
      · exact (ihSecond hscope n m c hnm).mapFailure _
  | choice count alternatives ih =>
    exact Parser.ContinuedBy.choiceAfter (fun i => ih i hscope) Failure.empty
  | attempt body ih => exact fun n m c hnm => (ih hscope n m c hnm).mapFailure _
  | seq2 first second combine ihFirst ihSecond =>
    exact ((ihFirst hscope).seq2 (ihSecond hscope) _).mapChecked _
  | seq3 first second third combine ihFirst ihSecond ihThird =>
    exact ((ihFirst hscope).seq3 (ihSecond hscope) (ihThird hscope) _).mapChecked _
  | optional body ih =>
    refine Parser.ContinuedBy.map _ ?_
    exact fun n m c hnm => (ih hscope n m c hnm).bind fun _ => .refl _
  | not body description ih =>
    refine Parser.ContinuedBy.map _ ?_
    exact fun n m c hnm => (ih hscope n m c hnm).bind fun _ => .refl _
  | sepBy item separator ihItem ihSeparator =>
    exact (((ihItem hscope).chain (ihSeparator hscope) _ _).map _).map _
  | label body description ih => exact fun n m c hnm => (ih hscope n m c hnm).mapFailure _
  | position body ih =>
    refine Parser.ContinuedBy.map _ ?_
    exact fun n m c hnm => (ih hscope n m c hnm).andThen fun _ _ => .refl _
  | chainLeft operand operator fold ihOperand ihOperator =>
    exact (ihOperand hscope).chain (ihOperator hscope) _ _
  | chainRight operand operator fold ihOperand ihOperator =>
    exact (((ihOperand hscope).chain (ihOperator hscope) _ _).map _).mapChecked _
  | delayed body ih => exact fun n m c hnm => (ih hscope n m c hnm).prepend _
  | call name => exact hcall name _ _ hscope
  | recursive name body ih =>
    exact Parser.ContinuedBy.fix fun p p' hp => ih (.cons name hp hscope)
  | reference name => exact hscope.parser name

/-! ## Systems -/

namespace System

variable {s : System} {d : Definition} {h : Handle} {c : Cursor}

/-- Handles give a scope whose rules are continued if the rules of the handles are. -/
theorem scopeOf_continued {family family' : Target → Parser Value}
    (hfamily : ∀ handle, (family (.rule handle)).ContinuedBy F (family' (.rule handle)))
    (bindings : List (String × Handle)) :
    Scope.ContinuedBy F (scopeOf family bindings) (scopeOf family' bindings) := by
  induction bindings with
  | nil => exact .nil
  | cons binding bindings ih => exact .cons binding.1 (hfamily binding.2) ih

/-- The runs of rules and of calls are continued by those with more fuel. -/
theorem target_continued (s : System) (hle : n ≤ m) :
    (∀ handle c, (s.target (.rule handle) n c).ContinuedBy (s.target (.rule handle) m c)) ∧
      ∀ name scope scope', Scope.ContinuedBy .larger scope scope' → ∀ c,
        (s.target (.call name scope) n c).ContinuedBy (s.target (.call name scope') m c) := by
  -- on the fuel, for rules and calls together, since the bodies of both refer to both
  induction n generalizing m with
  | zero => exact ⟨fun _ _ => .of_outOfFuel rfl, fun _ _ _ _ _ => .of_outOfFuel rfl⟩
  | succ n ih =>
    rcases Nat.exists_eq_add_of_le' (Nat.one_le_of_lt hle) with ⟨m, rfl⟩
    rcases ih (Nat.le_of_succ_le_succ hle) with ⟨hrules, hcalls⟩
    have hcall : ∀ name inner inner', Scope.ContinuedBy .larger inner inner' →
        Parser.ContinuedBy .larger (fun _ => s.target (.call name inner) n)
          (fun _ => s.target (.call name inner') m) :=
      fun name inner inner' hinner _ _ c _ => hcalls name inner inner' hinner c
    constructor
    · intro handle c
      cases hresolve : s.store.resolve handle with
      | error e =>
        have hrun : ∀ n, s.target (.rule handle) (n + 1) c = Run.fault e :=
          fun n => rule_eq_fault hresolve n c
        rw [hrun, hrun]
        exact .refl _
      | ok d =>
        have hrun : ∀ n, s.target (.rule handle) (n + 1) c = _ := fun n => rule_succ hresolve n c
        rw [hrun, hrun]
        refine d.body.continued hcall ?_ n m c (Nat.le_of_succ_le_succ hle)
        exact scopeOf_continued (fun handle _ _ c _ => hrules handle c) d.bindings
    · intro name scope scope' hscope c
      cases hlookup : s.library.lookup name with
      | none =>
        rw [call_eq_fault hlookup, call_eq_fault hlookup]
        exact .refl _
      | some body =>
        rw [call_succ hlookup, call_succ hlookup]
        exact (body.continued hcall hscope n m c (Nat.le_of_succ_le_succ hle)).prepend _

/-- The run of a definition that has ended is its run with any more fuel. -/
theorem parser_of_ended (hle : n ≤ m) (hended : (s.parser d n c).ending ≠ .outOfFuel) :
    s.parser d m c = s.parser d n c := by
  have hcontinued : (s.parser d).ContinuedBy .larger (s.parser d) := by
    refine d.body.continued ?_ (scopeOf_continued ?_ d.bindings)
    · exact fun name inner inner' hinner n m c hnm =>
        (target_continued s hnm).2 name inner inner' hinner c
    · exact fun handle n m c hnm => (target_continued s hnm).1 handle c
  exact hcontinued n m c hle hended

/-- So is the run of a rule. -/
theorem rule_of_ended (hle : n ≤ m) (hended : (s.rule h n c).ending ≠ .outOfFuel) :
    s.rule h m c = s.rule h n c :=
  (target_continued s hle).1 h c hended

/-- Without a library, all that a call takes is a unit of fuel. -/
theorem call_continued (hlibrary : s.library = []) (name : String) (scope scope' : Scope)
    (hle : n ≤ m) (c : Cursor) :
    (s.target (.call name scope) n c).ContinuedBy (s.target (.call name scope') m c) := by
  cases n with
  | zero => exact .of_outOfFuel rfl
  | succ n =>
    rcases Nat.exists_eq_add_of_le' (Nat.one_le_of_lt hle) with ⟨m, rfl⟩
    have hnone : s.library.lookup name = none := by simp [hlibrary]
    rw [call_eq_fault hnone, call_eq_fault hnone]
    exact .refl _

/-- Without a library: what a rule has come to, its definition comes to when it is run by itself. -/
theorem parser_of_rule (hlibrary : s.library = []) (hd : s.store.resolve h = .ok d)
    (hended : (s.rule h n c).ending ≠ .outOfFuel) : s.parser d (n + n) c = s.rule h n c := by
  cases n with
  | zero => exact absurd rfl hended
  | succ n =>
    rw [rule_succ hd] at hended ⊢
    -- rules inside are run with `n` here, and with at least as much where there is twice the fuel
    refine d.body.continued (F := .ahead n) ?_ (scopeOf_continued ?_ d.bindings) n _ c
      (show n + n ≤ n + 1 + (n + 1) by omega) hended
    · intro name inner inner' _ k m c hkm
      exact call_continued hlibrary name inner inner' (Nat.le_of_add_left_le hkm) c
    · intro handle k m c hkm
      exact (target_continued s (Nat.le_of_add_left_le hkm)).1 handle c

/-- Without a library: what a definition has come to when it is run by itself, its rule comes to with
one unit more. -/
theorem rule_of_definition (hlibrary : s.library = []) (hd : s.store.resolve h = .ok d)
    (hended : (s.parser d n c).ending ≠ .outOfFuel) : s.rule h (n + 1) c = s.parser d n c := by
  rw [rule_succ hd]
  -- no rule inside is run with more than `n`
  refine d.body.continued (F := .upTo n) ?_ (scopeOf_continued ?_ d.bindings) n n c
    ⟨Nat.le_refl _, Nat.le_refl _⟩ hended
  · intro name inner inner' _ k m c hkm
    exact call_continued hlibrary name inner inner' hkm.2 c
  · exact fun handle k m c hkm => (target_continued s hkm.2).1 handle c

end System

end CommittedParsing
