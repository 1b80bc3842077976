import CommittedParsing.Grammar.Parts
import CommittedParsing.Proofs.Ensures
import CommittedParsing.Rules.System

/-!
# Comparing grammars

What holds of a grammar for all texts is proved by induction on the grammar, and beyond it through
its rules: those it ties itself, those of the handles in scope and those that are called by name.
The part of this induction that is the same for every property is done here once. A property is
given as a relation between what two parsers do with the same fuel; a property of one grammar is the
case in which the second parser is not looked at.

Main statements:
* `Comparison.knot` — parsers tied in the same way are related if their definitions are;
* `Comparison.systems` — two systems are related if their grammars are, one by one;
* `Comparison.everywhere` — the same for one system and a property of all its grammars;
* `System.ensures_parser` — a condition that every grammar of a system keeps holds of its parsers.
-/

namespace CommittedParsing

/-! ## Conditions on systems -/

/-- A condition holds of the rules and of the library of a system. -/
structure System.Each (P : Grammar → Prop) (s : System) : Prop where
  rules : ∀ rule d, s.store.state rule = .defined d → P d.body
  library : ∀ name g, s.library.lookup name = some g → P g

/-- A condition holds everywhere in the rules and in the library of a system. -/
abbrev System.Everywhere (P : Grammar → Prop) (s : System) : Prop := s.Each (Grammar.Everywhere P)

/-- Of a system with one rule and no library, a condition on the grammars is one on that rule. -/
theorem System.Each.of_single {P : Grammar → Prop} {body : Grammar} (h : P body)
    (bindings : List (String × Handle)) : Each P ⟨⟨[.defined ⟨body, bindings⟩]⟩, []⟩ where
  rules rule d hd := by
    cases rule with
    | zero =>
      cases hd
      exact h
    | succ rule => simp [Store.state] at hd
  library := by simp

/-- A weaker condition holds wherever a stronger one does. -/
theorem System.Everywhere.imp {P Q : Grammar → Prop} {s : System} (h : s.Everywhere P)
    (himp : ∀ g, P g → Q g) : s.Everywhere Q where
  rules rule d hd := (h.rules rule d hd).imp himp
  library name g hg := (h.library name g hg).imp himp

/-! ## Systems of one shape -/

/-- Two definitions with the same handles and with related bodies. -/
structure Definition.Rel (T : Grammar → Grammar → Prop) (d d' : Definition) : Prop where
  body : T d.body d'.body
  bindings : d.bindings = d'.bindings

/-- Two rules that have come equally far, with related definitions. -/
inductive RuleState.Rel (T : Grammar → Grammar → Prop) : RuleState → RuleState → Prop where
  | declared : Rel T .declared .declared
  | defined {d d' : Definition} : Definition.Rel T d d' → Rel T (.defined d) (.defined d')
  | freed : Rel T .freed .freed

/-- Two binders go on alike: with related grammars, or with the same fault. -/
inductive MadeRel (T : Grammar → Grammar → Prop) : Except Fault Grammar → Except Fault Grammar → Prop where
  | ok {g g' : Grammar} : T g g' → MadeRel T (.ok g) (.ok g')
  | error (e : Fault) : MadeRel T (.error e) (.error e)

/-- Two systems whose rules and named grammars are related one by one. -/
structure System.Rel (T : Grammar → Grammar → Prop) (s s' : System) : Prop where
  rules : ∀ rule, RuleState.Rel T (s.store.state rule) (s'.store.state rule)
  library : ∀ name, Option.Rel T (s.library.lookup name) (s'.library.lookup name)

/-- A binder goes on as itself, if each grammar that it may go on with is related to itself. -/
theorem MadeRel.refl {T : Grammar → Grammar → Prop} {made : Except Fault Grammar}
    (h : ∀ g, made = .ok g → T g g) : MadeRel T made made := by
  cases made with
  | ok g => exact .ok (h g rfl)
  | error e => exact .error e

/-- A weaker relation holds of two rules, if it follows for the bodies that they have. -/
theorem RuleState.Rel.imp {T U : Grammar → Grammar → Prop} {x x' : RuleState}
    (h : RuleState.Rel T x x')
    (himp : ∀ d d' : Definition, x = .defined d → T d.body d'.body → U d.body d'.body) :
    RuleState.Rel U x x' := by
  cases h with
  | declared => exact .declared
  | defined hd => exact .defined ⟨himp _ _ rfl hd.body, hd.bindings⟩
  | freed => exact .freed

/-- Where a condition holds everywhere in the first of two systems, their grammars are related with
that condition in addition. -/
theorem System.Rel.and_everywhere {T : Grammar → Grammar → Prop} {P : Grammar → Prop}
    {s s' : System} (h : System.Rel T s s') (hs : s.Everywhere P) :
    System.Rel (fun g g' => T g g' ∧ g.Everywhere P) s s' where
  rules rule := (h.rules rule).imp fun d _ hd hbody => ⟨hbody, hs.rules rule d hd⟩
  library name := by
    have hname := h.library name
    have hplain := hs.library name
    revert hname hplain
    generalize s.library.lookup name = found, s'.library.lookup name = found'
    rintro (hgg' | _) hplain
    · exact .some ⟨hgg', hplain _ rfl⟩
    · exact .none

/-- Every system has the shape of itself. -/
theorem System.Rel.refl {T : Grammar → Grammar → Prop} (hT : ∀ g, T g g) (s : System) :
    System.Rel T s s where
  rules rule := by
    cases s.store.state rule with
    | declared => exact .declared
    | defined d => exact .defined ⟨hT d.body, rfl⟩
    | freed => exact .freed
  library name := by
    cases s.library.lookup name with
    | none => exact .none
    | some g => exact .some (hT g)

/-! ## Comparisons -/

/-- A relation between what two parsers do with some fuel. It holds where both can only end without
a value, and it does not look at the definitions of rules that are announced. -/
structure Comparison where
  Rel : (Cursor → Run (Outcome Value)) → (Cursor → Run (Outcome Value)) → Prop
  outOfFuel : Rel (fun _ => Run.outOfFuel) (fun _ => Run.outOfFuel)
  fault : ∀ e, Rel (fun _ => Run.fault e) (fun _ => Run.fault e)
  announce : ∀ {p q} (k k' : Nat), Rel p q →
    Rel (fun c => (p c).prepend (List.replicate k .ruleDefined))
      (fun c => (q c).prepend (List.replicate k' .ruleDefined))

namespace Comparison

variable (K : Comparison)

/-- Two parsers are related with any fuel. -/
def Parsers (p q : Parser Value) : Prop := ∀ n, K.Rel (p n) (q n)

/-- Two scopes bind the same names, to related parsers. -/
def Scopes (scope scope' : Scope) : Prop :=
  ∀ name, Option.Rel K.Parsers (scope.find? name) (scope'.find? name)

/-- What two grammars refer to is related. -/
structure Contexts (call call' : String → Scope → Parser Value) (scope scope' : Scope) : Prop where
  calls : ∀ name inner inner', K.Scopes inner inner' →
    K.Parsers (call name inner) (call' name inner')
  scopes : K.Scopes scope scope'

/-- Two grammars are related wherever what they refer to is. -/
def Grammars (g g' : Grammar) : Prop :=
  ∀ {call call' scope scope'}, K.Contexts call call' scope scope' →
    K.Parsers (g.denote call scope) (g'.denote call' scope')

variable {K}

/-! ### Knots -/

/-- Parsers tied in the same way are related if related families give related definitions. -/
theorem knot {ι : Type} {definition definition' : (ι → Parser Value) → ι → Parser Value}
    {J : ι → ι → Prop}
    (h : ∀ family family', (∀ i i', J i i' → K.Parsers (family i) (family' i')) →
      ∀ i i', J i i' → K.Parsers (definition family i) (definition' family' i'))
    {i i' : ι} (hi : J i i') :
    K.Parsers (Parser.knot definition i) (Parser.knot definition' i') := by
  intro n
  induction n generalizing i i' with
  | zero => exact K.outOfFuel
  | succ n ih =>
    -- inside the definition every member runs with the fuel that is left, whatever it is given
    exact h (fun j _ c => Parser.knot definition j n c) (fun j _ c => Parser.knot definition' j n c)
      (fun j j' hj _ => ih hj) i i' hi n

/-- A single rule is a knot with one member. -/
theorem fix {definition definition' : Parser Value → Parser Value}
    (h : ∀ p q, K.Parsers p q → K.Parsers (definition p) (definition' q)) :
    K.Parsers (Parser.fix definition) (Parser.fix definition') := by
  refine knot (J := fun _ _ => True) ?_ trivial
  intro family family' hfamily _ _ _
  exact h _ _ (hfamily () () trivial)

/-! ### Scopes -/

/-- Scopes without a rule are related. -/
theorem Scopes.nil : K.Scopes [] [] := fun _ => .none

/-- So are scopes in which a name is bound to related parsers in addition. -/
theorem Scopes.cons {scope scope' : Scope} (h : K.Scopes scope scope') (name : String)
    {p q : Parser Value} (hpq : K.Parsers p q) :
    K.Scopes ((name, p) :: scope) ((name, q) :: scope') := by
  intro wanted
  -- the new rule hides an outer one of its name, and no other
  by_cases hname : name = wanted
  · subst hname
    rw [Scope.find?_cons_self, Scope.find?_cons_self]
    exact .some hpq
  · rw [Scope.find?_cons_of_ne hname, Scope.find?_cons_of_ne hname]
    exact h wanted

/-- In related scopes a name stands for related parsers; without a rule, for the same fault. -/
theorem Scopes.parser {scope scope' : Scope} (h : K.Scopes scope scope') (name : String) :
    K.Parsers (scope.parser name) (scope'.parser name) := by
  have hname := h name
  unfold Scope.parser
  revert hname
  generalize scope.find? name = found, scope'.find? name = found'
  rintro (hpq | _)
  · exact hpq
  · exact fun _ => K.fault .ruleUndefined

/-- Handles bound in the same way give related scopes, if their rules are related. -/
theorem Scopes.of_bindings {family family' : Target → Parser Value}
    (h : ∀ handle, K.Parsers (family (.rule handle)) (family' (.rule handle)))
    (bindings : List (String × Handle)) :
    K.Scopes (System.scopeOf family bindings) (System.scopeOf family' bindings) := by
  induction bindings with
  | nil => exact Scopes.nil
  | cons binding bindings ih => exact ih.cons binding.1 (h binding.2)

/-! ### Grammars that refer to others -/

/-- A rule is related to a rule of the same name if their bodies are: each is a knot, and in the body the
name is bound to the rule itself. -/
theorem Grammars.recursive {body body' : Grammar} (h : K.Grammars body body') (name : String) :
    K.Grammars (.recursive name body) (.recursive name body') := by
  intro call call' scope scope' hcontext
  refine fix ?_
  intro p q hpq
  exact h ⟨hcontext.calls, hcontext.scopes.cons name hpq⟩

/-- A reference is what its name stands for. -/
theorem Grammars.reference (name : String) : K.Grammars (.reference name) (.reference name) :=
  fun hcontext => hcontext.scopes.parser name

/-- A call is run in the scope of the place where it stands. -/
theorem Grammars.call (name : String) : K.Grammars (.call name) (.call name) :=
  fun hcontext => hcontext.calls name _ _ hcontext.scopes

/-- What is built anew may announce rules, and the relation does not look at that. -/
theorem Grammars.delayed {body body' : Grammar} (h : K.Grammars body body') :
    K.Grammars (.delayed body) (.delayed body') :=
  fun hcontext n => K.announce _ _ (h hcontext n)

/-- What a binder goes on with is built anew, too. -/
theorem Grammars.made {made made' : Except Fault Grammar} (h : MadeRel K.Grammars made made')
    {call call' : String → Scope → Parser Value} {scope scope' : Scope}
    (hcontext : K.Contexts call call' scope scope') :
    K.Parsers (Grammar.denoteMade call made scope) (Grammar.denoteMade call' made' scope') := by
  cases h with
  | ok hgg' => exact fun n => K.announce _ _ (hgg' hcontext n)
  | error e => exact fun _ => K.fault e

/-! ### Systems -/

/-- The same rule, or the same named grammar in related scopes. -/
inductive Targets (K : Comparison) : Target → Target → Prop where
  | rule (handle : Handle) : Targets K (.rule handle) (.rule handle)
  | call (name : String) {scope scope' : Scope} (h : K.Scopes scope scope') :
    Targets K (.call name scope) (.call name scope')

variable {T : Grammar → Grammar → Prop} {s s' : System}

/-- One step of the knot of a system: related families run related targets. -/
theorem step (hT : ∀ g g', T g g' → K.Grammars g g') (hs : System.Rel T s s')
    {family family' : Target → Parser Value}
    (hfamily : ∀ t t', Targets K t t' → K.Parsers (family t) (family' t')) {t t' : Target}
    (ht : Targets K t t') : K.Parsers (s.step family t) (s'.step family' t') := by
  have hcalls : ∀ name inner inner', K.Scopes inner inner' →
      K.Parsers (family (.call name inner)) (family' (.call name inner')) :=
    fun name _ _ hinner => hfamily _ _ (.call name hinner)
  cases ht with
  | rule handle =>
    -- the two rules have come equally far, so both are run or both end with the same fault
    have hrule := hs.rules handle.rule
    unfold System.step Store.resolve
    dsimp only
    revert hrule
    generalize s.store.state handle.rule = x, s'.store.state handle.rule = x'
    rintro (_ | hd | _)
    · exact fun _ => K.fault .ruleUndefined
    · obtain ⟨hbody, hbindings⟩ := hd
      dsimp only
      rw [← hbindings]
      exact hT _ _ hbody ⟨hcalls, Scopes.of_bindings (fun h => hfamily _ _ (.rule h)) _⟩
    · exact fun _ => K.fault .ruleDropped
  | call name hscope =>
    have hname := hs.library name
    unfold System.step
    dsimp only
    revert hname
    generalize s.library.lookup name = found, s'.library.lookup name = found'
    rintro (hgg' | _)
    · exact fun n => K.announce _ _ (hT _ _ hgg' ⟨hcalls, hscope⟩ n)
    · exact fun _ => K.fault .ruleUndefined

/-- Two systems are related if their grammars are, one by one. -/
theorem systems (hT : ∀ g g', T g g' → K.Grammars g g') (hs : System.Rel T s s')
    {d d' : Definition} (hd : Definition.Rel T d d') : K.Parsers (s.parser d) (s'.parser d') := by
  have htarget : ∀ {t t'}, Targets K t t' → K.Parsers (s.target t) (s'.target t') :=
    knot fun _ _ hfamily _ _ => step hT hs hfamily
  unfold System.parser
  rw [← hd.bindings]
  exact hT _ _ hd.body
    ⟨fun name _ _ h => htarget (.call name h), Scopes.of_bindings (fun h => htarget (.rule h)) _⟩

/-- Where every grammar with a property is related to itself, the parsers of a system in which every
grammar has that property are. -/
theorem everywhere {P : Grammar → Prop} (h : ∀ g : Grammar, g.Everywhere P → K.Grammars g g)
    {s : System} (hs : s.Everywhere P) {d : Definition} (hd : d.body.Everywhere P) :
    K.Parsers (s.parser d) (s.parser d) := by
  have hrel : System.Rel (fun g g' => g = g' ∧ g.Everywhere P) s s :=
    (System.Rel.refl (fun _ => rfl) s).and_everywhere hs
  refine systems ?_ hrel ⟨⟨rfl, hd⟩, rfl⟩
  rintro g _ ⟨rfl, hg⟩
  exact h g hg

/-! ## Conditions of one parser -/

/-- The first parser meets a condition on its outcomes, one for each cursor. -/
def ensuring (post : Cursor → Outcome Value → Prop) : Comparison where
  Rel p _ := ∀ c, (p c).Ensures Run.anyAbort (post c)
  outOfFuel _ := trivial
  fault _ _ := trivial
  announce _ _ h c := (h c).prepend _

end Comparison

/-- A condition on outcomes that every grammar with a property keeps holds of the parsers of a
system in which every grammar has that property. -/
theorem System.ensures_parser {post : Cursor → Outcome Value → Prop} {P : Grammar → Prop}
    (h : ∀ g : Grammar, g.Everywhere P → (Comparison.ensuring post).Grammars g g) {s : System}
    (hs : s.Everywhere P) {d : Definition} (hd : d.body.Everywhere P) (n : Nat) (c : Cursor) :
    (s.parser d n c).Ensures Run.anyAbort (post c) :=
  Comparison.everywhere h hs hd n c

end CommittedParsing
