import CommittedParsing.Proofs.Ensures
import CommittedParsing.Proofs.Fuel
import Mathlib.Order.Filter.AtTopBot.Basic

/-!
# Names and supplies of fuel

What a grammar does depends on what its names stand for and on the fuel. A parser is run inside the
rules around it with what is left of the fuel, so a statement about enough fuel is about every
supply that is large enough, to the grammar itself as well as to all it refers to.

A name stands for a rule that a grammar around it ties, or for the rule of a handle. Entering a rule
costs one unit for all that is run inside it.

Main statements:
* `Enters.exists_run` — a grammar that stands for a rule runs the body of the rule, with a unit less;
* `Enters.ensures` — so what the body ensures from some fuel on, the grammar ensures with a unit more;
* `Grammar.EnsuresWith.exists_outcome` — where a grammar ends with every supply, it is with one outcome.
-/

namespace CommittedParsing

open CommittedParsing.Parser Run

/-! ## Names -/

/-- What a name stands for. -/
inductive Referent where
  /-- A rule with the given body; in it, names are those from the rule itself on outwards. -/
  | tied (body : Grammar)
  /-- The rule of a handle. -/
  | stored (handle : Handle)

/-- What the names in scope stand for, innermost first. -/
abbrev Names := List (String × Referent)

/-- The names of a definition. -/
def Names.ofBindings (bindings : List (String × Handle)) : Names :=
  bindings.map fun (name, h) => (name, .stored h)

/-! ## Supplies of fuel -/

/-- Calls are run with the fuel at hand or with at least `k`. -/
def CallsSupplied (s : System) (k : Nat) (call : String → Scope → Parser Value) : Prop :=
  ∀ name scope n, ∃ m, min k n ≤ m ∧ call name scope n = s.target (.call name scope) m

/-- The parsers in scope are those of the names they are bound to, and are run with the fuel at hand
or with at least `k`. -/
inductive Scope.Supplied (s : System) (k : Nat) : Names → Scope → Prop where
  | nil : Supplied s k [] []
  | tied {name : String} {body : Grammar} {names : Names} {scope : Scope}
      {call : String → Scope → Parser Value} {m : Nat} :
      CallsSupplied s k call → Supplied s k names scope → k ≤ m →
      Supplied s k ((name, .tied body) :: names)
        ((name, fun _ => (Grammar.recursive name body).denote call scope m) :: scope)
  | stored {name : String} {handle : Handle} {names : Names} {scope : Scope} {p : Parser Value} :
      (∀ n, ∃ m, min k n ≤ m ∧ p n = s.target (.rule handle) m) → Supplied s k names scope →
      Supplied s k ((name, .stored handle) :: names) ((name, p) :: scope)

/-- What a grammar is run with: the parsers of what it refers to, and at least `k` units of fuel. -/
structure Supply (s : System) (k : Nat) (names : Names) where
  call : String → Scope → Parser Value
  scope : Scope
  fuel : Nat
  calls : CallsSupplied s k call
  names_bound : scope.Supplied s k names
  enough : k ≤ fuel

/-- The run of a grammar at a place. -/
def Supply.run {s : System} {k : Nat} {names : Names} (supply : Supply s k names) (g : Grammar)
    (c : Cursor) : Run (Outcome Value) :=
  g.denote supply.call supply.scope supply.fuel c

section Supplies

variable {s : System} {k m : Nat} {names : Names} {scope : Scope}
  {call : String → Scope → Parser Value}

/-- What is supplied up to a depth is supplied up to a lesser one. -/
theorem CallsSupplied.weaken (h : CallsSupplied s (k + 1) call) : CallsSupplied s k call := by
  intro name scope n
  rcases h name scope n with ⟨m, hm, hrun⟩
  exact ⟨m, by omega, hrun⟩

/-- Calls of the system itself, with that much fuel or more, are supplied. -/
theorem CallsSupplied.const (hm : k ≤ m) :
    CallsSupplied s k fun name scope _ => s.target (.call name scope) m :=
  fun _ _ _ => ⟨m, by omega, rfl⟩

theorem Scope.Supplied.weaken (h : scope.Supplied s (k + 1) names) : scope.Supplied s k names := by
  induction h with
  | nil => exact .nil
  | tied hcall _ hm ih => exact .tied hcall.weaken ih (by omega)
  | stored hp _ ih =>
    refine .stored ?_ ih
    intro n
    rcases hp n with ⟨m, hm, hrun⟩
    exact ⟨m, by omega, hrun⟩

/-- The names that a definition binds are supplied if the rules are. -/
theorem Scope.Supplied.ofBindings {family : Target → Parser Value}
    (h : ∀ handle n, ∃ m, min k n ≤ m ∧ family (.rule handle) n = s.target (.rule handle) m)
    (bindings : List (String × Handle)) :
    Scope.Supplied s k (Names.ofBindings bindings) (System.scopeOf family bindings) := by
  induction bindings with
  | nil => exact .nil
  | cons binding bindings ih => exact .stored (h binding.2) ih

namespace Supply

/-- A larger supply will do. -/
def weaken (supply : Supply s (k + 1) names) : Supply s k names where
  call := supply.call
  scope := supply.scope
  fuel := supply.fuel
  calls := supply.calls.weaken
  names_bound := supply.names_bound.weaken
  enough := by have := supply.enough; omega

/-- A supply for a rule is one for its body, with the rule in scope and a unit less. -/
def enter (name : String) (body : Grammar) (hcall : CallsSupplied s (k + 1) call)
    (hscope : scope.Supplied s (k + 1) names) (hm : k ≤ m) :
    Supply s k ((name, .tied body) :: names) where
  call := call
  scope := (name, fun _ => (Grammar.recursive name body).denote call scope m) :: scope
  fuel := m
  calls := hcall.weaken
  names_bound := .tied hcall.weaken hscope.weaken hm
  enough := hm

/-- What a definition is run with by itself. -/
def whole (s : System) (d : Definition) (n : Nat) : Supply s n (Names.ofBindings d.bindings) where
  call := fun name scope => s.target (.call name scope)
  scope := System.scopeOf s.target d.bindings
  fuel := n
  calls := fun _ _ m => ⟨m, by omega, rfl⟩
  names_bound := .ofBindings (fun _ m => ⟨m, by omega, rfl⟩) d.bindings
  enough := le_refl n

/-- What is left for the definition of a stored rule. -/
def stored (s : System) (bindings : List (String × Handle)) (hm : k ≤ m) :
    Supply s k (Names.ofBindings bindings) where
  call := fun name scope _ => s.target (.call name scope) m
  scope := System.scopeOf (fun t _ => s.target t m) bindings
  fuel := m
  calls := .const hm
  names_bound := .ofBindings (fun _ _ => ⟨m, by omega, rfl⟩) bindings
  enough := hm

/-- What is left for a named grammar, in the scope of its call. -/
def called (supply : Supply s (k + 1) names) (hm : k ≤ m) : Supply s k names where
  call := fun name scope _ => s.target (.call name scope) m
  scope := supply.scope
  fuel := m
  calls := .const hm
  names_bound := supply.names_bound.weaken
  enough := hm

end Supply

end Supplies

/-! ## Rules that are entered -/

/-- A grammar and what the names in it stand for. -/
structure Site where
  names : Names
  grammar : Grammar

/-- A rule: a stored one by its number, a grammar of the library by its name, and a rule that a
grammar ties by the names from the rule itself on outwards. -/
inductive RuleName where
  | stored (rule : Nat)
  | named (name : String)
  | tied (names : Names)

/-- A grammar stands for a rule, whose body is found at the second site. -/
inductive Enters (s : System) : Site → RuleName → Site → Prop where
  | recursive {names : Names} {name : String} {body : Grammar} :
      Enters s ⟨names, .recursive name body⟩ (.tied ((name, .tied body) :: names))
        ⟨(name, .tied body) :: names, body⟩
  | reference_tied {names : Names} {name : String} {body : Grammar} :
      Enters s ⟨(name, .tied body) :: names, .reference name⟩ (.tied ((name, .tied body) :: names))
        ⟨(name, .tied body) :: names, body⟩
  | reference_stored {names : Names} {name : String} {handle : Handle} {d : Definition} :
      s.store.resolve handle = .ok d →
      Enters s ⟨(name, .stored handle) :: names, .reference name⟩ (.stored handle.rule)
        ⟨Names.ofBindings d.bindings, d.body⟩
  /-- A name is looked for outwards. -/
  | reference_outer {names : Names} {bound name : String} {referent : Referent} {rule : RuleName}
      {inside : Site} :
      bound ≠ name → Enters s ⟨names, .reference name⟩ rule inside →
      Enters s ⟨(bound, referent) :: names, .reference name⟩ rule inside
  /-- A grammar of the library is read in the scope of its call. -/
  | call {names : Names} {name : String} {body : Grammar} :
      s.library.lookup name = some body →
      Enters s ⟨names, .call name⟩ (.named name) ⟨names, body⟩

/-- With every supply of at least `k`, the run of the grammar ensures a condition. -/
def Grammar.EnsuresWith (s : System) (names : Names) (g : Grammar) (c : Cursor)
    (abort : Option Fault → Prop) (post : Outcome Value → Prop) (k : Nat) : Prop :=
  ∀ supply : Supply s k names, (supply.run g c).Ensures abort post

section Rules

variable {s : System} {k : Nat} {site inside : Site} {rule : RuleName} {c : Cursor}

/-- A grammar that stands for a rule runs the body of the rule, with a unit less. -/
theorem Enters.exists_run (h : Enters s site rule inside) (supply : Supply s (k + 1) site.names)
    (c : Cursor) : ∃ (inner : Supply s k inside.names) (records : List Record),
      supply.run site.grammar c = (inner.run inside.grammar c).prepend records := by
  have hrecursive : ∀ {names : Names} {name : String} {body : Grammar}
      (supply : Supply s (k + 1) names), ∃ inner : Supply s k ((name, .tied body) :: names),
        supply.run (.recursive name body) c = inner.run body c := by
    intro names name body supply
    rcases Nat.exists_eq_add_of_le' (Nat.one_le_of_lt supply.enough) with ⟨m, hm⟩
    have hle : k ≤ m := by have := supply.enough; omega
    refine ⟨.enter name body supply.calls supply.names_bound hle, ?_⟩
    unfold Supply.run
    rw [hm, Grammar.denote_recursive_succ]
    rfl
  induction h with
  | recursive =>
    rcases hrecursive supply with ⟨inner, hrun⟩
    exact ⟨inner, [], hrun⟩
  | reference_tied =>
    -- the rule is entered with what was left when it came into scope
    rcases supply with ⟨call, scope, fuel, hcalls, hbound, henough⟩
    cases hbound with
    | @tied _ _ _ scope call m hcall hscope hm =>
      rcases hrecursive ⟨call, scope, m, hcall, hscope, hm⟩ with ⟨inner, hrun⟩
      refine ⟨inner, [], ?_⟩
      unfold Supply.run
      rw [Grammar.denote, Scope.parser_cons_self]
      exact hrun
  | @reference_stored _ _ handle d hresolve =>
    -- the handle has at least the supply, of which the rule takes a unit
    rcases supply with ⟨call, scope, fuel, hcalls, hbound, henough⟩
    cases hbound with
    | @stored _ _ _ scope p hp hscope =>
      rcases hp fuel with ⟨m, hm, hrun⟩
      rcases Nat.exists_eq_add_of_le' (show 1 ≤ m by omega) with ⟨m, rfl⟩
      have hrule := System.rule_succ hresolve m c
      change s.target (.rule handle) (m + 1) c = _ at hrule
      refine ⟨.stored s d.bindings (show k ≤ m by omega), [], ?_⟩
      unfold Supply.run
      rw [Grammar.denote, Scope.parser_cons_self, hrun, hrule]
      rfl
  | reference_outer hname _ ih =>
    rcases supply with ⟨call, scope, fuel, hcalls, hbound, henough⟩
    cases hbound with
    | tied hcall hscope hm =>
      rcases ih ⟨call, _, fuel, hcalls, hscope, henough⟩ with ⟨inner, records, hrun⟩
      refine ⟨inner, records, ?_⟩
      unfold Supply.run
      rw [Grammar.denote, Scope.parser_cons_of_ne hname]
      exact hrun
    | stored hp hscope =>
      rcases ih ⟨call, _, fuel, hcalls, hscope, henough⟩ with ⟨inner, records, hrun⟩
      refine ⟨inner, records, ?_⟩
      unfold Supply.run
      rw [Grammar.denote, Scope.parser_cons_of_ne hname]
      exact hrun
  | @call _ name body hlookup =>
    rcases supply.calls name supply.scope supply.fuel with ⟨m, hm, hrun⟩
    have henough := supply.enough
    rcases Nat.exists_eq_add_of_le' (show 1 ≤ m by omega) with ⟨m, rfl⟩
    refine ⟨supply.called (show k ≤ m by omega), body.announcements, ?_⟩
    unfold Supply.run
    rw [Grammar.denote, hrun, System.call_succ hlookup]
    rfl

/-- What the body of a rule ensures from some fuel on, a grammar that stands for the rule ensures
with a unit more. -/
theorem Enters.ensures {abort : Option Fault → Prop} {post : Outcome Value → Prop}
    (h : Enters s site rule inside)
    (hbody : inside.grammar.EnsuresWith s inside.names c abort post k) :
    site.grammar.EnsuresWith s site.names c abort post (k + 1) := by
  intro supply
  rcases h.exists_run supply c with ⟨inner, records, hrun⟩
  rw [hrun]
  exact (hbody inner).prepend records

end Rules

/-! ## One outcome -/

/-- Calls that are run with the fuel at hand, but with no more than `k`. -/
def System.callsUpTo (s : System) (k : Nat) : String → Scope → Parser Value :=
  fun name scope n => s.target (.call name scope) (min k n)

/-- The names in scope, run with as little as a supply of `k` may have. -/
def Names.leastScope (s : System) (k : Nat) : Names → Scope
  | [] => []
  | (name, .tied body) :: names =>
    (name, fun _ => (Grammar.recursive name body).denote (s.callsUpTo k) (leastScope s k names) k) ::
      leastScope s k names
  | (name, .stored handle) :: names =>
    (name, fun n => s.target (.rule handle) (min k n)) :: leastScope s k names

/-- The calls cut off at a depth are supplied up to it. -/
theorem System.callsSupplied_callsUpTo (s : System) (k : Nat) : CallsSupplied s k (s.callsUpTo k) :=
  fun _ _ n => ⟨min k n, Nat.le_refl _, rfl⟩

theorem Names.leastScope_supplied (s : System) (k : Nat) (names : Names) :
    (names.leastScope s k).Supplied s k names := by
  induction names with
  | nil => exact .nil
  | cons entry names ih =>
    rcases entry with ⟨name, body | handle⟩
    · exact .tied (s.callsSupplied_callsUpTo k) ih (Nat.le_refl k)
    · exact .stored (fun n => ⟨min k n, Nat.le_refl _, rfl⟩) ih

/-- The least supply of `k`. -/
def Supply.least (s : System) (k : Nat) (names : Names) : Supply s k names where
  call := s.callsUpTo k
  scope := names.leastScope s k
  fuel := k
  calls := s.callsSupplied_callsUpTo k
  names_bound := names.leastScope_supplied s k
  enough := Nat.le_refl k

section Outcomes

variable {s : System} {k k' : Nat} {names : Names} {g : Grammar} {c : Cursor}
  {abort : Option Fault → Prop} {post : Outcome Value → Prop}

/-- Whatever supplies the calls goes on as the calls cut off at that depth do. -/
theorem CallsSupplied.continues {call : String → Scope → Parser Value} (h : CallsSupplied s k call)
    (name : String) (inner inner' : Scope) (hinner : Scope.ContinuedBy .larger inner inner') :
    (s.callsUpTo k name inner).ContinuedBy .larger (call name inner') := by
  intro n m c hnm
  have hle : n ≤ m := hnm
  rcases h name inner' m with ⟨fuel, hfuel, hrun⟩
  rw [hrun]
  exact (System.target_continued s (show min k n ≤ fuel by omega)).2 name inner inner' hinner c

theorem Scope.Supplied.continues {scope : Scope} (h : scope.Supplied s k names) :
    Scope.ContinuedBy .larger (names.leastScope s k) scope := by
  induction h with
  | nil => exact .nil
  | @tied name body names scope call fuel hcall _ hfuel ih =>
    refine .cons name ?_ ih
    intro n m c _
    exact (Grammar.recursive name body).continued (fun name => hcall.continues name) ih k fuel c hfuel
  | @stored name handle names scope p hp _ ih =>
    refine .cons name ?_ ih
    intro n m c hnm
    have hle : n ≤ m := hnm
    rcases hp m with ⟨fuel, hfuel, hrun⟩
    rw [hrun]
    exact (System.target_continued s (show min k n ≤ fuel by omega)).1 handle c

/-- A run that ends with the least supply is the run with every supply. -/
theorem Supply.least_continued (supply : Supply s k names) (g : Grammar) (c : Cursor) :
    ((Supply.least s k names).run g c).ContinuedBy (supply.run g c) :=
  g.continued (fun name => supply.calls.continues name) supply.names_bound.continues k supply.fuel c
    supply.enough

/-- What a grammar ensures with every supply of `k`, it ensures with all larger ones. -/
theorem Grammar.EnsuresWith.of_le (h : g.EnsuresWith s names c abort post k) (hle : k ≤ k') :
    g.EnsuresWith s names c abort post k' := by
  induction hle with
  | refl => exact h
  | step _ ih => exact fun supply => ih supply.weaken

/-- A grammar that ends with a value with every supply ends with the same one. -/
theorem Grammar.EnsuresWith.exists_outcome (h : g.EnsuresWith s names c noAbort post k) :
    ∃ outcome, post outcome ∧ g.EnsuresWith s names c noAbort (· = outcome) k := by
  rcases (h (.least s k names)).exists_value with ⟨outcome, hending, hpost⟩
  refine ⟨outcome, hpost, ?_⟩
  intro supply
  have hrun : supply.run g c = (Supply.least s k names).run g c := by
    apply supply.least_continued g c
    rw [hending]
    simp
  rw [hrun]
  unfold Ensures
  rw [hending]

end Outcomes

/-! ## Enough fuel -/

/-- What one depth gives the next holds from some depth on, if that which gives it does. -/
theorem eventually_succ {P Q : Nat → Prop} (h : ∀ᶠ k in Filter.atTop, P k)
    (hPQ : ∀ k, P k → Q (k + 1)) : ∀ᶠ k in Filter.atTop, Q k := by
  rcases Filter.eventually_atTop.1 h with ⟨start, hstart⟩
  refine Filter.eventually_atTop.2 ⟨start + 1, ?_⟩
  intro k hk
  rcases Nat.exists_eq_add_of_le' (Nat.one_le_of_lt hk) with ⟨k, rfl⟩
  exact hPQ k (hstart k (Nat.le_of_succ_le_succ hk))

end CommittedParsing
