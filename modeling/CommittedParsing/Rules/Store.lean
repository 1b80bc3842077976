import CommittedParsing.Grammar.Syntax

/-!
# Stored rules

A rule is declared first and defined once. Handles refer to it: a strong handle keeps the rule
alive, a weak one does not. A definition holds the handles that its grammar refers to by name.

Main statements:
* `Store.resolve_eq_ok_iff`, `Store.resolve_eq_dropped_iff` — a handle runs exactly the definition that
  its rule holds, and dangles exactly if its rule has been freed;
* `Store.define_eq_ok_iff` — a definition is accepted exactly by a rule that has none;
* `Store.state_define_self`, `Store.state_define_of_ne` — and it changes no other rule.
-/

namespace CommittedParsing

/-! ## Handles and definitions -/

/-- A reference to a stored rule. -/
inductive Handle where
  /-- Keeps its rule alive. -/
  | strong (rule : Nat)
  /-- Forwards to its rule as long as that is alive. -/
  | weak (rule : Nat)
deriving DecidableEq, Repr

/-- The rule that a handle refers to. -/
def Handle.rule : Handle → Nat
  | strong rule | weak rule => rule

/-- The rule that a handle keeps alive. -/
def Handle.kept? : Handle → Option Nat
  | strong rule => some rule
  | weak _ => none

/-- Only a strong handle keeps its rule. -/
theorem Handle.kept?_eq_some_iff {h : Handle} {rule : Nat} :
    h.kept? = some rule ↔ h = .strong rule := by
  cases h <;> simp [kept?]

/-- A grammar with handles for the names that it refers to. -/
structure Definition where
  body : Grammar
  bindings : List (String × Handle)

/-- The rules that a definition keeps alive. -/
def Definition.kept (d : Definition) : List Nat := d.bindings.filterMap fun (_, h) => h.kept?

/-- A definition keeps the rules that it names strongly. -/
theorem Definition.mem_kept_iff {d : Definition} {rule : Nat} :
    rule ∈ d.kept ↔ ∃ name, (name, Handle.strong rule) ∈ d.bindings := by
  simp only [kept, List.mem_filterMap]
  constructor
  · rintro ⟨⟨name, h⟩, hmem, hkept⟩
    exact ⟨name, Handle.kept?_eq_some_iff.1 hkept ▸ hmem⟩
  · rintro ⟨name, hmem⟩
    exact ⟨_, hmem, rfl⟩

/-! ## Rules and their states -/

/-- How far a rule has come. -/
inductive RuleState where
  | declared
  | defined (definition : Definition)
  /-- Nothing kept the rule alive any more. -/
  | freed

/-- The rules that a rule keeps alive through its definition. -/
def RuleState.kept : RuleState → List Nat
  | defined d => d.kept
  | declared | freed => []

/-- All rules so far, in the order of their declaration. -/
structure Store where
  states : List RuleState

namespace Store

/-- No rules. -/
def empty : Store := ⟨[]⟩

/-- The state of a rule. -/
def state (s : Store) (rule : Nat) : RuleState := s.states[rule]?.getD .freed

/-- Declare a new rule, whose number is `s.size`. -/
def declare (s : Store) : Store := ⟨s.states ++ [.declared]⟩

/-- The number of rules declared so far. -/
def size (s : Store) : Nat := s.states.length

/-- The definition that a handle leads to. -/
def resolve (s : Store) (h : Handle) : Except Fault Definition :=
  match s.state h.rule with
  | .declared => .error .ruleUndefined
  | .defined d => .ok d
  | .freed => .error .ruleDropped

/-- Give a rule its definition through a handle. -/
def define (s : Store) (h : Handle) (d : Definition) : Except Fault Store :=
  match s.state h.rule with
  | .declared => .ok ⟨s.states.set h.rule (.defined d)⟩
  | .defined _ => .error .ruleRedefined
  | .freed => .error .ruleDropped

/-- A handle resolves exactly to what its rule is defined to be. -/
theorem resolve_eq_ok_iff {s : Store} {h : Handle} {d : Definition} :
    s.resolve h = .ok d ↔ s.state h.rule = .defined d := by
  unfold resolve
  split <;> simp_all

/-- It is refused as dropped exactly if its rule is gone. -/
theorem resolve_eq_dropped_iff {s : Store} {h : Handle} :
    s.resolve h = .error .ruleDropped ↔ s.state h.rule = .freed := by
  unfold resolve
  split <;> simp_all

/-- A definition is taken exactly by a rule that is declared and has none. -/
theorem define_eq_ok_iff {s t : Store} {h : Handle} {d : Definition} :
    s.define h d = .ok t ↔
      s.state h.rule = .declared ∧ t = ⟨s.states.set h.rule (.defined d)⟩ := by
  unfold define
  split
  next h => simp [h, eq_comm]
  next other h => simp [h]
  next h => simp [h]

theorem lt_size_of_state_ne_freed {s : Store} {rule : Nat} (h : s.state rule ≠ .freed) :
    rule < s.size := by
  unfold state at h
  by_cases hlt : rule < s.states.length
  · exact hlt
  · simp [List.getElem?_eq_none (Nat.le_of_not_lt hlt)] at h

theorem state_define_self {s t : Store} {h : Handle} {d : Definition} (ht : s.define h d = .ok t) :
    t.state h.rule = .defined d := by
  obtain ⟨hdeclared, rfl⟩ := define_eq_ok_iff.1 ht
  have hlt : h.rule < s.size := lt_size_of_state_ne_freed (by simp [hdeclared])
  have hlt' : h.rule < s.states.length := hlt
  simp [state, hlt']

theorem state_define_of_ne {s t : Store} {h : Handle} {d : Definition} (ht : s.define h d = .ok t)
    {rule : Nat} (hne : rule ≠ h.rule) : t.state rule = s.state rule := by
  obtain ⟨-, rfl⟩ := define_eq_ok_iff.1 ht
  simp [state, Ne.symm hne]

end Store

end CommittedParsing
