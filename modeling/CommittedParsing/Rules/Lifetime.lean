import CommittedParsing.Rules.Store

/-!
# Lifetime of rules

A rule lives as long as something keeps it: a root outside the store, or the definition of a rule
that is itself alive. Freeing a rule lets go of what its definition kept, so rules may fall in
turn; rules that keep one another in a circle are never freed.

Main statements:
* `Store.state_sweepOnce` — a round of freeing frees exactly the rules that nothing keeps;
* `Store.size_sweep` — freeing never forgets that a rule was declared.
-/

namespace CommittedParsing.Store

/-- The rules kept by the definitions of living rules. -/
def keptInside (s : Store) : List Nat := s.states.flatMap RuleState.kept

/-- Nothing keeps a rule: neither a root nor a definition. -/
def isLoose (s : Store) (roots : List Nat) (rule : Nat) : Bool :=
  !(roots.contains rule) && !(s.keptInside.contains rule)

/-- Free all rules that nothing keeps. -/
def sweepOnce (s : Store) (roots : List Nat) : Store :=
  ⟨s.states.mapIdx fun rule state => if s.isLoose roots rule then .freed else state⟩

/-- Free rules in rounds. -/
def sweepRounds (roots : List Nat) : Nat → Store → Store
  | 0, s => s
  | rounds + 1, s => sweepRounds roots rounds (s.sweepOnce roots)

/-- Free all rules that are not kept alive. Each round that matters frees a rule, so as many rounds
as there are rules are enough. -/
def sweep (s : Store) (roots : List Nat) : Store := sweepRounds roots s.size s

/-- A round of the sweep frees the rules that are loose, and only those. -/
theorem state_sweepOnce (s : Store) (roots : List Nat) (rule : Nat) :
    (s.sweepOnce roots).state rule =
      if s.isLoose roots rule then .freed else s.state rule := by
  simp only [state, sweepOnce, List.getElem?_mapIdx]
  cases s.states[rule]? <;> simp

theorem size_sweepRounds (roots : List Nat) (rounds : Nat) (s : Store) :
    (sweepRounds roots rounds s).size = s.size := by
  induction rounds generalizing s with
  | zero => rfl
  | succ rounds ih =>
    rw [sweepRounds, ih]
    simp [size, sweepOnce]

/-- A freed rule keeps its place, so the number of rules stays. -/
theorem size_sweep (s : Store) (roots : List Nat) : (s.sweep roots).size = s.size :=
  size_sweepRounds roots s.size s

end CommittedParsing.Store
