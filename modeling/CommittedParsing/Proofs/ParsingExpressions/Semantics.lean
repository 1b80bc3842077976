import CommittedParsing.Grammar.Forms
import CommittedParsing.Proofs.Comparison
import CommittedParsing.Proofs.Supply

/-!
# Grammars as parsing expressions

A grammar read as a parsing expression either yields a value and the place after it, or fails; there
are no diagnostics and no commits. An alternative is tried at the place where the one before it
failed, whatever that failure was; a repetition stops before the first round that fails, and after
one that does not move; an option never fails; and negative lookahead succeeds where its body fails.

Names are read in the scope of the grammar: a rule that the grammar ties stands for its own body,
with itself in scope, and a handle for the definition that its rule holds.

Main definitions:
* `Parses` — the rules of parsing expressions, one or two for each form of grammar;
* `Grammar.Backtracks` — every choice is made between attempts.
-/

namespace CommittedParsing

/-! ## Verdicts -/

/-- What parsing comes to, diagnostics and commits aside: a value with the place after it, or
nothing. -/
abbrev Verdict := Option (Value × Cursor)

/-- The verdict of an outcome. -/
def Outcome.verdict : Outcome Value → Verdict
  | success v rest => some (v, rest)
  | failure _ => none

/-! ## The rules -/

mutual

/-- A grammar comes to a verdict at a place. -/
inductive Parses (s : System) : Names → Grammar → Cursor → Verdict → Prop where
  | satisfy : c.value? = some ch → accepts ch = true →
      Parses s names (.satisfy accepts description) c (some (.char ch, c.next))
  | satisfy_none : (∀ ch, c.value? = some ch → accepts ch = false) →
      Parses s names (.satisfy accepts description) c none
  | text : c.rest = expected.toList ++ rest →
      Parses s names (.text expected) c (some (.string expected, c.skip expected.toList rest))
  | text_none : (∀ rest, c.rest ≠ expected.toList ++ rest) → Parses s names (.text expected) c none
  | endOfInput : c.atEnd = true → Parses s names .endOfInput c (some (.unit, c))
  | endOfInput_none : c.atEnd = false → Parses s names .endOfInput c none
  | pure : Parses s names (.pure v) c (some (v, c))
  | map : Parses s names body c (some (v, rest)) → change v = .ok w →
      Parses s names (.map body change) c (some (w, rest))
  | map_none : Parses s names body c none → Parses s names (.map body change) c none
  | filter : Parses s names body c (some (v, rest)) → accepts v = .ok true →
      Parses s names (.filter body accepts description) c (some (v, rest))
  | filter_rejected : Parses s names body c (some (v, rest)) → accepts v = .ok false →
      Parses s names (.filter body accepts description) c none
  | filter_none : Parses s names body c none →
      Parses s names (.filter body accepts description) c none
  /-- The grammar that is made of the first value decides. -/
  | bind {next : Value → Except Fault Grammar} :
      Parses s names first c (some (v, rest)) → next v = .ok g →
      Parses s names g rest verdict → Parses s names (.bind first captured next) c verdict
  | bind_none : Parses s names first c none →
      Parses s names (.bind first captured next) c none
  | seq2 : Parses s names first c (some (v, middle)) →
      Parses s names second middle (some (w, rest)) → combine v w = .ok joined →
      Parses s names (.seq2 first second combine) c (some (joined, rest))
  | seq2_none : Parses s names first c none → Parses s names (.seq2 first second combine) c none
  | seq2_second_none : Parses s names first c (some (v, middle)) →
      Parses s names second middle none → Parses s names (.seq2 first second combine) c none
  | seq3 : Parses s names first c (some (v, afterFirst)) →
      Parses s names second afterFirst (some (w, afterSecond)) →
      Parses s names third afterSecond (some (x, rest)) → combine v w x = .ok joined →
      Parses s names (.seq3 first second third combine) c (some (joined, rest))
  | seq3_none : Parses s names first c none →
      Parses s names (.seq3 first second third combine) c none
  | seq3_second_none : Parses s names first c (some (v, afterFirst)) →
      Parses s names second afterFirst none →
      Parses s names (.seq3 first second third combine) c none
  | seq3_third_none : Parses s names first c (some (v, afterFirst)) →
      Parses s names second afterFirst (some (w, afterSecond)) →
      Parses s names third afterSecond none →
      Parses s names (.seq3 first second third combine) c none
  /-- The first alternative, if it succeeds. -/
  | or : Parses s names first c (some result) → Parses s names (.or first second) c (some result)
  /-- Else the second, at the same place. -/
  | or_second : Parses s names first c none → Parses s names second c verdict →
      Parses s names (.or first second) c verdict
  /-- The first alternative that succeeds, those before it having failed at the same place. -/
  | choice {alternatives : Fin count → Grammar} (i : Fin count) :
      (∀ j < i, Parses s names (alternatives j) c none) →
      Parses s names (alternatives i) c (some result) →
      Parses s names (.choice count alternatives) c (some result)
  | choice_none {alternatives : Fin count → Grammar} :
      (∀ i, Parses s names (alternatives i) c none) →
      Parses s names (.choice count alternatives) c none
  /-- A repetition never fails. -/
  | many : Repeats s names body c items rest →
      Parses s names (.many body) c (some (.list items, rest))
  /-- A repetition that found something. -/
  | many1 : Repeats s names body c (v :: items) rest →
      Parses s names (.many1 body) c (some (.list (v :: items), rest))
  | many1_none : Parses s names body c none → Parses s names (.many1 body) c none
  | optional : Parses s names body c (some (v, rest)) →
      Parses s names (.optional body) c (some (.some v, rest))
  /-- An option never fails. -/
  | optional_none : Parses s names body c none →
      Parses s names (.optional body) c (some (.none, c))
  /-- Lookahead succeeds, without moving, where its body fails. -/
  | not : Parses s names body c none → Parses s names (.not body description) c (some (.unit, c))
  | not_none : Parses s names body c (some result) → Parses s names (.not body description) c none
  | attempt : Parses s names body c verdict → Parses s names (.attempt body) c verdict
  | label : Parses s names body c verdict → Parses s names (.label body description) c verdict
  | position : Parses s names body c (some (v, rest)) →
      Parses s names (.position body) c
        (some (.pair v (.span ⟨c.position, rest.position⟩), rest))
  | position_none : Parses s names body c none → Parses s names (.position body) c none
  | delayed : Parses s names body c verdict → Parses s names (.delayed body) c verdict
  /-- A named grammar is read in the scope of its call. -/
  | call : s.library.lookup name = some body → Parses s names body c verdict →
      Parses s names (.call name) c verdict
  | recursive : Parses s ((name, .tied body) :: names) body c verdict →
      Parses s names (.recursive name body) c verdict
  | reference_tied : Parses s ((name, .tied body) :: names) body c verdict →
      Parses s ((name, .tied body) :: names) (.reference name) c verdict
  | reference_stored : s.store.resolve handle = .ok d →
      Parses s (Names.ofBindings d.bindings) d.body c verdict →
      Parses s ((name, .stored handle) :: names) (.reference name) c verdict
  /-- A name is looked for outwards. -/
  | reference_outer : bound ≠ name → Parses s names (.reference name) c verdict →
      Parses s ((bound, referent) :: names) (.reference name) c verdict

/-- A repetition of a grammar yields values from one place to another. -/
inductive Repeats (s : System) : Names → Grammar → Cursor → List Value → Cursor → Prop where
  /-- It stops before the first round that fails. -/
  | stop : Parses s names body c none → Repeats s names body c [] c
  /-- A round that does not move is kept, and is the last. -/
  | still : Parses s names body c (some (v, rest)) → rest.position = c.position →
      Repeats s names body c [v] rest
  | more : Parses s names body c (some (v, middle)) → middle.position ≠ c.position →
      Repeats s names body middle items rest → Repeats s names body c (v :: items) rest

end

/-! ## Grammars that backtrack -/

namespace Grammar

/-- The grammar is an attempt. -/
def IsAttempt (g : Grammar) : Prop := ∃ body, g = attempt body

/-- What the grammar chooses between, goes on with or does without is an attempt, it is not a chain
or a list, and it is not a function of its own. -/
def Backtracks : Grammar → Prop
  | or first second => first.IsAttempt ∧ second.IsAttempt
  | choice _ alternatives => ∀ i, (alternatives i).IsAttempt
  | many body | many1 body | optional body => body.IsAttempt
  | custom _ | sepBy _ _ | chainLeft _ _ _ | chainRight _ _ _ => False
  | _ => True

/-- An attempt fails uncommitted. -/
theorem IsAttempt.ensures {call : String → Scope → Parser Value} {g : Grammar} (hg : g.IsAttempt)
    {scope : Scope} {n : Nat} {c : Cursor} {abort : Option Fault → Prop}
    {good : Value → Cursor → Prop} {bad : Failure → Prop}
    (h : (g.denote call scope n c).Ensures abort (Outcome.Meets good bad)) :
    (g.denote call scope n c).Ensures abort
      (Outcome.Meets good fun e => bad e ∧ e.consumed = false) := by
  rcases hg with ⟨body, rfl⟩
  change ((body.denote call scope n c).mapFailure Failure.uncommit).Ensures _ _ at h
  change ((body.denote call scope n c).mapFailure Failure.uncommit).Ensures _ _
  generalize body.denote call scope n c = r at h ⊢
  cases r using Run.outcome_cases with
  | success records v rest => exact h
  | failure records e => exact ⟨h, rfl⟩
  | fault records e => exact h
  | outOfFuel records => exact h

end Grammar

end CommittedParsing
