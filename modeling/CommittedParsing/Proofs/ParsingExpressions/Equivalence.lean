import CommittedParsing.Proofs.ParsingExpressions.Completeness

/-!
# Parsers and parsing expressions

Soundness and completeness together: where every choice is made between attempts, a parser is the
parsing expression of its grammar. What it comes to, diagnostics and commits aside, is the one
verdict that can be derived, whatever the fuel; what can be derived, it comes to.

Main statements:
* `Parses.unique` — a grammar that backtracks has at most one verdict at a place;
* `System.parsing_expressions` — a parser that ends has the one verdict of its grammar, and a parser
  whose grammar has a verdict ends.
-/

namespace CommittedParsing

open Run Outcome

variable {s : System} {d : Definition} {c : Cursor}

/-- An outcome has one verdict. -/
theorem Outcome.HasVerdict.eq {verdict : Verdict} {outcome : Outcome Value}
    (h : HasVerdict verdict outcome) : outcome.verdict = verdict := by
  cases outcome with
  | success v rest => exact h.symm
  | failure e => exact h.symm

/-- An outcome that is parsed is derived, with the verdict it has. -/
theorem Outcome.IsParsed.verdict {names : Names} {g : Grammar} {outcome : Outcome Value}
    (h : IsParsed s names g c outcome) : Parses s names g c outcome.verdict := by
  cases outcome with
  | success v rest => exact h
  | failure e => exact h

/-- A rule has one verdict at a cursor: both are the verdict of one run with enough fuel. -/
theorem Parses.unique (hs : s.Everywhere Grammar.Backtracks)
    (hd : d.body.Everywhere Grammar.Backtracks) {verdict verdict' : Verdict}
    (h : Parses s (Names.ofBindings d.bindings) d.body c verdict)
    (h' : Parses s (Names.ofBindings d.bindings) d.body c verdict') : verdict = verdict' := by
  -- both are the verdict of one run, with enough fuel for either
  rcases ((System.parses hs hd h).and (System.parses hs hd h')).exists with ⟨n, hn, hn'⟩
  rcases hn.exists_value with ⟨outcome, hending, houtcome⟩
  have houtcome' := hn'.post_of_value hending
  exact houtcome.eq.symm.trans houtcome'.eq

/-- Where every choice in a system is made between attempts, its parsers are the parsing expressions
of their grammars, at every place: a parser that ends, with any fuel, has come to the one verdict
that can be derived, and if one can be derived, the parser comes to it with any fuel from some
amount on. -/
theorem System.parsing_expressions (hs : s.Everywhere Grammar.Backtracks)
    (hd : d.body.Everywhere Grammar.Backtracks) (c : Cursor) :
    (∀ n outcome, (s.parser d n c).ending = .value outcome →
      ∀ verdict, Parses s (Names.ofBindings d.bindings) d.body c verdict ↔
        verdict = outcome.verdict) ∧
    ∀ verdict, Parses s (Names.ofBindings d.bindings) d.body c verdict →
      ∃ start, ∀ n ≥ start, ∃ outcome,
        (s.parser d n c).ending = .value outcome ∧ outcome.verdict = verdict := by
  constructor
  · intro n outcome hending verdict
    have hparsed := ((System.parsed hs hd n c).post_of_value hending).verdict
    constructor
    · exact fun h => h.unique hs hd hparsed
    · rintro rfl
      exact hparsed
  · intro verdict h
    rcases Filter.eventually_atTop.1 (System.parses hs hd h) with ⟨start, hstart⟩
    refine ⟨start, ?_⟩
    intro n hn
    rcases (hstart n hn).exists_value with ⟨outcome, hending, houtcome⟩
    exact ⟨outcome, hending, houtcome.eq⟩

/-- A rule for letters in brackets, any number of times: the third round has read a bracket and a
letter when it fails, and the repetition ends before it. -/
theorem brackets_are_parsed :
    let bracketed : Grammar := .surround (.literal '(') (.reference "rule") (.literal ')')
    let s : System :=
      ⟨⟨[.defined ⟨.or (.attempt bracketed) (.attempt (.literal 'x')), [("rule", .weak 0)]⟩]⟩, []⟩
    let d : Definition := ⟨.many (.attempt (.reference "rule")), [("rule", .strong 0)]⟩
    let c := Cursor.start (Source.ofString 0 "x(x)(xy")
    let verdict : Verdict := some (.list [.char 'x', .char 'x'], ⟨c.source, 4, ['(', 'x', 'y']⟩)
    s.Everywhere Grammar.Backtracks ∧ d.body.Everywhere Grammar.Backtracks ∧
      Parses s (Names.ofBindings d.bindings) d.body c verdict ∧
      ∃ start, ∀ n ≥ start, ∃ outcome,
        (s.parser d n c).ending = .value outcome ∧ outcome.verdict = verdict := by
  intro bracketed s d c verdict
  have hliteral : ∀ ch, (Grammar.literal ch).Everywhere Grammar.Backtracks :=
    fun _ => .intro trivial (by simp [Grammar.literal])
  have hreference : (Grammar.reference "rule").Everywhere Grammar.Backtracks :=
    .intro trivial (by simp)
  have hattempt : ∀ {g : Grammar}, g.Everywhere Grammar.Backtracks →
      (Grammar.attempt g).Everywhere Grammar.Backtracks :=
    fun hg => .intro trivial (by simp [hg])
  have hbracketed : bracketed.Everywhere Grammar.Backtracks :=
    .intro trivial (by simp [bracketed, Grammar.surround, hliteral, hreference])
  have hs : s.Everywhere Grammar.Backtracks := by
    refine System.Each.of_single (.intro ⟨⟨_, rfl⟩, ⟨_, rfl⟩⟩ ?_) _
    simp [hattempt hbracketed, hattempt (hliteral 'x')]
  have hd : d.body.Everywhere Grammar.Backtracks :=
    .intro ⟨_, rfl⟩ (by simp [d, hattempt hreference])
  have hrun : ∃ outcome, (s.parser d 6 c).ending = .value outcome ∧ outcome.verdict = verdict :=
    ⟨_, rfl, rfl⟩
  rcases hrun with ⟨outcome, hending, hverdict⟩
  have hequivalent := System.parsing_expressions hs hd c
  have hparses : Parses s (Names.ofBindings d.bindings) d.body c verdict :=
    (hequivalent.1 6 outcome hending verdict).2 hverdict.symm
  exact ⟨hs, hd, hparses, hequivalent.2 verdict hparses⟩

end CommittedParsing
