import CommittedParsing.Grammar.Forms
import CommittedParsing.Proofs.Comparison

/-!
# Uncommitted failures

A failure that may be backtracked over never got past its start. Where nothing clears a commit, a
failure is either committed or all of its diagnostics are at the byte where the parse began.

Sequences, bindings, chains and lists commit every failure after their first step; repetitions and
optional parsers only fail committed; a test that rejects a value commits. What is left are the
first steps, and these begin where the whole begins.

Main statements:
* `Grammar.stays_at_start` — the law for one grammar, from the law for what it refers to;
* `System.uncommitted_failure_at_start` — the law for every grammar of a system of rules.
-/

namespace CommittedParsing

open CommittedParsing.Parser Run Outcome

/-- If the failure is not committed, every diagnostic is at the given byte. -/
def Failure.StaysAt (position : Nat) (e : Failure) : Prop :=
  e.consumed = false → ∀ d ∈ e.diagnostics, d.position = position

namespace Failure

variable {position : Nat} {e f : Failure}

/-- Nothing is asked of a failure that is committed. -/
theorem staysAt_of_consumed (h : e.consumed = true) : e.StaysAt position := by
  intro hfalse
  rw [h] at hfalse
  cases hfalse

theorem staysAt_commit : e.commit.StaysAt position := staysAt_of_consumed rfl

/-- A failure on the spot expects something where it stands. -/
theorem staysAt_expected (description : String) :
    (expected description position).StaysAt position := by
  intro _ d hd
  rw [List.mem_singleton.1 hd]

theorem staysAt_empty : empty.StaysAt position := by
  intro _ d hd
  cases hd

/-- The diagnostics of the first are kept, so it must be known not to be committed. -/
theorem StaysAt.merge (he : e.StaysAt position) (hconsumed : e.consumed = false)
    (hf : f.StaysAt position) : (e.merge f).StaysAt position := by
  intro hmerged d hd
  rcases List.mem_append.1 hd with hd | hd
  · exact he hconsumed d hd
  · exact hf hmerged d hd

end Failure

/-- The condition on outcomes: nothing is asked of a success. -/
def Outcome.StaysAt {α : Type} (c : Cursor) : Outcome α → Prop :=
  Meets (fun _ _ => True) (Failure.StaysAt c.position)

/-- Neither does the grammar clear commits, nor is it a function of its own. -/
def Grammar.LeavesCommits : Grammar → Prop
  | .attempt _ | .custom _ => False
  | _ => True

namespace Parser

variable {α β σ : Type} {n : Nat} {c : Cursor}

/-- A sequence of any kind stays where its first step does: after it, every failure is committed. -/
theorem staysAt_andThen {r : Run (Outcome α)} {next : α → Cursor → Run (Outcome β)}
    (hr : r.Ensures anyAbort (Outcome.StaysAt c))
    (hnext : ∀ a rest, (next a rest).Ensures anyAbort (Outcome.StaysAt c)) :
    (r.andThen next).Ensures anyAbort (Outcome.StaysAt c) :=
  hr.andThen (fun a rest _ => hnext a rest) fun _ he => he

/-- A run whose failure is committed meets the condition. -/
theorem staysAt_commit (r : Run (Outcome α)) :
    r.commit.Ensures anyAbort (Outcome.StaysAt c) := by
  have hr : r.Ensures anyAbort (Meets (fun _ _ => True) fun _ => True) :=
    Ensures.of_forall (fun _ _ => trivial) fun _ => trivial
  exact hr.mapFailure fun _ _ => Failure.staysAt_commit

/-- A repetition fails committed or not at all. -/
theorem staysAt_repeatFrom (p : Parser α) (past : List α) (n : Nat) (start : Cursor) :
    (repeatFrom p past n start).Ensures anyAbort (Outcome.StaysAt c) := by
  refine ensures_repeatFrom (fun _ _ _ => trivial) (I := fun _ _ _ => True) ?_ trivial
  intro k past c' _
  refine Ensures.of_forall (fun _ _ => ⟨fun _ => trivial, fun _ => trivial⟩) ?_
  exact fun e => ⟨Failure.staysAt_of_consumed, fun _ => trivial⟩

/-- After its first operand a chain fails only committed. -/
theorem staysAt_chain {operand : Parser α} (operator : Parser β) (start : α → σ)
    (take : σ → β → α → Except Fault σ) (h : (operand n c).Ensures anyAbort (Outcome.StaysAt c)) :
    (chain operand operator start take n c).Ensures anyAbort (Outcome.StaysAt c) := by
  have hfirst : (operand n c).Ensures anyAbort (Meets (fun _ _ => True) (Failure.StaysAt c.position)) := h
  refine ensures_chain hfirst (fun _ he => he) ?_
  intro first rest _
  refine ensures_chainFrom (fun _ _ _ => trivial) (I := fun _ _ _ => True) ?_ trivial
  intro k s middle _
  refine Ensures.of_forall (fun b afterOperator => ?_) ?_
  · refine Ensures.of_forall (fun a rest => ?_) fun _ => Failure.staysAt_commit
    exact .ofExcept_anyAbort fun _ _ => trivial
  · exact fun e => ⟨Failure.staysAt_of_consumed, fun _ => trivial⟩

/-- What is done with a value at the end makes no failure. -/
theorem staysAt_map {p : Parser α} (f : α → β) (h : (p n c).Ensures anyAbort (Outcome.StaysAt c)) :
    (map f p n c).Ensures anyAbort (Outcome.StaysAt c) :=
  staysAt_andThen h fun _ _ => trivial

/-- A change of the value makes no failure. -/
theorem staysAt_mapChecked {p : Parser α} (f : α → Except Fault β)
    (h : (p n c).Ensures anyAbort (Outcome.StaysAt c)) :
    (mapChecked f p n c).Ensures anyAbort (Outcome.StaysAt c) := by
  refine ensures_mapChecked h ?_
  exact fun _ _ _ => .ofExcept_anyAbort fun _ _ => trivial

end Parser

/-! ## The law for grammars -/

/-- The comparison for the law: the condition is on the first grammar alone. -/
def stayingAtStart : Comparison := Comparison.ensuring fun c => Outcome.StaysAt c

open Failure in
/-- A grammar in which nothing clears a commit follows the law if what it refers to does. -/
theorem Grammar.stays_at_start {g : Grammar} (hg : g.Everywhere LeavesCommits) :
    stayingAtStart.Grammars g g := by
  induction g with
  | satisfy accepts description =>
    intro _ _ _ _ _ n c
    exact staysAt_map _ (ensures_satisfy (fun _ _ _ _ => trivial) (staysAt_expected _))
  | text expected =>
    intro _ _ _ _ _ n c
    exact staysAt_map _ (ensures_text (fun _ _ => trivial) (staysAt_expected _))
  | endOfInput =>
    intro _ _ _ _ _ n c
    exact staysAt_map _ (ensures_endOfInput (fun _ => trivial) (staysAt_expected _))
  | pure value => exact fun _ _ _ => trivial
  | custom parse => exact hg.here.elim
  | map body change ih =>
    intro _ _ _ _ hcontext n c
    exact staysAt_mapChecked _ (ih (hg.part (by simp)) hcontext n c)
  | filter body accepts description ih =>
    intro _ _ _ _ hcontext n c
    refine ensures_filterChecked (ih (hg.part (by simp)) hcontext n c) ?_ staysAt_commit
    exact fun _ _ _ => .ofExcept_anyAbort fun _ _ => trivial
  | bind first captured next ihFirst ihNext =>
    intro _ _ _ _ hcontext n c
    refine ensures_bind (ihFirst (hg.part (by simp)) hcontext n c) (fun _ he => he) ?_
    -- whatever is made, its failures are committed
    exact fun _ _ _ => Ensures.of_forall (fun _ _ => trivial) fun _ => staysAt_commit
  | many body ih =>
    intro _ _ _ _ hcontext n c
    exact staysAt_map _ (staysAt_repeatFrom _ _ n c)
  | many1 body ih =>
    intro _ _ _ _ hcontext n c
    refine staysAt_map _ (staysAt_andThen (ih (hg.part (by simp)) hcontext n c) ?_)
    intro v rest
    split
    · trivial
    · exact staysAt_repeatFrom _ _ n rest
  | or first second ihFirst ihSecond =>
    intro _ _ _ _ hcontext n c
    refine ensures_or (ihFirst (hg.part (by simp)) hcontext n c) (fun _ he _ => he) ?_
    intro e he hconsumed
    exact (ihSecond (hg.part (by simp)) hcontext n c).mono (fun _ _ _ => trivial)
      fun later hlater => he.merge hconsumed hlater
  | choice count alternatives ih =>
    intro call _ scope _ hcontext n c
    have halternatives : ∀ p ∈ List.ofFn fun i => (alternatives i).denote call scope,
        (p n c).Ensures anyAbort (Outcome.StaysAt c) := by
      intro p hp
      rcases List.mem_ofFn.1 hp with ⟨i, rfl⟩
      exact ih i (hg.part (by simp)) hcontext n c
    -- the failures gathered so far are uncommitted, or the search would have stopped
    refine ensures_choiceAfter (G := fun f => f.consumed = false ∧ f.StaysAt c.position)
      halternatives ?_ ?_ ?_ ⟨rfl, staysAt_empty⟩
    · exact fun f e hf he _ => hf.2.merge hf.1 he
    · exact fun f e hf he hconsumed => ⟨hconsumed, hf.2.merge hf.1 he⟩
    · exact fun f hf => hf.2
  | attempt body ih => exact hg.here.elim
  | seq2 first second combine ihFirst ihSecond =>
    intro _ _ _ _ hcontext n c
    refine staysAt_mapChecked _ (staysAt_andThen (ihFirst (hg.part (by simp)) hcontext n c) ?_)
    exact fun _ _ => staysAt_andThen (Parser.staysAt_commit _) fun _ _ => trivial
  | seq3 first second third combine ihFirst ihSecond ihThird =>
    intro _ _ _ _ hcontext n c
    refine staysAt_mapChecked _ (staysAt_andThen (ihFirst (hg.part (by simp)) hcontext n c) fun _ _ => ?_)
    refine staysAt_andThen (Parser.staysAt_commit _) fun _ _ => ?_
    exact staysAt_andThen (Parser.staysAt_commit _) fun _ _ => trivial
  | optional body ih =>
    intro _ _ _ _ hcontext n c
    exact staysAt_map _ (ensures_optional (ih (hg.part (by simp)) hcontext n c)
      (fun _ _ _ => trivial) (fun _ he _ => he) trivial)
  | not body description ih =>
    intro _ _ _ _ hcontext n c
    exact staysAt_map _ (ensures_not (ih (hg.part (by simp)) hcontext n c) trivial
      (staysAt_expected _))
  | sepBy item separator ihItem ihSeparator =>
    intro _ _ _ _ hcontext n c
    refine staysAt_map _ (staysAt_map _ ?_)
    exact staysAt_chain _ _ _ (ihItem (hg.part (by simp)) hcontext n c)
  | label body description ih =>
    intro _ _ _ _ hcontext n c
    exact ensures_label (ih (hg.part (by simp)) hcontext n c) (fun _ he _ => he)
      (staysAt_expected _)
  | position body ih =>
    intro _ _ _ _ hcontext n c
    exact staysAt_map _ (ensures_position (ih (hg.part (by simp)) hcontext n c)
      fun _ _ _ => trivial)
  | chainLeft operand operator fold ihOperand ihOperator =>
    intro _ _ _ _ hcontext n c
    exact staysAt_chain _ _ _ (ihOperand (hg.part (by simp)) hcontext n c)
  | chainRight operand operator fold ihOperand ihOperator =>
    intro _ _ _ _ hcontext n c
    refine staysAt_mapChecked _ (staysAt_map _ ?_)
    exact staysAt_chain _ _ _ (ihOperand (hg.part (by simp)) hcontext n c)
  | delayed body ih => exact Comparison.Grammars.delayed (ih (hg.part (by simp)))
  | call name => exact Comparison.Grammars.call name
  | recursive name body ih => exact Comparison.Grammars.recursive (ih (hg.part (by simp))) name
  | reference name => exact Comparison.Grammars.reference name

/-- Where no grammar of a system clears commits, a failure that is not committed has all of its
diagnostics at the byte where the parse began; so a failure with a diagnostic elsewhere is
committed. -/
theorem System.uncommitted_failure_at_start {s : System} (hs : s.Everywhere Grammar.LeavesCommits)
    {d : Definition} (hd : d.body.Everywhere Grammar.LeavesCommits) {n : Nat} {c : Cursor}
    {e : Failure} (he : (s.parser d n c).ending = .value (.failure e)) :
    (e.consumed = false → ∀ x ∈ e.diagnostics, x.position = c.position) ∧
      ((∃ x ∈ e.diagnostics, x.position ≠ c.position) → e.consumed = true) := by
  have hstays : e.StaysAt c.position :=
    (System.ensures_parser (fun _ => Grammar.stays_at_start) hs hd n c).post_of_value he
  refine ⟨hstays, ?_⟩
  rintro ⟨x, hx, hne⟩
  cases hconsumed : e.consumed with
  | true => rfl
  | false => exact absurd (hstays hconsumed x hx) hne

/-- A rule is one of two alternatives; both fail, uncommitted, at the byte where they began. -/
theorem uncommitted_failure_at_byte_one :
    let s : System := ⟨⟨[.defined ⟨.literal 'c', []⟩]⟩, []⟩
    let d : Definition :=
      ⟨.or (.and (.literal 'a') (.literal 'b')) (.reference "rule"), [("rule", .strong 0)]⟩
    let c := (Cursor.start (Source.ofString 0 "ax")).next
    let e : Failure := ⟨[⟨"'a'", 1⟩, ⟨"'c'", 1⟩], false⟩
    s.Everywhere Grammar.LeavesCommits ∧ d.body.Everywhere Grammar.LeavesCommits ∧
      (s.parser d 3 c).ending = .value (.failure e) ∧
      (e.consumed = false → ∀ x ∈ e.diagnostics, x.position = c.position) ∧
      ((∃ x ∈ e.diagnostics, x.position ≠ c.position) → e.consumed = true) := by
  intro s d c e
  have hliteral : ∀ ch, (Grammar.literal ch).Everywhere Grammar.LeavesCommits :=
    fun _ => .intro trivial (by simp [Grammar.literal])
  have hs : s.Everywhere Grammar.LeavesCommits := System.Each.of_single (hliteral 'c') []
  have hd : d.body.Everywhere Grammar.LeavesCommits := by
    have hboth : (Grammar.and (.literal 'a') (.literal 'b')).Everywhere Grammar.LeavesCommits :=
      .intro trivial (by simp [Grammar.and, hliteral])
    have hrule : (Grammar.reference "rule").Everywhere Grammar.LeavesCommits :=
      .intro trivial (by simp)
    exact .intro trivial (by simp [d, hboth, hrule])
  have he : (s.parser d 3 c).ending = .value (.failure e) := rfl
  exact ⟨hs, hd, he, System.uncommitted_failure_at_start hs hd he⟩

end CommittedParsing
