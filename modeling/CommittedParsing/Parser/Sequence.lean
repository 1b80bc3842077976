import CommittedParsing.Parser.Basic

/-!
# Sequences

One parser after another. A sequence is committed as soon as its first parser has succeeded, even
if that consumed nothing: every later failure is a committed one.

Main statements:
* `Parser.seq2_eq_bind` — a sequence of two is a binding whose second parser is always the same;
* `Parser.bind_bind` — bindings may be grouped either way.
-/

namespace CommittedParsing.Parser

variable {α β γ δ : Type}

/-! ## Binding and sequences -/

/-- Choose the next parser from the value of the first. -/
protected def bind (p : Parser α) (next : α → Parser β) : Parser β :=
  fun n c => (p n c).andThen fun a rest => (next a n rest).commit

/-- Two parsers in order, their values combined. -/
def seq2 (p : Parser α) (q : Parser β) (combine : α → β → γ) : Parser γ :=
  fun n c =>
    (p n c).andThen fun a afterFirst =>
      (q n afterFirst).commit.andThen fun b rest =>
        Run.succeed (combine a b) rest

/-- Three parsers in order, their values combined. -/
def seq3 (p : Parser α) (q : Parser β) (r : Parser γ) (combine : α → β → γ → δ) : Parser δ :=
  fun n c =>
    (p n c).andThen fun a afterFirst =>
      (q n afterFirst).commit.andThen fun b afterSecond =>
        (r n afterSecond).commit.andThen fun d rest =>
          Run.succeed (combine a b d) rest

/-- Two parsers in order, both values kept. -/
def and (p : Parser α) (q : Parser β) : Parser (α × β) := seq2 p q Prod.mk

/-- A parser and a trailer whose value is dropped. -/
def skipTrailing (p : Parser α) (trailer : Parser β) : Parser α := seq2 p trailer fun a _ => a

/-- A parser between two delimiters whose values are dropped. -/
def surround (opening : Parser α) (inner : Parser β) (closing : Parser γ) : Parser β :=
  seq3 opening inner closing fun _ b _ => b

/-! ## Laws -/

/-- A sequence of two is a binder that changes what comes second. -/
theorem seq2_eq_bind (p : Parser α) (q : Parser β) (combine : α → β → γ) :
    seq2 p q combine = p.bind fun a => q.map (combine a) := by
  funext n c
  simp only [seq2, Parser.bind, map, Run.commit, Run.mapFailure_andThen, Run.mapFailure_succeed]

theorem bind_bind (p : Parser α) (f : α → Parser β) (g : β → Parser γ) :
    (p.bind f).bind g = p.bind fun a => (f a).bind g := by
  funext n c
  have hcommit : ∀ (b : β) (rest : Cursor),
      ((g b n rest).mapFailure Failure.commit).mapFailure Failure.commit =
        (g b n rest).mapFailure Failure.commit := fun b rest => Run.commit_commit _
  simp only [Parser.bind, Run.andThen_assoc, Run.commit, Run.mapFailure_andThen, hcommit]

/-- To pair and then to combine is to combine. -/
theorem map_and (p : Parser α) (q : Parser β) (combine : α → β → γ) :
    ((and p q).map fun (a, b) => combine a b) = seq2 p q combine := by
  funext n c
  simp only [and, seq2, map, Run.andThen_assoc, Run.succeed_andThen]

theorem map_seq3 (p : Parser α) (q : Parser β) (r : Parser γ) (combine : α → β → γ → δ) :
    ((seq3 p q r fun a b d => (a, b, d)).map fun (a, b, d) => combine a b d) = seq3 p q r combine := by
  funext n c
  simp only [seq3, map, Run.andThen_assoc, Run.succeed_andThen]

end CommittedParsing.Parser
