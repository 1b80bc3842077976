import CommittedParsing.Proofs.Ensures

/-!
# What values gather on the way

A value may hold something of the stretch of the text that was read for it, such as its characters, or
spans in it. Where two stretches are one behind the other, what belongs to them is put together in order,
and it belongs to the whole stretch. So what the rounds of a repetition have gathered so far belongs to the
stretch that they have read so far, and this is the invariant of every loop.

Main statements:
* `Parser.carries_repeatFrom`, `Parser.carries_many1` — what the items of a repetition gather;
* `Parser.carries_chain`, `Parser.carries_operands` — what the operands and operators of a chain gather,
  while they are read, and when all are read.
-/

namespace CommittedParsing

open CommittedParsing.Parser Run Outcome

variable {α β γ σ : Type}

/-- What belongs to stretches of a text that are one behind the other belongs to the whole of them. -/
structure Gathers (R : Cursor → List γ → Cursor → Prop) : Prop where
  refl : ∀ c, R c [] c
  trans : ∀ {c d e xs ys}, R c xs d → R d ys e → R c (xs ++ ys) e

/-- The condition on outcomes: what the value of a success holds belongs to what was read for it. -/
def Outcome.Carries (R : Cursor → List γ → Cursor → Prop) (T : α → List γ) (c : Cursor) :
    Outcome α → Prop :=
  Meets (fun a rest => R c (T a) rest) fun _ => True

/-- What the pairs of a chain hold. -/
def pairsGathered (T : α → List γ) (T' : β → List γ) (pairs : List (β × α)) : List γ :=
  pairs.flatMap fun (operator, operand) => T' operator ++ T operand

namespace Parser

variable {R : Cursor → List γ → Cursor → Prop} {T : α → List γ} {T' : β → List γ} {n : Nat} {c d : Cursor}

/-- What a repetition has gathered so far belongs to what it has read so far. -/
theorem carries_repeatFrom (hR : Gathers R) {p : Parser α}
    (hp : ∀ c, (p n c).Ensures anyAbort (Carries R T c)) {past : List α}
    (hpast : R c (past.reverse.flatMap T) d) :
    (repeatFrom p past n d).Ensures anyAbort (Carries R (·.flatMap T) c) := by
  refine ensures_repeatFrom (I := fun _ past d => R c (past.reverse.flatMap T) d)
    (fun _ _ _ => trivial) ?_ hpast
  intro k past d hpast
  refine (hp d).mono ?_ fun _ _ => ⟨fun _ => trivial, fun _ => hpast⟩
  intro a rest ha
  have hnext : R c ((a :: past).reverse.flatMap T) rest := by
    simpa using hR.trans hpast ha
  exact ⟨fun _ => hnext, fun _ => hnext⟩

/-- A repetition of at least one item gathers what the first item and the others hold. -/
theorem carries_many1 (hR : Gathers R) {p : Parser α}
    (hp : ∀ c, (p n c).Ensures anyAbort (Carries R T c)) :
    (many1 p n c).Ensures anyAbort (Carries R (·.flatMap T) c) := by
  refine ensures_many1 (hp c) (fun _ he => he) ?_ ?_
  · intro a rest ha _
    simpa using ha
  · intro a rest ha _
    exact carries_repeatFrom hR hp (by simpa using ha)

/-- What the operands have come to so far belongs to what has been read so far, if it does where they
begin and each further pair is taken in. -/
theorem carries_chain (hR : Gathers R) {operand : Parser α} {operator : Parser β} {start : α → σ}
    {take : σ → β → α → Except Fault σ} {K : σ → Cursor → Prop}
    (hoperand : ∀ c, (operand n c).Ensures anyAbort (Carries R T c))
    (hoperator : ∀ c, (operator n c).Ensures anyAbort (Carries R T' c))
    (hstart : ∀ a d, R c (T a) d → K (start a) d)
    (htake : ∀ s d b a e s', K s d → R d (T' b ++ T a) e → take s b a = .ok s' → K s' e) :
    (chain operand operator start take n c).Ensures anyAbort (Meets K fun _ => True) := by
  refine ensures_chain (hoperand c) (fun _ he => he) ?_
  intro first d hfirst
  refine ensures_chainFrom (I := fun _ s d => K s d) (fun _ _ _ => trivial) ?_ (hstart first d hfirst)
  intro k s d hs
  refine (hoperator d).mono ?_ fun _ _ => ⟨fun _ => trivial, fun _ => hs⟩
  intro b afterOperator hb
  refine (hoperand afterOperator).mono ?_ fun _ _ => trivial
  intro a e ha
  exact .ofExcept_anyAbort fun s' htaken => htake s d b a e s' hs (hR.trans hb ha) htaken

/-- So do the operand and the pairs that are read for a fold from the right. -/
theorem carries_operands (hR : Gathers R) {operand : Parser α} {operator : Parser β}
    (hoperand : ∀ c, (operand n c).Ensures anyAbort (Carries R T c))
    (hoperator : ∀ c, (operator n c).Ensures anyAbort (Carries R T' c)) :
    (operands operand operator n c).Ensures anyAbort
      (Carries R (fun (first, pairs) => T first ++ pairsGathered T T' pairs) c) := by
  have hchain : (chain operand operator (fun first => (first, [])) takePair n c).Ensures anyAbort
      (Meets (fun read d => R c (T read.1 ++ pairsGathered T T' read.2.reverse) d) fun _ => True) := by
    refine carries_chain hR hoperand hoperator ?_ ?_
    · intro a d ha
      simpa [pairsGathered] using ha
    · rintro ⟨first, past⟩ d b a e _ hpast hpair ⟨⟩
      simpa [pairsGathered] using hR.trans hpast hpair
  exact ensures_map hchain fun _ _ hread => hread

end Parser

end CommittedParsing
