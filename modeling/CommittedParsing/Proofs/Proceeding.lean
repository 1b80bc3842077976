import CommittedParsing.Proofs.Ensures

/-!
# Parsers that proceed

From a place between two characters a parser proceeds to another such place, which is not before it.
All combinators do, if the functions of the cursor that they are made of do; where a parser has ended,
a span begins at or before its end.

What is known of a value may speak of the stretch that it was read from, which is told by the bytes at
its ends. So what is known of the parts of a sequence is that they were read one behind the other. And
where the functions of a parser come to results on all values that are known in this way, what is left of
the ways of not coming to an outcome is what the parser refers to, and the fuel.

Unlike `Parser.ReadsOn`, this admits functions of the cursor that skip text in ways of their own.

Main statements:
* `Cursor.LeadsTo.trans` — proceeding twice;
* `InOrder.concat`, `Joined.concat` — what a loop has read so far, and one round more;
* `Parser.Proceeds.repeatFrom`, `Parser.Proceeds.chain` — the loops proceed by their invariants.
-/

namespace CommittedParsing

open CommittedParsing.Parser Run Outcome

/-! ## Places -/

/-- The second cursor is at a valid place, and not before the first. -/
structure Cursor.LeadsTo (c rest : Cursor) : Prop where
  valid : rest.Valid
  forward : c.position ≤ rest.position

namespace Cursor.LeadsTo

variable {c middle rest : Cursor} {cs : List Char}

theorem refl (hc : c.Valid) : c.LeadsTo c := ⟨hc, Nat.le_refl _⟩

/-- What leads on from where the first has led is led to by the first. -/
theorem trans (h : c.LeadsTo middle) (h' : middle.LeadsTo rest) : c.LeadsTo rest where
  valid := h'.valid
  forward := Nat.le_trans h.forward h'.forward

/-- Reading on leads to where the text that was read ends. -/
theorem of_reads (hc : c.Valid) (h : c.Reads cs rest) : c.LeadsTo rest where
  valid := h.valid hc
  forward := by
    have := h.position_eq
    omega

/-- One character further on is a valid place again. -/
theorem next (hc : c.Valid) : c.LeadsTo c.next where
  valid := hc.next
  forward := by
    cases hrest : c.rest with
    | nil => simp [next_of_nil hrest]
    | cons ch rest =>
      have hposition : c.next.position = c.position + Text.byteLength [ch] := by
        rw [next_of_cons hrest]
        rfl
      omega

end Cursor.LeadsTo

/-! ## Stretches -/

variable {α β γ δ σ : Type}

/-- Items read one behind the other within a stretch, with what is known of each and of its own stretch. There
may be gaps between them. -/
inductive InOrder (I : Nat → Nat → α → Prop) : Nat → Nat → List α → Prop where
  | nil {start stop : Nat} : start ≤ stop → InOrder I start stop []
  | cons {start i j stop : Nat} {a : α} {items : List α} : start ≤ i → I i j a →
      InOrder I j stop items → InOrder I start stop (a :: items)

/-- An operand and the pairs of an operator and an operand behind it, without gaps. -/
inductive Joined (I : Nat → Nat → α → Prop) (J : Nat → Nat → β → Prop) :
    Nat → Nat → α → List (β × α) → Prop where
  | nil {start stop : Nat} {first : α} : I start stop first → Joined I J start stop first []
  | cons {start i j stop : Nat} {first operand : α} {operator : β} {pairs : List (β × α)} :
      I start i first → J i j operator → Joined I J j stop operand pairs →
      Joined I J start stop first ((operator, operand) :: pairs)

section Stretches

variable {I : Nat → Nat → α → Prop} {J : Nat → Nat → β → Prop} {start i j stop : Nat}

/-- One item more, at the end of the stretch or behind it. -/
theorem InOrder.concat {items : List α} (h : InOrder I start i items) (hle : i ≤ j) {a : α}
    (ha : I j stop a) : InOrder I start stop (items ++ [a]) := by
  induction h with
  | nil hstart => exact .cons (Nat.le_trans hstart hle) ha (.nil (Nat.le_refl stop))
  | cons hstart hfirst _ ih => exact .cons hstart hfirst (ih hle)

/-- One more operator and operand behind the last are joined as well. -/
theorem Joined.concat {first : α} {pairs : List (β × α)} (h : Joined I J start i first pairs)
    {operator : β} {operand : α} (hoperator : J i j operator) (hoperand : I j stop operand) :
    Joined I J start stop first (pairs ++ [(operator, operand)]) := by
  induction h with
  | nil hfirst => exact .cons hfirst hoperator (.nil hoperand)
  | cons hfirst hbetween _ ih => exact .cons hfirst hbetween (ih hoperator)

/-- A fold from the right comes to a result if each operator does, on an operand and on what is to the right
of it. -/
theorem Joined.foldRight {K : Nat → Nat → α → Prop} {fold : β → α → α → Except Fault α}
    (hlast : ∀ i j a, I i j a → K i j a)
    (hfold : ∀ start i j stop operator left right, I start i left → J i j operator → K j stop right →
      ∃ result, fold operator left right = .ok result ∧ K start stop result)
    {first : α} {pairs : List (β × α)} (h : Joined I J start stop first pairs) :
    ∃ result, foldRightChecked fold first pairs = .ok result ∧ K start stop result := by
  induction h with
  | nil hfirst => exact ⟨_, foldRightChecked_nil fold _, hlast _ _ _ hfirst⟩
  | cons hfirst hoperator _ ih =>
    obtain ⟨right, hright, hkept⟩ := ih
    obtain ⟨result, hresult, hK⟩ := hfold _ _ _ _ _ _ _ hfirst hoperator hkept
    refine ⟨result, ?_, hK⟩
    rw [foldRightChecked_cons, hright]
    exact hresult

end Stretches

/-! ## The condition -/

/-- The condition on outcomes: a success has proceeded, and its value is known in terms of the stretch. -/
def Outcome.Proceeds (I : Nat → Nat → α → Prop) (c : Cursor) : Outcome α → Prop :=
  Meets (fun a rest => I c.position rest.position a ∧ c.LeadsTo rest) fun _ => True

/-- From every valid cursor, with any fuel, the parser meets the condition, or ends without an outcome
in a way that is allowed. -/
def Parser.Proceeds (abort : Option Fault → Prop) (I : Nat → Nat → α → Prop) (p : Parser α) : Prop :=
  ∀ n c, c.Valid → (p n c).Ensures abort (Outcome.Proceeds I c)

/-! ## The combinators -/

namespace Parser.Proceeds

variable {abort : Option Fault → Prop} {I : Nat → Nat → α → Prop} {J : Nat → Nat → β → Prop}
  {K : Nat → Nat → γ → Prop} {p : Parser α} {q : Parser β} {r : Parser γ}

/-- Less may be known. -/
theorem imp (hp : p.Proceeds abort I) {I' : Nat → Nat → α → Prop}
    (himp : ∀ i j a, I i j a → I' i j a) : p.Proceeds abort I' := by
  intro n c hc
  apply (hp n c hc).mono
  · exact fun a rest h => ⟨himp _ _ a h.1, h.2⟩
  · exact fun _ _ => trivial

/-- The character that is read is one that is accepted. -/
theorem satisfy (accepts : Char → Bool) (description : String) :
    (Parser.satisfy accepts description).Proceeds abort fun i j ch => i ≤ j ∧ accepts ch = true := by
  intro n c hc
  refine ensures_satisfy ?_ trivial
  intro ch rest hrest haccepts
  have hleads : c.LeadsTo (c.skip [ch] rest) := .of_reads hc (.skip hrest)
  exact ⟨⟨hleads.forward, haccepts⟩, hleads⟩

/-- The text that is read is the one that is expected. -/
theorem text (expected : String) :
    (Parser.text expected).Proceeds abort fun i j word => i ≤ j ∧ word = expected := by
  intro n c hc
  refine ensures_text ?_ trivial
  intro rest hrest
  have hleads : c.LeadsTo (c.skip expected.toList rest) := .of_reads hc (.skip hrest)
  exact ⟨⟨hleads.forward, rfl⟩, hleads⟩

/-- The end is looked at, and nothing is read. -/
theorem endOfInput : Parser.endOfInput.Proceeds abort fun i j _ => i = j := by
  intro n c hc
  refine ensures_endOfInput ?_ trivial
  intro _
  exact ⟨rfl, .refl hc⟩

/-- A value is returned where the parser stands. -/
theorem pure (a : α) : (Parser.pure a).Proceeds abort fun i j b => i = j ∧ b = a := by
  intro n c hc
  exact Ensures.of_succeed ⟨⟨rfl, rfl⟩, .refl hc⟩

/-- What a change makes of the value is known if it is known of every value before the change. -/
theorem map (hp : p.Proceeds abort I) {f : α → β} (hf : ∀ i j a, I i j a → J i j (f a)) :
    (p.map f).Proceeds abort J := by
  intro n c hc
  refine ensures_map (hp n c hc) ?_
  rintro a rest ⟨ha, hrest⟩
  exact ⟨hf _ _ a ha, hrest⟩

/-- A change that may fault does not fault on a value of which the condition is known. -/
theorem mapChecked (hp : p.Proceeds abort I) {f : α → Except Fault β}
    (hf : ∀ i j a, I i j a → ∃ b, f a = .ok b ∧ J i j b) : (p.mapChecked f).Proceeds abort J := by
  intro n c hc
  refine ensures_mapChecked (hp n c hc) ?_
  rintro a rest ⟨ha, hrest⟩
  obtain ⟨b, hb, hJ⟩ := hf _ _ a ha
  rw [hb]
  exact ⟨hJ, hrest⟩

/-- Of a value that is accepted it is known that it is. -/
theorem filterChecked (hp : p.Proceeds abort I) {I' : Nat → Nat → α → Prop}
    {accepts : α → Except Fault Bool} (description : String)
    (haccepts : ∀ i j a, I i j a → ∃ accepted, accepts a = .ok accepted ∧ (accepted = true → I' i j a)) :
    (p.filterChecked accepts description).Proceeds abort I' := by
  intro n c hc
  refine (hp n c hc).andThen ?_ fun _ _ => trivial
  rintro a rest ⟨ha, hrest⟩
  obtain ⟨accepted, haccepted, hkept⟩ := haccepts _ _ a ha
  rw [haccepted]
  change (if accepted = true then Run.succeed a rest else Run.fail _).Ensures abort _
  split
  next h => exact Ensures.of_succeed ⟨hkept h, hrest⟩
  next => exact Ensures.of_fail trivial

/-- A span is in order, since the parse of the value has proceeded. -/
theorem position (hp : p.Proceeds abort I) :
    (Parser.position p).Proceeds abort fun i j result =>
      i ≤ j ∧ I i j result.1 ∧ result.2 = ⟨i, j⟩ := by
  intro n c hc
  refine ensures_position (hp n c hc) ?_
  rintro a rest ⟨ha, hrest⟩
  exact ⟨⟨hrest.forward, ha, rfl⟩, hrest⟩

/-! ### Sequences -/

/-- Two values are had one behind the other, with a place between them. -/
theorem and (hp : p.Proceeds abort I) (hq : q.Proceeds abort J) :
    (Parser.and p q).Proceeds abort fun i k pair => ∃ j, I i j pair.1 ∧ J j k pair.2 := by
  intro n c hc
  refine ensures_seq2 (hp n c hc) (fun _ _ => trivial) ?_
  rintro a middle ⟨ha, hmiddle⟩
  apply (hq n middle hmiddle.valid).mono
  · rintro b rest ⟨hb, hrest⟩
    exact ⟨⟨middle.position, ha, hb⟩, hmiddle.trans hrest⟩
  · exact fun _ _ => trivial

theorem triple (hp : p.Proceeds abort I) (hq : q.Proceeds abort J) (hr : r.Proceeds abort K) :
    (Parser.seq3 p q r fun a b d => (a, b, d)).Proceeds abort fun i l triple =>
      ∃ j k, I i j triple.1 ∧ J j k triple.2.1 ∧ K k l triple.2.2 := by
  intro n c hc
  refine ensures_seq3 (hp n c hc) (fun _ _ => trivial) ?_
  rintro a afterFirst ⟨ha, hfirst⟩
  apply (hq n afterFirst hfirst.valid).mono
  · rintro b afterSecond ⟨hb, hsecond⟩
    apply (hr n afterSecond hsecond.valid).mono
    · rintro d rest ⟨hd, hrest⟩
      exact ⟨⟨_, _, ha, hb, hd⟩, (hfirst.trans hsecond).trans hrest⟩
    · exact fun _ _ => trivial
  · exact fun _ _ => trivial

/-- What a binder goes on with begins where the first parser has ended, and what is known of its value may
depend on the value and on the stretch of the first. -/
theorem bind (hp : p.Proceeds abort I) {next : α → Parser β} {L : Nat → Nat → α → Nat → Nat → β → Prop}
    (hnext : ∀ i j a, I i j a → (next a).Proceeds abort (L i j a))
    (hJ : ∀ i j k a b, I i j a → L i j a j k b → J i k b) : (Parser.bind p next).Proceeds abort J := by
  intro n c hc
  refine ensures_bind (hp n c hc) (fun _ _ => trivial) ?_
  rintro a middle ⟨ha, hmiddle⟩
  apply (hnext _ _ a ha n middle hmiddle.valid).mono
  · rintro b rest ⟨hb, hrest⟩
    exact ⟨hJ _ _ _ a b ha hb, hmiddle.trans hrest⟩
  · exact fun _ _ => trivial

/-! ### Alternatives and marks -/

/-- Whichever alternative succeeds, the condition holds of its value. -/
theorem or {q : Parser α} (hp : p.Proceeds abort I) (hq : q.Proceeds abort I) :
    (Parser.or p q).Proceeds abort I := by
  intro n c hc
  apply ensures_or (hp n c hc)
  · exact fun _ _ _ => trivial
  · exact fun _ _ _ => hq n c hc

theorem choice {ps : List (Parser α)} (hps : ∀ p ∈ ps, p.Proceeds abort I) :
    (Parser.choice ps).Proceeds abort I := by
  intro n c hc
  exact ensures_choiceAfter (G := fun _ => True) (fun p hp => hps p hp n c hc)
    (fun _ _ _ _ _ => trivial) (fun _ _ _ _ _ => trivial) (fun _ _ => trivial) trivial

theorem attempt (hp : p.Proceeds abort I) : (Parser.attempt p).Proceeds abort I := by
  intro n c hc
  exact ensures_attempt (hp n c hc) fun _ _ => trivial

theorem label (hp : p.Proceeds abort I) (description : String) :
    (Parser.label description p).Proceeds abort I := by
  intro n c hc
  exact ensures_label (hp n c hc) (fun _ _ _ => trivial) trivial

/-- Where nothing was found, the parser stands where it began. -/
theorem optional (hp : p.Proceeds abort I) :
    (Parser.optional p).Proceeds abort fun i j found =>
      (∀ a, found = some a → I i j a) ∧ (found = none → i = j) := by
  intro n c hc
  refine ensures_optional (hp n c hc) ?_ (fun _ _ _ => trivial) ⟨by simp, .refl hc⟩
  rintro a rest ⟨ha, hrest⟩
  exact ⟨by simpa using ha, hrest⟩

/-- Looking ahead goes nowhere. -/
theorem not (hp : p.Proceeds abort I) (description : String) :
    (Parser.not description p).Proceeds abort fun i j _ => i = j := by
  intro n c hc
  exact ensures_not (hp n c hc) ⟨rfl, .refl hc⟩ trivial

/-! ### Repetitions and chains -/

section Loops

variable (hfuel : abort none)
include hfuel

/-- Round by round the items are in order, and the cursor has proceeded. -/
theorem repeatFrom (hp : p.Proceeds abort I) {past : List α} {start : Cursor} {n : Nat} {c : Cursor}
    (hpast : InOrder I start.position c.position past.reverse) (hc : start.LeadsTo c) :
    (Parser.repeatFrom p past n c).Ensures abort (Outcome.Proceeds (InOrder I) start) := by
  refine ensures_repeatFrom (I := fun _ past middle =>
      InOrder I start.position middle.position past.reverse ∧ start.LeadsTo middle)
    (fun _ _ _ => hfuel) ?_ ⟨hpast, hc⟩
  rintro k past middle ⟨hpast, hmiddle⟩
  apply (hp n middle hmiddle.valid).mono
  · rintro a rest ⟨ha, hrest⟩
    have hitems : InOrder I start.position rest.position (a :: past).reverse := by
      rw [List.reverse_cons]
      exact hpast.concat (Nat.le_refl _) ha
    have hleads := hmiddle.trans hrest
    exact ⟨fun _ => ⟨hitems, hleads⟩, fun _ => ⟨hitems, hleads⟩⟩
  · exact fun _ _ => ⟨fun _ => trivial, fun _ => ⟨hpast, hmiddle⟩⟩

/-- The values of a repetition stand in order. -/
theorem many (hp : p.Proceeds abort I) : (Parser.many p).Proceeds abort (InOrder I) := by
  intro n c hc
  exact repeatFrom hfuel hp (.nil (Nat.le_refl _)) (.refl hc)

theorem many1 (hp : p.Proceeds abort I) : (Parser.many1 p).Proceeds abort (InOrder I) := by
  intro n c hc
  have hone : ∀ a (rest : Cursor), I c.position rest.position a →
      InOrder I c.position rest.position [a] :=
    fun a rest ha => .cons (Nat.le_refl _) ha (.nil (Nat.le_refl _))
  apply ensures_many1 (hp n c hc) fun _ _ => trivial
  · rintro a rest ⟨ha, hrest⟩ _
    exact ⟨hone a rest ha, hrest⟩
  · rintro a rest ⟨ha, hrest⟩ _
    exact repeatFrom hfuel hp (hone a rest ha) hrest

/-- What the operands have come to so far is known in terms of what has been read so far, if it is where they
begin and each further pair is taken in. -/
theorem chain (hp : p.Proceeds abort I) (hq : q.Proceeds abort J) {S : Nat → Nat → σ → Prop}
    {start : α → σ} {take : σ → β → α → Except Fault σ} (hstart : ∀ i j a, I i j a → S i j (start a))
    (htake : ∀ i j k l s b a, S i j s → j ≤ k → J j k b → I k l a →
      ∃ t, take s b a = .ok t ∧ S i l t) :
    (Parser.chain p q start take).Proceeds abort S := by
  intro n c hc
  refine ensures_chain (hp n c hc) (fun _ _ => trivial) ?_
  rintro first afterFirst ⟨hfirst, hleads⟩
  -- the invariant of a round: the state has its condition from the start of the chain to here
  refine ensures_chainFrom
    (I := fun _ s middle => S c.position middle.position s ∧ c.LeadsTo middle)
    (fun _ _ _ => hfuel) ?_ ⟨hstart _ _ first hfirst, hleads⟩
  rintro k s middle ⟨hs, hmiddle⟩
  apply (hq n middle hmiddle.valid).mono
  · rintro b afterOperator ⟨hb, hoperator⟩
    apply (hp n afterOperator hoperator.valid).mono
    · rintro a rest ⟨ha, hrest⟩
      obtain ⟨t, ht, hkept⟩ := htake _ _ _ _ s b a hs hoperator.forward hb ha
      rw [ht]
      exact ⟨hkept, (hmiddle.trans hoperator).trans hrest⟩
    · exact fun _ _ => trivial
  · exact fun _ _ => ⟨fun _ => trivial, fun _ => ⟨hs, hmiddle⟩⟩

/-- The items of a list with separators are in order, with gaps for the separators. -/
theorem sepBy (hp : p.Proceeds abort I) (hq : q.Proceeds abort J) :
    (Parser.sepBy p q).Proceeds abort (InOrder I) := by
  have hread : (Parser.chain p q (fun item => [item]) takeItem).Proceeds abort
      fun i j items => InOrder I i j items.reverse := by
    apply chain hfuel hp hq
    · exact fun i j a ha => .cons (Nat.le_refl i) ha (.nil (Nat.le_refl j))
    · intro i j k l items b a hitems hle _ ha
      refine ⟨a :: items, rfl, ?_⟩
      rw [List.reverse_cons]
      exact hitems.concat hle ha
  exact hread.map fun _ _ _ hitems => hitems

/-- The operands and operators of a chain are joined one to the next. -/
theorem operands (hp : p.Proceeds abort I) (hq : q.Proceeds abort J) :
    (Parser.operands p q).Proceeds abort fun i j read => Joined I J i j read.1 read.2 := by
  have hread : (Parser.chain p q (fun first => (first, [])) takePair).Proceeds abort
      fun i j read => Joined I J i j read.1 read.2.reverse := by
    apply chain hfuel hp hq
    · exact fun i j a ha => .nil ha
    · intro i j k l read b a hread _ hb ha
      refine ⟨_, rfl, ?_⟩
      rw [List.reverse_cons]
      exact hread.concat hb ha
  exact hread.map fun _ _ _ hread => hread

/-- From the left each operator takes what the operands before it have come to. -/
theorem chainLeft {K : Nat → Nat → α → Prop} {fold : β → α → α → Except Fault α}
    (hp : p.Proceeds abort I) (hq : q.Proceeds abort J) (hfirst : ∀ i j a, I i j a → K i j a)
    (hfold : ∀ i j k l operator left right, K i j left → J j k operator → I k l right →
      ∃ result, fold operator left right = .ok result ∧ K i l result) :
    (Parser.chainLeftChecked p q fold).Proceeds abort K :=
  chain hfuel hp hq hfirst fun i j k l left operator right hleft _ =>
    hfold i j k l operator left right hleft

/-- From the right it takes what the operands behind it come to. -/
theorem chainRight {K : Nat → Nat → α → Prop} {fold : β → α → α → Except Fault α}
    (hp : p.Proceeds abort I) (hq : q.Proceeds abort J) (hlast : ∀ i j a, I i j a → K i j a)
    (hfold : ∀ i j k l operator left right, I i j left → J j k operator → K k l right →
      ∃ result, fold operator left right = .ok result ∧ K i l result) :
    (Parser.chainRightChecked p q fold).Proceeds abort K :=
  (operands hfuel hp hq).mapChecked fun _ _ _ hread => hread.foldRight hlast hfold

end Loops

end Parser.Proceeds

end CommittedParsing
