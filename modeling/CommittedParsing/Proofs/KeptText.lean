import CommittedParsing.Grammar.Forms
import CommittedParsing.Proofs.Comparison
import CommittedParsing.Proofs.Gathering

/-!
# Kept text

Nothing of the input is lost, doubled or moved. Where values are only put together in their order,
the text of the value of a success is the text that was read: what stands between the cursor at the
start and the cursor after it.

The condition on outcomes says this of one parser. It is kept by repetitions and chains because
their loops keep it of everything gathered so far, and by alternatives, options and lookahead because
each of them goes on from the cursor at which it began.

Main statements:
* `Value.chars_foldRight` — folding a chain from the right keeps its text;
* `Grammar.reads_its_text` — the law for one grammar, from the law for what it refers to;
* `System.text_between_cursors` — the law for every grammar of a system of rules.
-/

namespace CommittedParsing

open CommittedParsing.Parser Run Outcome

/-! ## Texts of chains -/

namespace Value

/-- The text of the pairs of a chain. -/
def pairsChars (pairs : List (Value × Value)) : List Char :=
  pairs.flatMap fun (operator, operand) => operator.chars ++ operand.chars

/-- The text of a chain: its first operand and its pairs. -/
def chainChars : Value × List (Value × Value) → List Char
  | (first, pairs) => first.chars ++ pairsChars pairs

/-- A way of joining two operands that puts the operator between them. -/
def KeepsOrder (fold : Value → Value → Value → Except Fault Value) : Prop :=
  ∀ operator left right v, fold operator left right = .ok v →
    v.chars = left.chars ++ (operator.chars ++ right.chars)

/-- A node with an operator has its text between those of the operands. -/
theorem keepsOrder_binary : KeepsOrder binary := by
  rintro operator left right _ ⟨⟩
  simp only [chars]

/-- A fold from the right, from the last pair on, puts one text before the other. -/
theorem chars_foldRight {fold : Value → Value → Value → Except Fault Value} (hfold : KeepsOrder fold)
    (first : Value) (pairs : List (Value × Value)) {v : Value}
    (hv : foldRightChecked fold first pairs = .ok v) : v.chars = chainChars (first, pairs) := by
  have hensures : (Run.ofExcept (foldRightChecked fold first pairs)).Ensures anyAbort
      fun v => v.chars = chainChars (first, pairs) := by
    refine ensures_foldRightChecked (V := fun first pairs v => v.chars = chainChars (first, pairs))
      (fun first => by simp [chainChars, pairsChars]) ?_ first pairs
    intro first operator operand pairs right hright
    refine .ofExcept_anyAbort fun v hv => ?_
    rw [hfold operator first right v hv, hright]
    simp [chainChars, pairsChars]
  rw [hv] at hensures
  exact hensures

end Value

/-! ## The condition -/

/-- The condition on outcomes: a success has read the text of its value. -/
def Outcome.ReadsText {α : Type} (T : α → List Char) (c : Cursor) : Outcome α → Prop :=
  Meets (fun a rest => c.Reads (T a) rest) fun _ => True

/-- Values are put together in their order, and none is made up or dropped. -/
def Grammar.KeepsText : Grammar → Prop
  | .pure v => v.chars = []
  | .map _ change => ∀ v w, change v = .ok w → w.chars = v.chars
  | .seq2 _ _ combine => ∀ a b v, combine a b = .ok v → v.chars = a.chars ++ b.chars
  | .seq3 _ _ _ combine =>
    ∀ a b d v, combine a b d = .ok v → v.chars = a.chars ++ (b.chars ++ d.chars)
  | .chainLeft _ _ fold | .chainRight _ _ fold => Value.KeepsOrder fold
  | .bind _ _ _ | .sepBy _ _ | .custom _ => False
  | _ => True

namespace Parser

variable {α β : Type} {T : α → List Char} {n : Nat} {c : Cursor}

/-- A change that leaves the text as it is. -/
theorem readsText_map {p : Parser α} {f : α → β} {T' : β → List Char}
    (hp : (p n c).Ensures anyAbort (ReadsText T c)) (hf : ∀ a, T' (f a) = T a) :
    (map f p n c).Ensures anyAbort (ReadsText T' c) := by
  refine ensures_map hp ?_
  intro a rest hread
  rw [hf]
  exact hread

/-- The same for a change that may hit a fault. -/
theorem readsText_mapChecked {p : Parser α} {f : α → Except Fault β} {T' : β → List Char}
    (hp : (p n c).Ensures anyAbort (ReadsText T c)) (hf : ∀ a b, f a = .ok b → T' b = T a) :
    (mapChecked f p n c).Ensures anyAbort (ReadsText T' c) := by
  refine ensures_mapChecked hp ?_
  intro a rest hread
  refine .ofExcept_anyAbort fun b hb => ?_
  rw [hf a b hb]
  exact hread

/-- Texts that are read one after the other are read as one. -/
theorem gathers_reads : Gathers Cursor.Reads := ⟨.refl, .trans⟩

/-- What a repetition has read so far is the text of the values so far. -/
theorem readsText_repeatFrom {p : Parser α} {past : List α} {c' : Cursor}
    (hp : ∀ c, (p n c).Ensures anyAbort (ReadsText T c))
    (hpast : c.Reads (past.reverse.flatMap T) c') :
    (repeatFrom p past n c').Ensures anyAbort (ReadsText (·.flatMap T) c) :=
  carries_repeatFrom gathers_reads hp hpast

/-- The items of a repetition together read the texts that they keep, one behind the other. -/
theorem readsText_many1 {p : Parser α} (hp : ∀ c, (p n c).Ensures anyAbort (ReadsText T c)) :
    (many1 p n c).Ensures anyAbort (ReadsText (·.flatMap T) c) :=
  carries_many1 gathers_reads hp

/-- What the operands have come to so far has the text that has been read so far. -/
theorem readsText_chainLeft {operand operator : Parser Value}
    {fold : Value → Value → Value → Except Fault Value} (hfold : Value.KeepsOrder fold)
    (hoperand : ∀ c, (operand n c).Ensures anyAbort (ReadsText Value.chars c))
    (hoperator : ∀ c, (operator n c).Ensures anyAbort (ReadsText Value.chars c)) :
    (chainLeftChecked operand operator fold n c).Ensures anyAbort (ReadsText Value.chars c) := by
  refine carries_chain (K := fun (v : Value) rest => c.Reads v.chars rest) gathers_reads hoperand hoperator
    (fun _ _ h => h) ?_
  intro left d operator right e v hleft hpair hv
  rw [hfold operator left right v hv]
  exact hleft.trans hpair

/-- A chain that folds from the right reads the text its value keeps, if folding keeps the order. -/
theorem readsText_chainRight {operand operator : Parser Value}
    {fold : Value → Value → Value → Except Fault Value} (hfold : Value.KeepsOrder fold)
    (hoperand : ∀ c, (operand n c).Ensures anyAbort (ReadsText Value.chars c))
    (hoperator : ∀ c, (operator n c).Ensures anyAbort (ReadsText Value.chars c)) :
    (chainRightChecked operand operator fold n c).Ensures anyAbort (ReadsText Value.chars c) := by
  have hoperands : (operands operand operator n c).Ensures anyAbort (ReadsText Value.chainChars c) :=
    carries_operands gathers_reads hoperand hoperator
  exact readsText_mapChecked hoperands fun (first, pairs) _ hv => Value.chars_foldRight hfold first pairs hv

end Parser

/-! ## The law for grammars -/

/-- The comparison for the law: the condition is on the first grammar alone. -/
def readingText : Comparison := Comparison.ensuring (Outcome.ReadsText Value.chars)

/-- A grammar that puts values together in their order follows the law if what it refers to does. -/
theorem Grammar.reads_its_text {g : Grammar} (hg : g.Everywhere KeepsText) :
    readingText.Grammars g g := by
  induction g with
  | satisfy accepts description =>
    intro _ _ _ _ _ n c
    refine readsText_map (T := fun ch => [ch]) ?_ fun _ => by simp only [Value.chars]
    exact ensures_satisfy (fun _ _ hrest _ => .skip hrest) trivial
  | text expected =>
    intro _ _ _ _ _ n c
    refine readsText_map (T := String.toList) ?_ fun _ => by simp only [Value.chars]
    exact ensures_text (fun _ hrest => .skip hrest) trivial
  | endOfInput =>
    intro _ _ _ _ _ n c
    refine readsText_map (T := fun _ => []) ?_ fun _ => by simp only [Value.chars]
    exact ensures_endOfInput (fun _ => .refl c) trivial
  | pure v =>
    intro _ _ _ _ _ n c
    have hv : v.chars = [] := hg.here
    show c.Reads v.chars c
    rw [hv]
    exact .refl c
  | custom parse => exact hg.here.elim
  | map body change ih =>
    intro _ _ _ _ hcontext n c
    exact readsText_mapChecked (ih (hg.part (by simp)) hcontext n c) hg.here
  | filter body accepts description ih =>
    intro _ _ _ _ hcontext n c
    refine ensures_filterChecked (ih (hg.part (by simp)) hcontext n c) ?_ trivial
    exact fun _ _ _ => .ofExcept_anyAbort fun _ _ => trivial
  | bind first captured next ihFirst ihNext => exact hg.here.elim
  | many body ih =>
    intro _ _ _ _ hcontext n c
    refine readsText_map ?_ Value.chars_gather
    exact readsText_repeatFrom (ih (hg.part (by simp)) hcontext n) (.refl c)
  | many1 body ih =>
    intro _ _ _ _ hcontext n c
    refine readsText_map ?_ Value.chars_gather
    exact readsText_many1 (ih (hg.part (by simp)) hcontext n)
  | or first second ihFirst ihSecond =>
    intro _ _ _ _ hcontext n c
    refine ensures_or (ihFirst (hg.part (by simp)) hcontext n c) (fun _ he _ => he) ?_
    exact fun _ _ _ => ihSecond (hg.part (by simp)) hcontext n c
  | choice count alternatives ih =>
    intro call _ scope _ hcontext n c
    have halternatives : ∀ p ∈ List.ofFn fun i => (alternatives i).denote call scope,
        (p n c).Ensures anyAbort (Outcome.ReadsText Value.chars c) := by
      intro p hp
      rcases List.mem_ofFn.1 hp with ⟨i, rfl⟩
      exact ih i (hg.part (by simp)) hcontext n c
    exact ensures_choiceAfter (G := fun _ => True) halternatives (fun _ _ _ _ _ => trivial)
      (fun _ _ _ _ _ => trivial) (fun _ _ => trivial) trivial
  | attempt body ih =>
    intro _ _ _ _ hcontext n c
    exact ensures_attempt (ih (hg.part (by simp)) hcontext n c) fun _ _ => trivial
  | seq2 first second combine ihFirst ihSecond =>
    intro _ _ _ _ hcontext n c
    refine readsText_mapChecked (T := fun both => both.1.chars ++ both.2.chars) ?_
      fun both => hg.here both.1 both.2
    refine ensures_seq2 (ihFirst (hg.part (by simp)) hcontext n c) (fun _ he => he) ?_
    intro a afterFirst ha
    refine (ihSecond (hg.part (by simp)) hcontext n afterFirst).mono ?_ fun _ _ => trivial
    exact fun b rest hb => ha.trans hb
  | seq3 first second third combine ihFirst ihSecond ihThird =>
    intro _ _ _ _ hcontext n c
    refine readsText_mapChecked (T := fun all => all.1.chars ++ (all.2.1.chars ++ all.2.2.chars)) ?_
      fun all => hg.here all.1 all.2.1 all.2.2
    refine ensures_seq3 (ihFirst (hg.part (by simp)) hcontext n c) (fun _ he => he) ?_
    intro a afterFirst ha
    refine (ihSecond (hg.part (by simp)) hcontext n afterFirst).mono ?_ fun _ _ => trivial
    intro b afterSecond hb
    refine (ihThird (hg.part (by simp)) hcontext n afterSecond).mono ?_ fun _ _ => trivial
    exact fun d rest hd => ha.trans (hb.trans hd)
  | optional body ih =>
    intro _ _ _ _ hcontext n c
    -- an option that is absent has been read where it would have begun
    refine readsText_map (T := fun v => (Value.ofOption v).chars) ?_ fun _ => rfl
    refine ensures_optional (ih (hg.part (by simp)) hcontext n c) ?_ (fun _ he _ => he) ?_
    · intro v rest hread
      simpa only [Value.ofOption, Value.chars] using hread
    · simpa only [Value.ofOption, Value.chars] using Cursor.Reads.refl c
  | not body description ih =>
    intro _ _ _ _ hcontext n c
    -- what was looked at is not read: a success is at the cursor where it began
    refine readsText_map (T := fun _ => []) ?_ fun _ => by simp only [Value.chars]
    exact ensures_not (ih (hg.part (by simp)) hcontext n c) (.refl c) trivial
  | sepBy item separator ihItem ihSeparator => exact hg.here.elim
  | label body description ih =>
    intro _ _ _ _ hcontext n c
    exact ensures_label (ih (hg.part (by simp)) hcontext n c) (fun _ he _ => he) trivial
  | position body ih =>
    intro _ _ _ _ hcontext n c
    refine readsText_map (T := fun pair => pair.1.chars) ?_ ?_
    · exact ensures_position (ih (hg.part (by simp)) hcontext n c) fun _ _ hread => hread
    · rintro ⟨v, s⟩
      simp only [Value.withSpan, Value.chars, List.append_nil]
  | chainLeft operand operator fold ihOperand ihOperator =>
    intro _ _ _ _ hcontext n c
    exact readsText_chainLeft hg.here (ihOperand (hg.part (by simp)) hcontext n)
      (ihOperator (hg.part (by simp)) hcontext n)
  | chainRight operand operator fold ihOperand ihOperator =>
    intro _ _ _ _ hcontext n c
    exact readsText_chainRight hg.here (ihOperand (hg.part (by simp)) hcontext n)
      (ihOperator (hg.part (by simp)) hcontext n)
  | delayed body ih => exact Comparison.Grammars.delayed (ih (hg.part (by simp)))
  | call name => exact Comparison.Grammars.call name
  | recursive name body ih => exact Comparison.Grammars.recursive (ih (hg.part (by simp))) name
  | reference name => exact Comparison.Grammars.reference name

/-- Between two valid cursors of which the second is reached by reading a text stands that text. -/
theorem Cursor.Reads.slice? {c d : Cursor} {cs : List Char} (h : c.Reads cs d) (hc : c.Valid) :
    (⟨c.position, d.position⟩ : Span).slice? c.source.text = some cs := by
  rcases hc with ⟨before, htext, hposition⟩
  refine Span.slice?_eq_some_iff.2 ⟨before, d.rest, ?_, hposition, h.position_eq.symm⟩
  rw [htext, h.1, List.append_assoc]

/-- Where every grammar of a system puts values together in their order, a success stays in the
source, and the text of its value is exactly what the source has between the two cursors. -/
theorem System.text_between_cursors {s : System} (hs : s.Everywhere Grammar.KeepsText)
    {d : Definition} (hd : d.body.Everywhere Grammar.KeepsText) {n : Nat} {c : Cursor}
    (hc : c.Valid) {v : Value} {rest : Cursor}
    (hsuccess : (s.parser d n c).ending = .value (.success v rest)) :
    rest.source = c.source ∧ rest.Valid ∧
      (⟨c.position, rest.position⟩ : Span).slice? c.source.text = some v.chars := by
  have hread : c.Reads v.chars rest :=
    (System.ensures_parser (fun _ => Grammar.reads_its_text) hs hd n c).post_of_value hsuccess
  exact ⟨hread.source_eq, hread.valid hc, hread.slice? hc⟩

/-- A power of numbers, begun after the first character, which takes two bytes. -/
theorem text_of_power_after_byte_two :
    let s : System := ⟨⟨[.defined ⟨.seq2 .digit (.many .digit) Value.cons, []⟩]⟩, []⟩
    let power := Grammar.chainRight (.reference "number") (.literal '^') Value.binary
    let d : Definition :=
      ⟨.seq3 power (.optional (.literal ';')) .endOfInput fun a b d => Value.concat [a, b, d],
        [("number", .strong 0)]⟩
    let source := Source.ofString 0 "é12^3;"
    let c := (Cursor.start source).next
    let rest : Cursor := ⟨source, 7, []⟩
    s.Everywhere Grammar.KeepsText ∧ d.body.Everywhere Grammar.KeepsText ∧ c.Valid ∧
      (s.parser d 5 c).ending = .value (.success (.string "12^3;") rest) ∧
      (⟨c.position, rest.position⟩ : Span).slice? c.source.text =
        some (Value.string "12^3;").chars := by
  intro s power d source c rest
  have hliteral : ∀ ch, (Grammar.literal ch).Everywhere Grammar.KeepsText :=
    fun _ => .intro trivial (by simp [Grammar.literal])
  have hdigit : Grammar.digit.Everywhere Grammar.KeepsText :=
    .intro trivial (by simp [Grammar.digit])
  have hs : s.Everywhere Grammar.KeepsText := by
    have hdigits : (Grammar.many .digit).Everywhere Grammar.KeepsText :=
      .intro trivial (by simp [hdigit])
    refine System.Each.of_single (.intro ?_ (by simp [hdigit, hdigits])) []
    rintro a b _ ⟨⟩
    exact Value.chars_cons a b
  have hd : d.body.Everywhere Grammar.KeepsText := by
    have hnumber : (Grammar.reference "number").Everywhere Grammar.KeepsText :=
      .intro trivial (by simp)
    have hpower : power.Everywhere Grammar.KeepsText :=
      .intro Value.keepsOrder_binary (by simp [power, hnumber, hliteral])
    have hoptional : (Grammar.optional (.literal ';')).Everywhere Grammar.KeepsText :=
      .intro trivial (by simp [hliteral])
    have hend : Grammar.endOfInput.Everywhere Grammar.KeepsText := .intro trivial (by simp)
    refine .intro ?_ (by simp [d, hpower, hoptional, hend])
    rintro a b d _ ⟨⟩
    simp [Value.chars_concat]
  have hc : c.Valid := (Cursor.valid_start source).next
  have hsuccess : (s.parser d 5 c).ending = .value (.success (.string "12^3;") rest) := rfl
  exact ⟨hs, hd, hc, hsuccess, (System.text_between_cursors hs hd hc hsuccess).2.2⟩

end CommittedParsing
