import CommittedParsing.Parser.Entry
import CommittedParsing.Proofs.Arithmetic.Completeness
import CommittedParsing.Proofs.Arithmetic.Printing
import CommittedParsing.Proofs.Arithmetic.Soundness
import CommittedParsing.Rules.System

/-!
# Parsing whole texts of arithmetic

A parse of a whole text returns. It succeeds exactly on the texts of the language, at their end and
with the value of the tree that the text is derived with, and fails on all others.

Main statements:
* `ensures_program` — what succeeds is derived;
* `DerivesProgram.parsed` — what is derived succeeds;
* `DerivesProgram.unique` — a text is derived with one tree at most;
* `program_parses_language` — both, with what it says of printed trees.
-/

namespace CommittedParsing.Arithmetic

open CommittedParsing.Parser Run Outcome

variable {call : String → Scope → Parser Value} {n : Nat} {c : Cursor}

/-- The cursor behind a whole source. -/
def finish (source : Source) : Cursor := (Cursor.start source).skip source.text []

/-- The end of the input is found only where nothing is left. -/
theorem ensures_end (hc : c.Valid) :
    (Grammar.endOfInput.denote call [] n c).Ensures noAbort
      (Meets (fun _ d => d = c ∧ c.rest = []) fun _ => True) := by
  have hend : (Parser.endOfInput n c).Ensures noAbort
      (Meets (fun _ d => d = c ∧ c.rest = []) fun _ => True) :=
    ensures_endOfInput (fun hend => ⟨rfl, hc.atEnd_iff.1 hend⟩) trivial
  exact ensures_map hend fun _ _ h => h

/-- Where the program succeeds, it has read a text of the language up to the end of the source. -/
theorem ensures_program (hc : c.Valid) (hn : c.rest.length + 2 < n) :
    (program.denote call [] n c).Ensures noAbort
      (Meets (fun v d => d = c.skip c.rest [] ∧ ∃ t, DerivesProgram c.rest t ∧ t.value = v)
        fun _ => True) := by
  have hblanks : ((Grammar.many .whitespace).denote call [] n c).Ensures noAbort
      (Meets (fun _ d => ReadsToken c [] d) fun _ => True) := by
    rw [Grammar.whitespace, many_satisfy (by omega)]
    exact Ensures.of_succeed (readsToken_skipWhile (.refl c))
  rw [program, Grammar.denote_seq3]
  refine ensures_seq3 hblanks (fun _ _ => trivial) ?_
  rintro _ c' ⟨blanks, hblanks⟩
  have hlength := hblanks.length_eq
  refine (ensures_expression (by omega)).mono ?_ fun _ _ => trivial
  rintro _ d ⟨text, t, hread, hderives, rfl⟩
  have hwhole := hblanks.trans hread
  refine (ensures_end (hwhole.valid hc)).mono ?_ fun _ _ => trivial
  rintro _ _ ⟨rfl, hend⟩
  have hrest : c.rest = blanks.chars ++ text := by simpa [hend] using hwhole.1
  refine ⟨?_, t, ⟨blanks, text, hrest, hderives⟩, rfl⟩
  rw [hwhole.2, hend, hrest]
  rfl

/-- A text of the language is read up to the end of the source. -/
theorem DerivesProgram.parsed {t : Tree} (h : DerivesProgram c.rest t) (hc : c.Valid)
    (hn : c.rest.length + 2 < n) :
    program.denote call [] n c = Run.succeed t.value (c.skip c.rest []) := by
  rcases h with ⟨blanks, text, hrest, hderives⟩
  let c' := c.skip blanks.chars text
  have hlength : c.rest.length = blanks.chars.length + text.length := by
    rw [hrest, List.length_append]
  -- the blanks in front, the expression, and the end, from where each of them begins
  have hblanks : (Grammar.many .whitespace).denote call [] n c =
      Run.succeed (.list ((c.rest.takeWhile isBlank).map .char)) c' := by
    have hhead := hderives.head_not_blank []
    rw [List.append_nil] at hhead
    rw [Grammar.whitespace, many_satisfy (by omega), skipWhile_blanks hrest hhead]
  have hexpression : expression.denote call [] n c' =
      Run.succeed t.value (c.skip c.rest []) := by
    have htaken : Taken (.tier .sum) text t c.rest.length (expression.denote call [] n) :=
      hderives.taken_by_expression hn
    rw [htaken c' [] (List.append_nil text).symm .nil (by simp only [c', Cursor.rest_skip]; omega),
      Cursor.skip_skip, ← hrest]
  have hend : Grammar.endOfInput.denote call [] n (c.skip c.rest []) =
      Run.succeed .unit (c.skip c.rest []) := by
    have hvalid : (c.skip c.rest []).Valid := hc.skip (List.append_nil _).symm
    have hatEnd : (c.skip c.rest []).atEnd = true := hvalid.atEnd_iff.2 rfl
    show (Parser.endOfInput n (c.skip c.rest [])).andThen _ = _
    rw [Parser.endOfInput, if_pos hatEnd]
    rfl
  rw [program, Grammar.denote_seq3]
  show ((Grammar.many .whitespace).denote call [] n c).andThen _ = _
  rw [hblanks]
  show (expression.denote call [] n c').commit.andThen _ = _
  rw [hexpression]
  show (Grammar.endOfInput.denote call [] n (c.skip c.rest [])).commit.andThen _ = _
  rw [hend]
  rfl

/-- A text is derived with one tree at most. -/
theorem DerivesProgram.unique {text : List Char} {t t' : Tree} (h : DerivesProgram text t)
    (h' : DerivesProgram text t') : t = t' := by
  let c := Cursor.start { identity := 0, text }
  let call : String → Scope → Parser Value := fun _ _ => Parser.fault .ruleUndefined
  have hc : c.Valid := Cursor.valid_start _
  have hparsed : program.denote call [] (text.length + 3) c =
      Run.succeed t.value (c.skip text []) := DerivesProgram.parsed h hc (Nat.lt_succ_self _)
  have hparsed' : program.denote call [] (text.length + 3) c =
      Run.succeed t'.value (c.skip text []) := DerivesProgram.parsed h' hc (Nat.lt_succ_self _)
  have hsame : Run.succeed t.value (c.skip text []) = Run.succeed t'.value (c.skip text []) :=
    hparsed.symm.trans hparsed'
  injection hsame with _ hending
  injection hending with houtcome
  injection houtcome with hvalue _
  exact Tree.value_injective hvalue

/-- With fuel for the length of the text, the parse of a source returns. It succeeds exactly on the
texts of the language, at the end and with the value of the tree that the text is derived with, and
fails on all others. In particular it gives back every tree that was printed, however the tokens
were spelled. -/
theorem program_parses_language (source : Source) (fuel : Nat)
    (hfuel : source.text.length + 3 ≤ fuel) :
    ∃ outcome, (program.parser.parse source fuel).ending = .value outcome ∧
      (∀ v rest, outcome = .success v rest ↔
        rest = finish source ∧ ∃ t, DerivesProgram source.text t ∧ t.value = v) ∧
      ((¬ ∃ t, DerivesProgram source.text t) → ∃ e, outcome = .failure e) ∧
      (∀ (t : Tree) (blanks : Blanks) (text : List Char), Spells (t.tokens (.tier .sum)) text →
        source.text = blanks.chars ++ text → outcome = .success t.value (finish source)) := by
  let c := Cursor.start source
  have hc : c.Valid := Cursor.valid_start source
  have hn : c.rest.length + 2 < fuel := hfuel
  have hcomplete : ∀ t, DerivesProgram source.text t →
      (program.parser fuel c).ending = .value (.success t.value (finish source)) := by
    intro t ht
    have hparsed : program.parser fuel c = Run.succeed t.value (finish source) :=
      DerivesProgram.parsed ht hc hn
    rw [hparsed]
    rfl
  have hsound : (program.parser fuel c).Ensures noAbort
      (Meets (fun v rest => rest = finish source ∧ ∃ t, DerivesProgram source.text t ∧ t.value = v)
        fun _ => True) := ensures_program hc hn
  rw [ending_parse]
  rcases hsound.exists_value with ⟨outcome, houtcome, hmeets⟩
  have hderived : ∀ t, DerivesProgram source.text t →
      outcome = .success t.value (finish source) := by
    intro t ht
    have hsame := houtcome.symm.trans (hcomplete t ht)
    exact Ending.value.inj hsame
  -- what is derived is the outcome, and what the outcome says is derived
  refine ⟨outcome, houtcome, ?_, ?_, ?_⟩
  · intro v rest
    constructor
    · rintro rfl
      exact hmeets
    · rintro ⟨rfl, t, ht, rfl⟩
      exact hderived t ht
  · intro hnone
    cases outcome with
    | success v rest =>
      rcases hmeets with ⟨_, t, ht, _⟩
      exact absurd ⟨t, ht⟩ hnone
    | failure e => exact ⟨e, rfl⟩
  · intro t blanks text hspells htext
    exact hderived t ⟨blanks, text, htext, hspells.derives⟩

/-- A difference in brackets as the left operand of a product, with some blanks. -/
theorem parses_product_of_difference :
    let digit (d : Char) (hd : d.isDigit = true) : Tree := .number ⟨[d], by simp, by simpa using hd⟩
    let t : Tree :=
      .binary .times (.binary .minus (digit '7' rfl) (digit '2' rfl)) (digit '3' rfl)
    let source := Source.ofString 0 " (7 -2)* 3"
    source.text.length + 3 ≤ 13 ∧
      (program.parser.parse source 13).ending = .value (.success t.value (finish source)) := by
  intro digit t source
  let none : Blanks := ⟨[], by simp⟩
  let space : Blanks := ⟨[' '], by simp [isBlank]⟩
  have hspells : Spells (t.tokens (.tier .sum)) "(7 -2)* 3".toList :=
    .cons ['('] none (.cons ['7'] space (.cons ['-'] none (.cons ['2'] none (.cons [')'] none
      (.cons ['*'] space (.cons ['3'] none .nil))))))
  have hfuel : source.text.length + 3 ≤ 13 := by decide
  rcases program_parses_language source 13 hfuel with ⟨outcome, houtcome, _, _, hprinted⟩
  rw [houtcome, hprinted t space _ hspells rfl]
  exact ⟨hfuel, rfl⟩

end CommittedParsing.Arithmetic
