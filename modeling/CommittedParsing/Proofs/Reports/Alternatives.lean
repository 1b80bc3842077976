import CommittedParsing.Parser.Character
import CommittedParsing.Parser.Sequence
import CommittedParsing.Proofs.OrderedChoice
import CommittedParsing.Proofs.Reports.Located
import Mathlib.Data.List.OfFn

/-!
# Reports of alternatives

Where all alternatives fail, the choice among them fails with what each of them expected, in order. In the
report only those count that came furthest: the report is at the furthest byte that any of them reached,
and says what was expected there. An alternative that stopped before might as well not have been there.

Nor does it matter for a report how the alternatives are grouped. Merging failures is associative, and the
one failure that may be committed, the last, ends a choice just where nothing is left to be tried.

Main statements:
* `Failure.furthest_together` — the furthest diagnostics of failures are those of the furthest of them;
* `Parser.Brackets.fails_together` — alternatives that fail, in any brackets, fail with all they expected;
* `Parser.furthest_alternatives_reported` — the report of a choice.
-/

namespace CommittedParsing

open Run Text

/-- To keep some members of a list and go on from each is to go on from those members only. -/
theorem flatMap_filter {α β : Type} (keep : α → Bool) (next : α → List β) (l : List α) :
    (l.filter keep).flatMap next = l.flatMap fun a => if keep a then next a else [] := by
  induction l with
  | nil => rfl
  | cons a l ih => cases hkeep : keep a <;> simp [hkeep, ih]

theorem pairwise_of_dropLast {α : Type} {P : α → Prop} {l : List α} (h : ∀ a ∈ l.dropLast, P a) :
    l.Pairwise fun a _ => P a := by
  induction l with
  | nil => exact .nil
  | cons a l ih =>
    cases l with
    | nil => simp
    | cons b l =>
      rw [List.dropLast_cons_cons] at h
      exact .cons (fun _ _ => h a List.mem_cons_self) (ih fun a' ha' => h a' (List.mem_cons_of_mem a ha'))

/-! ## Failures together -/

namespace Failure

/-- Failures in order: all that was expected, with a commit if one of them has it. -/
def together (fs : List Failure) : Failure := ⟨fs.flatMap diagnostics, fs.any consumed⟩

/-- Failures that did not commit are merged by putting their diagnostics together. -/
theorem merge_together {fs : List Failure} (h : (together fs).consumed = false) (gs : List Failure) :
    (together fs).merge (together gs) = together (fs ++ gs) := by
  have hany : fs.any consumed = false := h
  simp [together, merge, hany]

/-- The furthest position is one of a diagnostic, and no diagnostic lies further. -/
theorem position?_eq_some_iff {f : Failure} {position : Nat} :
    f.position? = some position ↔
      (∃ d ∈ f.diagnostics, d.position = position) ∧ ∀ d ∈ f.diagnostics, d.position ≤ position := by
  rw [position?, List.max?_eq_some_iff]
  simp

/-- What a failure says of a byte that it does not pass is its furthest diagnostics, or nothing. -/
theorem filter_diagnostics_eq {f : Failure} {position : Nat}
    (hle : ∀ d ∈ f.diagnostics, d.position ≤ position) :
    f.diagnostics.filter (fun d => d.position == position) =
      if f.position? == some position then f.furthest else [] := by
  by_cases hfurthest : f.position? = some position
  · simp [furthest, hfurthest]
  · have hnone : ∀ d ∈ f.diagnostics, d.position ≠ position :=
      fun d hd heq => hfurthest (position?_eq_some_iff.2 ⟨⟨d, hd, heq⟩, hle⟩)
    simpa [hfurthest] using hnone

variable {fs : List Failure} {position : Nat}

/-- The furthest position of several failures is the furthest of one of them. -/
theorem position?_together_iff :
    (together fs).position? = some position ↔
      (∃ f ∈ fs, f.position? = some position) ∧
        ∀ f ∈ fs, ∀ other, f.position? = some other → other ≤ position := by
  rw [position?_eq_some_iff]
  simp only [together, List.mem_flatMap, forall_exists_index, and_imp]
  constructor
  · rintro ⟨⟨d, ⟨f, hf, hd⟩, hposition⟩, hle⟩
    constructor
    · exact ⟨f, hf, position?_eq_some_iff.2 ⟨⟨d, hd, hposition⟩, fun d' hd' => hle d' f hf hd'⟩⟩
    · intro g hg other hother
      obtain ⟨⟨d', hd', rfl⟩, -⟩ := position?_eq_some_iff.1 hother
      exact hle d' g hg hd'
  · rintro ⟨⟨f, hf, hposition⟩, hle⟩
    obtain ⟨⟨d, hd, heq⟩, -⟩ := position?_eq_some_iff.1 hposition
    refine ⟨⟨d, ⟨f, hf, hd⟩, heq⟩, ?_⟩
    intro d' g hg hd'
    have hsome : g.diagnostics ≠ [] := List.ne_nil_of_mem hd'
    have hfurthest := position?_eq_some hsome
    exact Nat.le_trans ((position?_eq_some_iff.1 hfurthest).2 d' hd') (hle g hg _ hfurthest)

/-- The furthest diagnostics of several failures are those of the failures that came furthest. -/
theorem furthest_together (h : (together fs).position? = some position) :
    (together fs).furthest = (fs.filter fun f => f.position? == some position).flatMap furthest := by
  have hle := (position?_eq_some_iff.1 h).2
  -- a failure that does not reach as far has no diagnostic there
  have hpart : ∀ f ∈ fs, f.diagnostics.filter (fun d => d.position == position) =
      if f.position? == some position then f.furthest else [] := by
    intro f hf
    exact filter_diagnostics_eq fun d hd => hle d (List.mem_flatMap.2 ⟨f, hf, hd⟩)
  calc (together fs).furthest
    _ = (fs.flatMap diagnostics).filter fun d => d.position == position := by
      rw [furthest, h]
      rfl
    _ = fs.flatMap fun f => f.diagnostics.filter fun d => d.position == position :=
      List.filter_flatMap
    _ = fs.flatMap fun f => if f.position? == some position then f.furthest else [] :=
      List.flatMap_congr hpart
    _ = (fs.filter fun f => f.position? == some position).flatMap furthest :=
      (flatMap_filter _ _ _).symm

/-- Only the furthest diagnostics are reported. -/
theorem locate_congr {f g : Failure} (hposition : f.position? = g.position?)
    (hfurthest : f.furthest = g.furthest) (text : List Char) : f.locate text = g.locate text := by
  simp only [locate, hposition, hfurthest]

/-- A report is the same without the failures that did not come furthest. -/
theorem locate_together (h : (together fs).position? = some position) (text : List Char) :
    (together (fs.filter fun f => f.position? == some position)).locate text =
      (together fs).locate text := by
  let furthestOnes := fs.filter fun f => f.position? == some position
  have hposition : (together furthestOnes).position? = some position := by
    obtain ⟨⟨f, hf, hfurthest⟩, hle⟩ := position?_together_iff.1 h
    refine position?_together_iff.2 ⟨⟨f, List.mem_filter.2 ⟨hf, by simp [hfurthest]⟩, hfurthest⟩, ?_⟩
    exact fun g hg => hle g (List.mem_filter.1 hg).1
  have hfurthest : (together furthestOnes).furthest = (together fs).furthest := by
    rw [furthest_together hposition, furthest_together h, List.filter_filter]
    simp
  exact locate_congr (hposition.trans h.symm) hfurthest text

end Failure

namespace Parser

variable {α : Type}

/-! ## Alternatives in brackets -/

/-- Alternatives, put together two at a time or in lists, in any brackets. -/
inductive Brackets (α : Type) where
  | single (p : Parser α)
  | or (first second : Brackets α)
  | choice (count : Nat) (parts : Fin count → Brackets α)

namespace Brackets

/-- The choice in these brackets. -/
def parser : Brackets α → Parser α
  | single p => p
  | or first second => Parser.or first.parser second.parser
  | choice _ parts => Parser.choice (List.ofFn fun i => (parts i).parser)

/-- The alternatives without the brackets, in order. -/
def alternatives : Brackets α → List (Parser α)
  | single p => [p]
  | or first second => first.alternatives ++ second.alternatives
  | choice _ parts => (List.ofFn fun i => (parts i).alternatives).flatten

/-- One list of alternatives. -/
def flat (ps : List (Parser α)) : Brackets α := choice ps.length fun i => single (ps.get i)

/-- Alternatives behind others, each with all before it in brackets. -/
def chain (first : Brackets α) (ps : List (Parser α)) : Brackets α :=
  ps.foldl (fun before p => or before (single p)) first

theorem parser_flat (ps : List (Parser α)) : (flat ps).parser = Parser.choice ps := by
  simp [flat, parser]

theorem alternatives_flat (ps : List (Parser α)) : (flat ps).alternatives = ps := by
  have hsingle : (List.ofFn fun i => [ps.get i]) = ps.map fun p => [p] := by
    conv => rhs; rw [← List.ofFn_get ps, List.map_ofFn]
    rfl
  show (List.ofFn fun i => [ps.get i]).flatten = ps
  rw [hsingle, ← List.flatMap_def, List.flatMap_singleton']

theorem parser_chain (first : Brackets α) (ps : List (Parser α)) :
    (chain first ps).parser = ps.foldl Parser.or first.parser := by
  induction ps generalizing first with
  | nil => rfl
  | cons p ps ih => exact ih (or first (single p))

theorem alternatives_chain (first : Brackets α) (ps : List (Parser α)) :
    (chain first ps).alternatives = first.alternatives ++ ps := by
  induction ps generalizing first with
  | nil => simp [chain]
  | cons p ps ih =>
    have hlater := ih (or first (single p))
    rwa [alternatives, alternatives, List.append_assoc] at hlater

end Brackets

/-! ## Alternatives that fail -/

/-- The parsers fail at the cursor, and none of them that has others behind it with a commit. -/
structure FailInTurn (failure : Parser α → Failure) (n : Nat) (c : Cursor) (ps : List (Parser α)) :
    Prop where
  fails : ∀ p ∈ ps, (p n c).ending = .value (.failure (failure p))
  uncommitted : ps.Pairwise fun p _ => (failure p).consumed = false

variable {failure : Parser α → Failure} {n : Nat} {c : Cursor} {ps qs : List (Parser α)}

/-- Of alternatives that fail in turn, any fail in turn, in the same order. -/
theorem FailInTurn.of_sublist (h : FailInTurn failure n c qs) (hps : ps.Sublist qs) :
    FailInTurn failure n c ps where
  fails p hp := h.fails p (hps.subset hp)
  uncommitted := h.uncommitted.sublist hps

/-- Behind a committed failure there is no other parser. -/
theorem FailInTurn.eq_nil_of_consumed (h : FailInTurn failure n c (ps ++ qs))
    (hps : (Failure.together (ps.map failure)).consumed = true) : qs = [] := by
  obtain ⟨f, hf, hconsumed⟩ := List.any_eq_true.1 hps
  obtain ⟨p, hp, rfl⟩ := List.mem_map.1 hf
  refine List.eq_nil_iff_forall_not_mem.2 ?_
  intro q hq
  have huncommitted := (List.pairwise_append.1 h.uncommitted).2.2 p hp q hq
  rw [hconsumed] at huncommitted
  cases huncommitted

/-- A parser that fails ends the choice if it is committed, and else adds what it expected. -/
theorem ending_choiceAfter_of_failed {p : Parser α} {e : Failure}
    (hp : (p n c).ending = .value (.failure e)) (past : Failure) (ps : List (Parser α)) :
    (choiceAfter past (p :: ps) n c).ending =
      if e.consumed then .value (.failure (past.merge e))
      else (choiceAfter (past.merge e) ps n c).ending := by
  have hrun : p n c = ⟨(p n c).records, .value (.failure e)⟩ := Run.ext rfl hp
  simp only [choiceAfter]
  rw [hrun, bind_value]
  dsimp only
  split <;> rfl

namespace Brackets

/-- If the alternatives fail one after the other, the choice in the brackets fails with all that they
expected. -/
def FailsTogether (failure : Parser α → Failure) (n : Nat) (c : Cursor) (b : Brackets α) : Prop :=
  FailInTurn failure n c b.alternatives →
    (b.parser n c).ending = .value (.failure (Failure.together (b.alternatives.map failure)))

/-- Two bracketings in a choice fail together if each of them does. -/
theorem FailsTogether.or {first second : Brackets α} (hfirst : FailsTogether failure n c first)
    (hsecond : FailsTogether failure n c second) : FailsTogether failure n c (or first second) := by
  intro h
  have hf := hfirst (h.of_sublist (List.sublist_append_left _ _))
  have hs := hsecond (h.of_sublist (List.sublist_append_right _ _))
  rw [parser, alternatives, List.map_append, ending_or_of_failed hf]
  cases hstops : (Failure.together (first.alternatives.map failure)).consumed with
  | true =>
    rw [h.eq_nil_of_consumed hstops, List.map_nil, List.append_nil]
    rfl
  | false =>
    rw [← Failure.merge_together hstops]
    exact ending_mapFailure_eq_failure_iff.2 ⟨_, hs, rfl⟩

/-- Parts of a choice that fail add what they expected, one after the other. -/
theorem ending_choiceAfter {parts : List (Brackets α)}
    (hparts : ∀ b ∈ parts, FailsTogether failure n c b) (before : List (Parser α))
    (h : FailInTurn failure n c (before ++ parts.flatMap alternatives))
    (hbefore : (Failure.together (before.map failure)).consumed = false) :
    (choiceAfter (Failure.together (before.map failure)) (parts.map parser) n c).ending =
      .value (.failure (Failure.together ((before ++ parts.flatMap alternatives).map failure))) := by
  -- part by part, with the failures of all parts before it merged
  induction parts generalizing before with
  | nil => simp [choiceAfter, Run.fail]
  | cons b parts ih =>
    have hbehind : FailInTurn failure n c (b.alternatives ++ parts.flatMap alternatives) :=
      h.of_sublist (List.sublist_append_right _ _)
    have hfails := hparts b List.mem_cons_self (hbehind.of_sublist (List.sublist_append_left _ _))
    have hmerged := Failure.merge_together hbefore (b.alternatives.map failure)
    rw [← List.map_append] at hmerged
    rw [List.flatMap_cons, ← List.append_assoc] at h ⊢
    rw [List.map_cons, ending_choiceAfter_of_failed hfails, hmerged]
    cases hstops : (Failure.together (b.alternatives.map failure)).consumed with
    | true =>
      -- a committed failure stops the choice, so it has to be the last
      rw [hbehind.eq_nil_of_consumed hstops, List.append_nil]
      rfl
    | false =>
      have hboth : (Failure.together ((before ++ b.alternatives).map failure)).consumed = false := by
        rw [← hmerged]
        exact hstops
      exact ih (fun b' hb' => hparts b' (List.mem_cons_of_mem b hb')) (before ++ b.alternatives) h hboth

/-- In any brackets, alternatives that fail one after the other fail with all that they expected. -/
theorem fails_together (failure : Parser α → Failure) (n : Nat) (c : Cursor) (b : Brackets α) :
    FailsTogether failure n c b := by
  -- over the brackets; a choice goes through its parts one by one
  induction b with
  | single p => exact fun h => by simpa [parser, alternatives, Failure.together] using h.fails p
  | or first second hfirst hsecond => exact hfirst.or hsecond
  | choice count parts ih =>
    intro h
    have hparts : ∀ b ∈ List.ofFn parts, FailsTogether failure n c b := by
      intro b hb
      obtain ⟨i, rfl⟩ := List.mem_ofFn.1 hb
      exact ih i
    have halternatives : (choice count parts).alternatives = (List.ofFn parts).flatMap alternatives := by
      rw [List.flatMap_def, List.map_ofFn]
      rfl
    have hparser : (choice count parts).parser = Parser.choice ((List.ofFn parts).map parser) := by
      rw [List.map_ofFn]
      rfl
    rw [halternatives] at h ⊢
    rw [hparser]
    exact ending_choiceAfter hparts [] h rfl

end Brackets

/-- A choice of alternatives that fail fails with all their diagnostics. -/
theorem ending_choice_of_fail (h : FailInTurn failure n c ps) :
    (choice ps n c).ending = .value (.failure (Failure.together (ps.map failure))) := by
  have hflat := Brackets.fails_together failure n c (.flat ps)
  rw [Brackets.FailsTogether, Brackets.parser_flat, Brackets.alternatives_flat] at hflat
  exact hflat h

/-- So does the same choice nested to the left. -/
theorem ending_leftNested_of_fail (h : FailInTurn failure n c ps) :
    (leftNested ps n c).ending = .value (.failure (Failure.together (ps.map failure))) := by
  cases ps with
  | nil => exact ending_choice_of_fail h
  | cons p ps =>
    have hchain := Brackets.fails_together failure n c (.chain (.single p) ps)
    rw [Brackets.FailsTogether, Brackets.parser_chain, Brackets.alternatives_chain] at hchain
    exact hchain h

/-! ## The report of a choice -/

/-- Alternatives that all fail at a cursor, the ones before the last without a commit, and one at least
with a diagnostic. As one list, as a chain, and in any other brackets, they fail alike: with what each of
them expected, in order. The largest byte at which that is expected is the largest of the alternatives. In
any text, the report is at that byte, or at the end of the text if that comes before, and what was expected
is what the furthest diagnostics of those alternatives say that came so far, in order and without
repetitions. The choice among only those alternatives has the same report. -/
theorem furthest_alternatives_reported {ps : List (Parser α)} {failure : Parser α → Failure} {n : Nat}
    {c : Cursor} (hfail : ∀ p ∈ ps, (p n c).ending = .value (.failure (failure p)))
    (huncommitted : ∀ p ∈ ps.dropLast, (failure p).consumed = false)
    (hsome : ∃ p ∈ ps, (failure p).diagnostics ≠ []) :
    let e := Failure.together (ps.map failure)
    (choice ps n c).ending = .value (.failure e) ∧
      (leftNested ps n c).ending = .value (.failure e) ∧
      (∀ b : Brackets α, b.alternatives = ps → (b.parser n c).ending = .value (.failure e)) ∧
      ∃ furthest, e.position? = some furthest ∧
        (∃ p ∈ ps, (failure p).position? = some furthest) ∧
        (∀ p ∈ ps, ∀ position, (failure p).position? = some position → position ≤ furthest) ∧
        ∀ text,
          let report := e.locate text
          let furthestOnes := ps.filter fun p => (failure p).position? == some furthest
          report.position = min furthest (byteLength text) ∧
            report.expected =
              (furthestOnes.flatMap fun p => (failure p).furthest.map Diagnostic.expected).eraseDups ∧
            ∃ e', (choice furthestOnes n c).ending = .value (.failure e') ∧ e'.locate text = report := by
  intro e
  have hps : FailInTurn failure n c ps := ⟨hfail, pairwise_of_dropLast huncommitted⟩
  have hposition : e.position? = some e.furthestByte := by
    obtain ⟨p, hp, hdiagnostics⟩ := hsome
    obtain ⟨d, hd⟩ := List.exists_mem_of_ne_nil _ hdiagnostics
    have hmem : d ∈ e.diagnostics := List.mem_flatMap.2 ⟨failure p, List.mem_map_of_mem hp, hd⟩
    exact Failure.position?_eq_some (List.ne_nil_of_mem hmem)
  -- the furthest position of all the failures is the furthest of one of them
  obtain ⟨hreached, hlargest⟩ := Failure.position?_together_iff.1 hposition
  refine ⟨ending_choice_of_fail hps, ending_leftNested_of_fail hps, ?_, e.furthestByte, hposition,
    by simpa using hreached, by simpa using hlargest, ?_⟩
  · rintro b rfl
    exact Brackets.fails_together failure n c b hps
  · intro text report furthestOnes
    -- the furthest alternatives alone have the diagnostics that are reported
    have hones : furthestOnes.map failure =
        (ps.map failure).filter fun f => f.position? == some e.furthestByte := by
      rw [List.filter_map]
      rfl
    refine ⟨?_, ?_, Failure.together (furthestOnes.map failure), ?_, ?_⟩
    · show min (e.position?.getD 0) (byteLength text) = min e.furthestByte (byteLength text)
      rw [hposition, Option.getD_some]
    · show (e.furthest.map Diagnostic.expected).eraseDups = _
      rw [Failure.furthest_together hposition, ← hones, List.flatMap_map, List.map_flatMap]
    · exact ending_choice_of_fail (hps.of_sublist List.filter_sublist)
    · rw [hones]
      exact Failure.locate_together hposition text

/-- The second alternative and the last, which is committed, come to the same byte; the second is taken
back from there. -/
theorem digit_or_minus_reported :
    let c := Cursor.start (Source.ofString 0 "ab?")
    let pair (q : Parser Char) : Parser Char := seq2 (text "ab") q fun _ ch => ch
    let ps := [literal 'x', attempt (pair digit), literal 'z', pair (Parser.or digit (literal '-'))]
    let failure (p : Parser Char) : Failure :=
      match (p 0 c).ending with
      | .value (.failure e) => e
      | _ => Failure.empty
    (∀ p ∈ ps, (p 0 c).ending = .value (.failure (failure p))) ∧
      (∀ p ∈ ps.dropLast, (failure p).consumed = false) ∧
      (∃ p ∈ ps, (failure p).diagnostics ≠ []) ∧
      ∀ b : Brackets Char, b.alternatives = ps →
        ∃ e, (b.parser 0 c).ending = .value (.failure e) ∧ e.consumed = true ∧
          e.diagnostics.length = 5 ∧ (e.locate c.source.text).position = 2 ∧
          (e.locate c.source.text).expected = ["digit", "'-'"] := by
  intro c pair ps failure
  have hfail : ∀ p ∈ ps, (p 0 c).ending = .value (.failure (failure p)) := by
    simp only [ps, List.forall_mem_cons]
    exact ⟨rfl, rfl, rfl, rfl, by simp⟩
  have huncommitted : ∀ p ∈ ps.dropLast, (failure p).consumed = false := by
    simp only [ps, List.dropLast, List.forall_mem_cons]
    exact ⟨rfl, rfl, rfl, by simp⟩
  have hsome : ∃ p ∈ ps, (failure p).diagnostics ≠ [] := ⟨literal 'x', List.mem_cons_self, by decide⟩
  obtain ⟨-, -, hbrackets, -⟩ := furthest_alternatives_reported hfail huncommitted hsome
  exact ⟨hfail, huncommitted, hsome, fun b hb => ⟨_, hbrackets b hb, by decide, by decide, by decide,
    by decide⟩⟩

end Parser

end CommittedParsing
