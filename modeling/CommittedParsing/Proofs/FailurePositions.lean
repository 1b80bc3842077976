import CommittedParsing.Parser.Entry
import CommittedParsing.Proofs.Advancing

/-!
# Where failures point

A failure says at least one thing that was expected, and each of them at a place that can be read up
to from where the parse began. So a report of it is never empty, and it points between two characters
of the text without being moved back to the end of it.

Diagnostics are made where a primitive parser, a test, a label or a lookahead begins. What is carried
outwards from there stands behind everything that was read on the way, which is why the bound from
below rests on parsers that only read on. A failure without a diagnostic comes from nothing but a
choice among no alternatives.

Main statements:
* `Failure.PointsFrom.behind` — what points behind a place points behind everything before it;
* `Grammar.points_from_start` — the law for one grammar, from the law for what it refers to;
* `System.failures_point_into_text` — the law for every grammar of a system, and for the reports.
-/

namespace CommittedParsing

open CommittedParsing.Parser Run Outcome Text

/-! ## Failures that point behind a cursor -/

/-- Something was expected, and everything that was is at a place that can be read up to from the
cursor. -/
structure Failure.PointsFrom (c : Cursor) (e : Failure) : Prop where
  expects : e.diagnostics ≠ []
  places : ∀ d ∈ e.diagnostics, ∃ cs place, c.Reads cs place ∧ place.position = d.position

namespace Failure

variable {c middle : Cursor} {cs : List Char} {e f : Failure}

/-- A failure with one expectation points to where that was expected. -/
theorem pointsFrom_expected (description : String) (c : Cursor) :
    (expected description c.position).PointsFrom c where
  expects := by simp [expected]
  places d hd := by
    have heq : d = ⟨description, c.position⟩ := List.mem_singleton.1 hd
    exact ⟨[], c, .refl c, by rw [heq]⟩

namespace PointsFrom

/-- Whether a failure is committed does not change where it points. -/
theorem commit (h : e.PointsFrom c) : e.commit.PointsFrom c := ⟨h.expects, h.places⟩

theorem uncommit (h : e.PointsFrom c) : e.uncommit.PointsFrom c := ⟨h.expects, h.places⟩

/-- Both parts of a merged failure go on pointing where they did. -/
theorem merge (he : e.PointsFrom c) (hf : f.PointsFrom c) : (e.merge f).PointsFrom c where
  expects := by simp [he.expects]
  places d hd := by
    rw [diagnostics_merge] at hd
    rcases List.mem_append.1 hd with hd | hd
    · exact he.places d hd
    · exact hf.places d hd

/-- What points behind a place points behind everything before it. -/
theorem behind (hread : c.Reads cs middle) (h : e.PointsFrom middle) : e.PointsFrom c where
  expects := h.expects
  places d hd := by
    obtain ⟨ds, place, hread', hplace⟩ := h.places d hd
    exact ⟨cs ++ ds, place, hread.trans hread', hplace⟩

end PointsFrom

/-! ### In the text -/

/-- A byte that can be read up to from a valid cursor falls between two characters of the text, not
before the cursor. -/
theorem PointsFrom.within_text (hc : c.Valid) (h : e.PointsFrom c) {d : Diagnostic}
    (hd : d ∈ e.diagnostics) :
    (∃ parts, splitAtByte? d.position c.source.text = some parts) ∧
      c.position ≤ d.position ∧ d.position ≤ c.source.size := by
  obtain ⟨cs, place, hread, hplace⟩ := h.places d hd
  have hvalid : place.Valid := hread.valid hc
  obtain ⟨before, hsplit⟩ := hvalid.splitAtByte?
  have hforward := hread.position_eq
  have hbound := hvalid.position_le_size
  rw [hread.source_eq] at hsplit hbound
  rw [← hplace]
  exact ⟨⟨_, hsplit⟩, by omega, hbound⟩

/-- The largest position is that of a diagnostic. -/
theorem exists_position? (h : e.diagnostics ≠ []) :
    ∃ d ∈ e.diagnostics, e.position? = some d.position := by
  have hsome : e.position? ≠ none := by
    simpa [position?, List.max?_eq_none_iff] using h
  obtain ⟨furthest, hmax⟩ := Option.ne_none_iff_exists'.1 hsome
  have hmem := List.max?_mem hmax
  obtain ⟨d, hd, hposition⟩ := List.mem_map.1 hmem
  exact ⟨d, hd, by rw [hmax, hposition]⟩

/-- A report names something that was expected if the failure does. -/
theorem expected_locate_ne_nil (h : e.diagnostics ≠ []) (text : List Char) :
    (e.locate text).expected ≠ [] := by
  obtain ⟨d, hd, hposition⟩ := exists_position? h
  have hfurthest : d ∈ e.furthest := by
    simp [furthest, hposition, hd]
  have hmem : d.expected ∈ (e.locate text).expected :=
    List.mem_eraseDups.2 (List.mem_map_of_mem hfurthest)
  exact List.ne_nil_of_mem hmem

/-- A failure that points behind the start of a text is reported where it points furthest. -/
theorem PointsFrom.locate {source : Source} (h : e.PointsFrom (Cursor.start source)) :
    e.position? = some (e.locate source.text).position ∧
      ∃ parts, splitAtByte? (e.locate source.text).position source.text = some parts := by
  obtain ⟨d, hd, hposition⟩ := exists_position? h.expects
  obtain ⟨hsplit, -, hbound⟩ := h.within_text (Cursor.valid_start source) hd
  have hunmoved : (e.locate source.text).position = d.position := by
    have hsize : d.position ≤ byteLength source.text := source.size_eq ▸ hbound
    simp [Failure.locate, hposition, Nat.min_eq_left hsize]
  rw [hunmoved]
  exact ⟨hposition, hsplit⟩

end Failure

/-! ## The condition -/

/-- The condition on outcomes: a success has read on from the cursor, and a failure points behind
it. -/
def Outcome.Points {α : Type} (c : Cursor) : Outcome α → Prop :=
  Meets (fun _ rest => ∃ cs, c.Reads cs rest) (Failure.PointsFrom c)

/-- Neither is the grammar a function of its own, nor a choice among no alternatives. -/
def Grammar.Reports : Grammar → Prop
  | .custom _ | .choice 0 _ => False
  | _ => True

variable {α β γ δ σ : Type} {n : Nat} {c : Cursor}

namespace Run

variable {r : Run (Outcome α)}

/-- A success has no failure that could point anywhere. -/
theorem points_succeed (a : α) (c : Cursor) :
    (succeed a c).Ensures anyAbort (Outcome.Points c) :=
  Ensures.of_succeed ⟨[], .refl c⟩

/-- Two steps in a row: the second begins behind what the first has read. -/
theorem points_andThen {next : α → Cursor → Run (Outcome β)}
    (hr : r.Ensures anyAbort (Outcome.Points c))
    (hnext : ∀ a rest, (next a rest).Ensures anyAbort (Outcome.Points rest)) :
    (r.andThen next).Ensures anyAbort (Outcome.Points c) := by
  refine hr.andThen ?_ fun _ he => he
  rintro a middle ⟨cs, hread⟩
  apply (hnext a middle).mono
  · rintro b rest ⟨ds, hread'⟩
    exact ⟨cs ++ ds, hread.trans hread'⟩
  · exact fun e he => he.behind hread

/-- To commit the failures of a run moves none of their diagnostics. -/
theorem points_commit (hr : r.Ensures anyAbort (Outcome.Points c)) :
    r.commit.Ensures anyAbort (Outcome.Points c) :=
  hr.mapFailure fun _ he => he.commit

end Run

/-! ## The combinators -/

/-- Wherever it is run, with any fuel, the parser meets the condition. -/
def Parser.Points (p : Parser α) : Prop := ∀ n c, (p n c).Ensures anyAbort (Outcome.Points c)

namespace Parser.Points

variable {p : Parser α} {q : Parser β} {r : Parser γ}

/-- A character is expected where the parser starts. -/
theorem satisfy (accepts : Char → Bool) (description : String) :
    (Parser.satisfy accepts description).Points := by
  intro n c
  refine ensures_satisfy ?_ (Failure.pointsFrom_expected description c)
  intro ch rest hrest _
  exact ⟨[ch], .skip hrest⟩

/-- A text is expected there as a whole, even if its first characters are there. -/
theorem text (expected : String) : (Parser.text expected).Points := by
  intro n c
  refine ensures_text ?_ (Failure.pointsFrom_expected _ c)
  intro rest hrest
  exact ⟨expected.toList, .skip hrest⟩

/-- The end is expected where the parser starts. -/
theorem endOfInput : Parser.endOfInput.Points := by
  intro n c
  exact ensures_endOfInput (fun _ => ⟨[], .refl c⟩) (Failure.pointsFrom_expected _ c)

theorem pure (a : α) : (Parser.pure a).Points := fun _ c => points_succeed a c

/-- A function of the value leaves failures alone. -/
theorem map (hp : p.Points) (f : α → β) : (p.map f).Points :=
  fun n c => points_andThen (hp n c) fun _ _ => points_succeed _ _

theorem position (hp : p.Points) : (Parser.position p).Points :=
  fun n c => points_andThen (hp n c) fun _ _ => points_succeed _ _

/-- So does a function that may hit a fault. -/
theorem mapChecked (hp : p.Points) (f : α → Except Fault β) : (p.mapChecked f).Points := by
  intro n c
  apply points_andThen (hp n c)
  intro a rest
  cases f a with
  | error e => trivial
  | ok b => exact points_succeed b rest

/-- A value that is rejected is reported where the parse began, not where it ended. -/
theorem filterChecked (hp : p.Points) (accepts : α → Except Fault Bool) (description : String) :
    (p.filterChecked accepts description).Points :=
  fun n c => ensures_filterChecked (hp n c) (fun _ _ _ => .ofExcept_anyAbort fun _ _ => trivial)
    (Failure.pointsFrom_expected description c).commit

/-- What a binder goes on with fails further on, which is still behind the start. -/
theorem bind {next : α → Parser β} (hp : p.Points) (hnext : ∀ a, (next a).Points) :
    (Parser.bind p next).Points :=
  fun n c => points_andThen (hp n c) fun a rest => points_commit (hnext a n rest)

/-- The second part of a sequence starts further on as well. -/
theorem seq2 (hp : p.Points) (hq : q.Points) (combine : α → β → γ) :
    (Parser.seq2 p q combine).Points := by
  intro n c
  apply points_andThen (hp n c)
  intro a middle
  exact points_andThen (points_commit (hq n middle)) fun _ _ => points_succeed _ _

/-- And so do the second and the third of three. -/
theorem seq3 (hp : p.Points) (hq : q.Points) (hr : r.Points) (combine : α → β → γ → δ) :
    (Parser.seq3 p q r combine).Points := by
  intro n c
  apply points_andThen (hp n c)
  intro a afterFirst
  apply points_andThen (points_commit (hq n afterFirst))
  intro b afterSecond
  exact points_andThen (points_commit (hr n afterSecond)) fun _ _ => points_succeed _ _

/-! ### Alternatives and marks -/

/-- Two alternatives start from the same place, so that their merged failures point behind it. -/
theorem or {q : Parser α} (hp : p.Points) (hq : q.Points) : (Parser.or p q).Points := by
  intro n c
  refine ensures_or (hp n c) (fun _ he _ => he) ?_
  intro e he _
  exact (hq n c).mono (fun _ _ h => h) fun later hlater => he.merge hlater

/-- The first alternative has a diagnostic if it fails, so the failure of the choice has one. -/
theorem choice {ps : List (Parser α)} (hp : p.Points) (hps : ∀ q ∈ ps, q.Points) :
    (Parser.choice (p :: ps)).Points := by
  intro n c
  have hlater : ∀ q ∈ ps, (q n c).Ensures anyAbort (Outcome.Points c) :=
    fun q hq => hps q hq n c
  refine (hp n c).bind ?_
  intro outcome houtcome
  cases outcome with
  | success a rest => exact houtcome
  | failure e =>
    have he : e.PointsFrom c := houtcome
    dsimp only
    split
    next => exact he
    next =>
      exact ensures_choiceAfter (G := Failure.PointsFrom c) hlater
        (fun _ _ hf he _ => hf.merge he) (fun _ _ hf he _ => hf.merge he) (fun _ hf => hf) he

/-- An attempt moves no diagnostics. -/
theorem attempt (hp : p.Points) : (Parser.attempt p).Points :=
  fun n c => ensures_attempt (hp n c) fun _ he => he.uncommit

/-- A label expects its description where the parser starts. -/
theorem label (hp : p.Points) (description : String) : (Parser.label description p).Points :=
  fun n c => ensures_label (hp n c) (fun _ he _ => he) (Failure.pointsFrom_expected description c)

theorem optional (hp : p.Points) : (Parser.optional p).Points :=
  fun n c => ensures_optional (hp n c) (fun _ _ h => h) (fun _ he _ => he) ⟨[], .refl c⟩

/-- A negative lookahead fails where it starts. -/
theorem not (hp : p.Points) (description : String) : (Parser.not description p).Points :=
  fun n c => ensures_not (hp n c) ⟨[], .refl c⟩ (Failure.pointsFrom_expected description c)

/-! ### Repetitions and chains -/

/-- What a round fails with points behind all that the rounds before it have read. -/
theorem repeatFrom (hp : p.Points) (past : List α) : (Parser.repeatFrom p past).Points := by
  intro n c
  refine ensures_repeatFrom (I := fun _ _ middle => ∃ cs, c.Reads cs middle)
    (fun _ _ _ => trivial) ?_ ⟨[], .refl c⟩
  rintro k past middle ⟨cs, hread⟩
  apply (hp n middle).mono
  · rintro a rest ⟨ds, hread'⟩
    have hboth := hread.trans hread'
    exact ⟨fun _ => ⟨_, hboth⟩, fun _ => ⟨_, hboth⟩⟩
  · exact fun e he => ⟨fun _ => he.behind hread, fun _ => ⟨cs, hread⟩⟩

/-- The rounds of a repetition fail behind where the first one starts. -/
theorem many1 (hp : p.Points) : (Parser.many1 p).Points := by
  intro n c
  apply points_andThen (hp n c)
  intro a rest
  split
  · exact points_succeed _ _
  · exact hp.repeatFrom [a] n rest

/-- So do the rounds of a chain. -/
theorem chainFrom (hq : q.Points) (hp : p.Points) (take : σ → β → α → Except Fault σ) (s : σ) :
    (Parser.chainFrom q p take s).Points := by
  intro n c
  refine ensures_chainFrom (I := fun _ _ middle => ∃ cs, c.Reads cs middle)
    (fun _ _ _ => trivial) ?_ ⟨[], .refl c⟩
  rintro k s middle ⟨cs, hread⟩
  apply (hq n middle).mono
  · rintro b afterOperator ⟨ds, hread'⟩
    have hoperator := hread.trans hread'
    apply (hp n afterOperator).mono
    · rintro a rest ⟨es, hread''⟩
      exact .ofExcept_anyAbort fun _ _ => ⟨_, hoperator.trans hread''⟩
    · exact fun e he => (he.behind hoperator).commit
  · exact fun e he => ⟨fun _ => he.behind hread, fun _ => ⟨cs, hread⟩⟩

/-- They start behind the first operand, which fails where it may. -/
theorem chain (hp : p.Points) (hq : q.Points) (start : α → σ) (take : σ → β → α → Except Fault σ) :
    (Parser.chain p q start take).Points :=
  fun n c => points_andThen (hp n c) fun a rest => chainFrom hq hp take (start a) n rest

end Parser.Points

/-! ## The law for grammars -/

/-- The comparison for the law: the condition is on the first grammar alone. -/
def pointingFromStart : Comparison := Comparison.ensuring fun c => Outcome.Points c

/-- A grammar whose parts report their failures follows the law if what it refers to does. -/
theorem Grammar.points_from_start {g : Grammar} (hg : g.Everywhere Reports) :
    pointingFromStart.Grammars g g := by
  -- over the grammar: each form is the combinator of that name, whose parts point by induction; the
  -- names stand for parsers that point because the context says so
  induction g with
  | satisfy accepts description => exact fun _ => (Parser.Points.satisfy _ _).map _
  | text expected => exact fun _ => (Parser.Points.text expected).map _
  | endOfInput => exact fun _ => Parser.Points.endOfInput.map _
  | pure value => exact fun _ => Parser.Points.pure value
  | custom parse => exact hg.here.elim
  | map body change ih =>
    exact fun hcontext => Parser.Points.mapChecked (ih (hg.part (by simp)) hcontext) change
  | filter body accepts description ih =>
    intro _ _ _ _ hcontext
    exact Parser.Points.filterChecked (ih (hg.part (by simp)) hcontext) accepts description
  | bind first captured next ihFirst ihNext =>
    intro _ _ _ _ hcontext
    apply Parser.Points.bind (ihFirst (hg.part (by simp)) hcontext)
    intro v
    exact Comparison.Grammars.made (.refl fun g hv => ihNext v g hv (hg.next hv)) hcontext
  | many body ih =>
    intro _ _ _ _ hcontext
    exact (Parser.Points.repeatFrom (ih (hg.part (by simp)) hcontext) []).map _
  | many1 body ih =>
    intro _ _ _ _ hcontext
    exact (Parser.Points.many1 (ih (hg.part (by simp)) hcontext)).map _
  | or first second ihFirst ihSecond =>
    intro _ _ _ _ hcontext
    have hsecond := ihSecond (hg.part (by simp)) hcontext
    exact Parser.Points.or (ihFirst (hg.part (by simp)) hcontext) hsecond
  | choice count alternatives ih =>
    intro call _ scope _ hcontext
    cases count with
    | zero => exact hg.here.elim
    | succ count =>
      have halternatives : ∀ i, ((alternatives i).denote call scope).Points :=
        fun i => ih i (hg.part ⟨i, rfl⟩) hcontext
      have hchoice : (Parser.choice (List.ofFn fun i => (alternatives i).denote call scope)).Points := by
        rw [List.ofFn_succ]
        apply Parser.Points.choice (halternatives 0)
        intro q hq
        obtain ⟨i, rfl⟩ := List.mem_ofFn.1 hq
        exact halternatives i.succ
      exact hchoice
  | attempt body ih =>
    exact fun hcontext => Parser.Points.attempt (ih (hg.part (by simp)) hcontext)
  | seq2 first second combine ihFirst ihSecond =>
    intro _ _ _ _ hcontext
    have hsecond := ihSecond (hg.part (by simp)) hcontext
    exact (Parser.Points.seq2 (ihFirst (hg.part (by simp)) hcontext) hsecond _).mapChecked _
  | seq3 first second third combine ihFirst ihSecond ihThird =>
    intro _ _ _ _ hcontext
    have hsecond := ihSecond (hg.part (by simp)) hcontext
    have hthird := ihThird (hg.part (by simp)) hcontext
    exact (Parser.Points.seq3 (ihFirst (hg.part (by simp)) hcontext) hsecond hthird _).mapChecked _
  | optional body ih =>
    intro _ _ _ _ hcontext
    exact (Parser.Points.optional (ih (hg.part (by simp)) hcontext)).map _
  | not body description ih =>
    intro _ _ _ _ hcontext
    exact (Parser.Points.not (ih (hg.part (by simp)) hcontext) description).map _
  | sepBy item separator ihItem ihSeparator =>
    intro _ _ _ _ hcontext
    have hseparator := ihSeparator (hg.part (by simp)) hcontext
    exact ((Parser.Points.chain (ihItem (hg.part (by simp)) hcontext) hseparator _ _).map _).map _
  | label body description ih =>
    exact fun hcontext => Parser.Points.label (ih (hg.part (by simp)) hcontext) description
  | position body ih =>
    intro _ _ _ _ hcontext
    exact (Parser.Points.position (ih (hg.part (by simp)) hcontext)).map _
  | chainLeft operand operator fold ihOperand ihOperator =>
    intro _ _ _ _ hcontext
    have hoperator := ihOperator (hg.part (by simp)) hcontext
    exact Parser.Points.chain (ihOperand (hg.part (by simp)) hcontext) hoperator _ _
  | chainRight operand operator fold ihOperand ihOperator =>
    intro _ _ _ _ hcontext
    have hoperator := ihOperator (hg.part (by simp)) hcontext
    exact ((Parser.Points.chain (ihOperand (hg.part (by simp)) hcontext) hoperator _ _).map _).mapChecked _
  | delayed body ih => exact Comparison.Grammars.delayed (ih (hg.part (by simp)))
  | call name => exact Comparison.Grammars.call name
  | recursive name body ih => exact Comparison.Grammars.recursive (ih (hg.part (by simp))) name
  | reference name => exact Comparison.Grammars.reference name

/-! ## Systems -/

/-- A failure that a parse is reported to have come to is the failure of the parser at the start. -/
theorem Parser.ending_parseLocated_eq_failure {p : Parser α} {source : Source} {report : Report}
    (h : (p.parseLocated source n).ending = .value (.failure report)) :
    ∃ e, (p n (Cursor.start source)).ending = .value (.failure e) ∧
      report = e.locate source.text := by
  unfold parseLocated at h
  obtain ⟨outcome, houtcome, hlocated⟩ := ending_bind_eq_value_iff.1 h
  rw [ending_parse] at houtcome
  cases outcome with
  | success a rest => cases hlocated
  | failure e =>
    cases hlocated
    exact ⟨e, houtcome, rfl⟩

/-- In a system without functions of its own and without empty choices, a failure from a valid cursor
has a diagnostic, and each of them is at a byte between two characters of the text, not before the
cursor and not behind the end. So the report of a failed parse names something that was expected, and
its position is the furthest of the failure, between two characters of the text. -/
theorem System.failures_point_into_text {s : System} (hs : s.Everywhere Grammar.Reports)
    {d : Definition} (hd : d.body.Everywhere Grammar.Reports) :
    (∀ (n : Nat) (c : Cursor) (e : Failure), c.Valid →
      (s.parser d n c).ending = .value (.failure e) →
      e.diagnostics ≠ [] ∧ ∀ x ∈ e.diagnostics,
        (∃ parts, splitAtByte? x.position c.source.text = some parts) ∧
          c.position ≤ x.position ∧ x.position ≤ c.source.size) ∧
    ∀ (n : Nat) (source : Source) (report : Report),
      ((s.parser d).parseLocated source n).ending = .value (.failure report) →
      ∃ e, (s.parser d n (Cursor.start source)).ending = .value (.failure e) ∧
        report = e.locate source.text ∧ report.expected ≠ [] ∧
        e.position? = some report.position ∧
        ∃ parts, splitAtByte? report.position source.text = some parts := by
  have hpoints : ∀ n c e, (s.parser d n c).ending = .value (.failure e) → e.PointsFrom c :=
    fun n c e he =>
      (System.ensures_parser (fun _ => Grammar.points_from_start) hs hd n c).post_of_value he
  constructor
  · intro n c e hc he
    have hpoint := hpoints n c e he
    exact ⟨hpoint.expects, fun x hx => hpoint.within_text hc hx⟩
  · intro n source report hreport
    obtain ⟨e, he, rfl⟩ := Parser.ending_parseLocated_eq_failure hreport
    have hpoint := hpoints n (Cursor.start source) e he
    obtain ⟨hposition, hsplit⟩ := hpoint.locate
    exact ⟨e, he, rfl, Failure.expected_locate_ne_nil hpoint.expects source.text, hposition, hsplit⟩

/-- A rule read once, and then two alternatives of which neither stands there: behind a character of two
bytes the failure points at byte five, and in a text of its own it is reported at byte three. -/
theorem failures_point_at_byte_five :
    let second : Grammar := .or (.reference "rule") (.label (.many1 (.text "1")) "ones")
    let s : System := ⟨⟨[.defined ⟨.text "é1", []⟩]⟩, []⟩
    let d : Definition := ⟨.seq2 (.reference "rule") second fun v _ => v, [("rule", .strong 0)]⟩
    let c : Cursor := ⟨Source.ofString 0 "ßé1é2", 2, ['é', '1', 'é', '2']⟩
    let e : Failure := ⟨[⟨"\"é1\"", 5⟩, ⟨"ones", 5⟩], true⟩
    let source := Source.ofString 1 "é1é2"
    let report := Failure.locate ⟨[⟨"\"é1\"", 3⟩, ⟨"ones", 3⟩], true⟩ source.text
    s.Everywhere Grammar.Reports ∧ d.body.Everywhere Grammar.Reports ∧ c.Valid ∧
      (s.parser d 3 c).ending = .value (.failure e) ∧
      (e.diagnostics ≠ [] ∧ ∀ x ∈ e.diagnostics,
        (∃ parts, splitAtByte? x.position c.source.text = some parts) ∧
          c.position ≤ x.position ∧ x.position ≤ c.source.size) ∧
      ((s.parser d).parseLocated source 3).ending = .value (.failure report) ∧
      ∃ e, (s.parser d 3 (Cursor.start source)).ending = .value (.failure e) ∧
        report = e.locate source.text ∧ report.expected ≠ [] ∧
        e.position? = some report.position ∧
        ∃ parts, splitAtByte? report.position source.text = some parts := by
  intro second s d c e source report
  have htext : ∀ text, (Grammar.text text).Everywhere Grammar.Reports :=
    fun text => .intro trivial (by simp)
  have hs : s.Everywhere Grammar.Reports := System.Each.of_single (htext _) []
  have hd : d.body.Everywhere Grammar.Reports := by
    have hrule : (Grammar.reference "rule").Everywhere Grammar.Reports := .intro trivial (by simp)
    have hones : (Grammar.many1 (.text "1")).Everywhere Grammar.Reports :=
      .intro trivial (by simp [htext])
    have hlabel : (Grammar.label (.many1 (.text "1")) "ones").Everywhere Grammar.Reports :=
      .intro trivial (by simp [hones])
    have hsecond : second.Everywhere Grammar.Reports :=
      .intro trivial (by simp [second, hrule, hlabel])
    exact .intro trivial (by simp [d, hrule, hsecond])
  have hc : c.Valid := ⟨['ß'], rfl, rfl⟩
  have hfails : (s.parser d 3 c).ending = .value (.failure e) := rfl
  have hreported : ((s.parser d).parseLocated source 3).ending = .value (.failure report) := rfl
  obtain ⟨hpoints, hreports⟩ := System.failures_point_into_text hs hd
  exact ⟨hs, hd, hc, hfails, hpoints 3 c e hc hfails, hreported, hreports 3 source report hreported⟩

end CommittedParsing
