import CommittedParsing.Proofs.ChainsByRepetition
import Mathlib.Logic.ExistsUnique

/-!
# The rounds of a repetition

A repetition strides on from cursor to cursor, as long as its parser succeeds and moves. Then there is
one last round, which does not move: it succeeds where it began, or it fails, uncommitted or committed.
Which of the three it is decides what the repetition comes to. Since every stride reads some character,
the parser is run at most once more often than there are characters left.

Main statements:
* `Cursor.Valid.reads_of_le` — of two places in a source, the text between them is read from the first;
* `Strides.length_add_le`, `exists_strides` — strides come to an end, and how many there may be;
* `Strides.many_eq` — a repetition is its strides and its last round;
* `Parser.loop_repeatStep_congr` — more rounds than characters make no difference;
* `Parser.repetition_runs_to_last_round` — all that a repetition does.
-/

namespace CommittedParsing

open Run Text

variable {α : Type}

/-- If it changes nothing to commit a run, it only fails committed. -/
theorem Run.consumed_of_commit_eq {r : Run (Outcome α)} (hr : r.commit = r) {e : Failure}
    (he : r.ending = .value (.failure e)) : e.consumed = true := by
  rw [← hr, Run.commit, ending_mapFailure_eq_failure_iff] at he
  obtain ⟨before, _, rfl⟩ := he
  rfl

/-! ## Two places in one source -/

/-- The text between two places in a source is read from the first to the second. -/
theorem Cursor.Valid.reads_of_le {c d : Cursor} (hc : c.Valid) (hd : d.Valid)
    (hsource : d.source = c.source) (hle : c.position ≤ d.position) : ∃ cs, c.Reads cs d := by
  obtain ⟨before, htext, hbefore⟩ := hc
  obtain ⟨upTo, htext', hupTo⟩ := hd
  have hsame : before ++ c.rest = upTo ++ d.rest := by rw [← htext, ← htext', hsource]
  have hreads : ∀ cs, c.rest = cs ++ d.rest → byteLength cs = d.position - c.position →
      c.Reads cs d := by
    intro cs hrest hlength
    have hposition : d.position = c.position + byteLength cs := by omega
    refine ⟨hrest, ?_⟩
    rw [Cursor.skip, ← hposition, ← hsource]
  -- one of the two beginnings of the source goes on to the other
  rcases List.append_eq_append_iff.1 hsame with ⟨cs, hupToEq, hrest⟩ | ⟨cs, hbeforeEq, hrest⟩
  · have hlength : byteLength upTo = byteLength before + byteLength cs := by
      rw [hupToEq, byteLength_append]
    exact ⟨cs, hreads cs hrest (by omega)⟩
  · -- the second place is before the first one as well, so they are the same
    have hlength : byteLength before = byteLength upTo + byteLength cs := by
      rw [hbeforeEq, byteLength_append]
    have hnil : cs = [] := byteLength_eq_zero_iff.1 (by omega)
    subst hnil
    exact ⟨[], hreads [] (by simpa using hrest.symm) (by simp; omega)⟩

namespace Parser

/-- At valid cursors, successes end at valid cursors of the same source, and not before the start. -/
def GoesForward (p : Parser α) : Prop :=
  ∀ n c a rest, c.Valid → (p n c).ending = .value (.success a rest) →
    rest.Valid ∧ rest.source = c.source ∧ c.position ≤ rest.position

/-- Parsers that only read on go forward. -/
theorem GoesForward.of_readsOn {p : Parser α} {A : Prop} (hp : p.ReadsOn A) : p.GoesForward := by
  intro n c a rest hc hsuccess
  obtain ⟨cs, hreads, _⟩ := (hp n c).post_of_value hsuccess
  have hposition := hreads.position_eq
  exact ⟨hreads.valid hc, hreads.source_eq, by omega⟩

/-! ## Strides -/

/-- From cursor to cursor the parser succeeds and moves on. Of each stride, the cursor at which it began
and its value are written down. -/
inductive Strides (p : Parser α) (n : Nat) : Cursor → List (Cursor × α) → Cursor → Prop where
  | nil (c : Cursor) : Strides p n c [] c
  | cons {c middle d : Cursor} {a : α} {strides : List (Cursor × α)} :
      (p n c).ending = .value (.success a middle) → c.position < middle.position →
      Strides p n middle strides d → Strides p n c ((c, a) :: strides) d

/-- A success of the parser at the cursor does not move. -/
def StaysAt (p : Parser α) (n : Nat) (d : Cursor) : Prop :=
  ∀ a rest, (p n d).ending = .value (.success a rest) → rest.position = d.position

variable {p : Parser α} {n : Nat} {c d : Cursor} {strides : List (Cursor × α)}

/-- A stride reads at least one character. -/
theorem GoesForward.stride (hp : p.GoesForward) (hc : c.Valid) {a : α} {rest : Cursor}
    (hsuccess : (p n c).ending = .value (.success a rest)) (hmoves : c.position < rest.position) :
    rest.Valid ∧ rest.rest.length < c.rest.length := by
  obtain ⟨hrest, hsource, hle⟩ := hp n c a rest hc hsuccess
  obtain ⟨cs, hreads⟩ := hc.reads_of_le hrest hsource hle
  have hposition := hreads.position_eq
  have hlength := hreads.length_eq
  have hsome : cs ≠ [] := by
    rintro rfl
    simp at hposition
    omega
  have hpos : 0 < cs.length := List.length_pos_iff.2 hsome
  exact ⟨hrest, by omega⟩

/-- Every stride reads one character at least, so there are no more of them than characters. -/
theorem Strides.length_add_le (h : Strides p n c strides d) (hp : p.GoesForward) (hc : c.Valid) :
    strides.length + d.rest.length ≤ c.rest.length := by
  -- each stride leaves fewer characters, though it is the positions that it compares
  induction h with
  | nil c => simp
  | cons hsuccess hmoves _ ih =>
    obtain ⟨hmiddle, hlt⟩ := hp.stride hc hsuccess hmoves
    have hle := ih hmiddle
    simp only [List.length_cons]
    omega

/-- There is a round that does not move any more. -/
theorem exists_strides (hp : p.GoesForward) (n : Nat) (hc : c.Valid) :
    ∃ strides d, Strides p n c strides d ∧ StaysAt p n d := by
  -- by induction on the number of characters that are left
  generalize hlength : c.rest.length = length
  induction length using Nat.strongRecOn generalizing c with
  | _ length ih =>
    by_cases hstays : StaysAt p n c
    · exact ⟨[], c, .nil c, hstays⟩
    · simp only [StaysAt, Classical.not_forall] at hstays
      obtain ⟨a, rest, hsuccess, hne⟩ := hstays
      have hle := (hp n c a rest hc hsuccess).2.2
      have hmoves : c.position < rest.position := by omega
      obtain ⟨hrest, hlt⟩ := hp.stride hc hsuccess hmoves
      obtain ⟨strides, d, hstrides, hlast⟩ := ih rest.rest.length (by omega) hrest rfl
      exact ⟨(c, a) :: strides, d, .cons hsuccess hmoves hstrides, hlast⟩

/-- Marking each round with a record changes none of the strides. -/
theorem Strides.announce (h : Strides p n c strides d) (mark : List Record) :
    Strides (p.announce mark) n c strides d := by
  induction h with
  | nil c => exact .nil c
  | cons hsuccess hmoves _ ih => exact .cons hsuccess hmoves ih

/-! ## The last round -/

/-- The round that ends a repetition, behind the values given in reverse. -/
def lastRound (p : Parser α) (past : List α) : Parser (List α) := fun n d =>
  p n d >>= fun outcome =>
    match outcome with
    | .success a rest => succeed (a :: past).reverse rest
    | .failure e => if e.consumed then fail e else succeed past.reverse d

/-- The last round leaves the records of its parser, and no others. -/
theorem records_lastRound (p : Parser α) (past : List α) (n : Nat) (d : Cursor) :
    (lastRound p past n d).records = (p n d).records := by
  unfold lastRound
  generalize p n d = r
  cases r using outcome_cases with
  | success records a rest => simp [bind_value, succeed]
  | failure records e =>
    obtain ⟨ds, consumed⟩ := e
    cases consumed <;> simp [bind_value, succeed, fail]
  | fault records e => rfl
  | outOfFuel records => rfl

/-- A loop that stands where a round stays behind ends with that round. -/
theorem loop_repeatStep_of_stays (hlast : StaysAt p n d) (rounds : Nat) (past : List α) :
    Run.loop (repeatStep p n) (rounds + 1) (past, d) = lastRound p past n d := by
  rw [repeatFrom_succ, lastRound]
  apply bind_congr_value
  intro outcome houtcome
  cases outcome with
  | success a rest => simp only [hlast a rest houtcome, if_true]
  | failure e => rfl

/-- What the strides leave to do is to go on behind them, with their values. -/
theorem Strides.loop_eq (h : Strides p n c strides d) (rounds : Nat) (past : List α) :
    Run.loop (repeatStep p n) (strides.length + rounds) (past, c) =
      (Run.loop (repeatStep p n) rounds ((strides.map Prod.snd).reverse ++ past, d)).prepend
        (strides.flatMap fun stride => (p n stride.1).records) := by
  induction h generalizing past with
  | nil c => simp
  | @cons c middle d a strides hsuccess hmoves _ ih =>
    have hrun : p n c = ⟨(p n c).records, .value (.success a middle)⟩ := Run.ext rfl hsuccess
    have hne : middle.position ≠ c.position := by omega
    have hrounds : strides.length + 1 + rounds = strides.length + rounds + 1 := by omega
    rw [List.length_cons, hrounds, repeatFrom_succ, hrun, bind_value]
    simp only [if_neg hne, ih, prepend_prepend, List.flatMap_cons, List.map_cons,
      List.reverse_cons, List.append_assoc, List.singleton_append]

/-- The strides and the last round are the whole loop, however many rounds it could have had. -/
theorem Strides.loop_eq_lastRound (h : Strides p n c strides d) (hlast : StaysAt p n d)
    {rounds : Nat} (hrounds : strides.length < rounds) (past : List α) :
    Run.loop (repeatStep p n) rounds (past, c) =
      (lastRound p ((strides.map Prod.snd).reverse ++ past) n d).prepend
        (strides.flatMap fun stride => (p n stride.1).records) := by
  obtain ⟨more, rfl⟩ := Nat.exists_eq_add_of_lt hrounds
  rw [Nat.add_assoc, h.loop_eq, loop_repeatStep_of_stays hlast]

/-- A repetition is its strides and its last round: their records in order, and their values. -/
theorem Strides.many_eq (h : Strides p n c strides d) (hlast : StaysAt p n d)
    (hrounds : strides.length < n) :
    many p n c = (lastRound p (strides.map Prod.snd).reverse n d).prepend
      (strides.flatMap fun stride => (p n stride.1).records) := by
  have hloop := h.loop_eq_lastRound hlast hrounds []
  rw [List.append_nil] at hloop
  exact hloop

/-- More rounds than there are characters left make no difference. -/
theorem loop_repeatStep_congr (hp : p.GoesForward) (hc : c.Valid) {rounds rounds' : Nat}
    (hrounds : c.rest.length < rounds) (hrounds' : c.rest.length < rounds') (past : List α) :
    Run.loop (repeatStep p n) rounds (past, c) = Run.loop (repeatStep p n) rounds' (past, c) := by
  obtain ⟨strides, d, hstrides, hlast⟩ := exists_strides hp n hc
  have hle := hstrides.length_add_le hp hc
  rw [hstrides.loop_eq_lastRound hlast (by omega), hstrides.loop_eq_lastRound hlast (by omega)]

/-- Either there is no first value, or a repetition that needs one is any repetition. -/
theorem many1_eq_many (hp : p.GoesForward) (hc : c.Valid) (hn : c.rest.length < n)
    (hfirst : ∀ e, (p n c).ending ≠ .value (.failure e)) : many1 p n c = many p n c := by
  obtain ⟨rounds, rfl⟩ := Nat.exists_eq_add_of_le' (Nat.one_le_of_lt hn)
  rw [many, repeatFrom, repeatFrom_succ, many1, andThen]
  apply bind_congr_value
  intro outcome houtcome
  cases outcome with
  | failure e => exact absurd houtcome (hfirst e)
  | success a rest =>
    by_cases hsame : rest.position = c.position
    · simp only [if_pos hsame]
      rfl
    · -- behind the first value the two loops have one round of difference, which they do not need
      have hle := (hp _ c a rest hc houtcome).2.2
      obtain ⟨hrest, hlt⟩ := hp.stride hc houtcome (by omega)
      simp only [if_neg hsame]
      exact loop_repeatStep_congr hp hrest (by omega) (by omega) [a]

/-! ## The law of repetitions -/

/-- How the last round lets a repetition end. -/
inductive Exit where
  /-- It succeeds where it began; its value is kept. -/
  | still
  /-- It fails uncommitted; the values before it are all there are. -/
  | passed
  /-- It fails committed, and so does the repetition. -/
  | stopped

/-- The last round is at cursor `d`, behind the values given: it takes the exit if it ends in this way
and the whole repetition in that way. -/
def Exit.Taken (values : List α) (d : Cursor) (last : Ending (Outcome α))
    (whole : Ending (Outcome (List α))) : Exit → Prop
  | still => ∃ a rest, last = .value (.success a rest) ∧ rest.position = d.position ∧
      whole = .value (.success (values ++ [a]) rest)
  | passed => ∃ e, last = .value (.failure e) ∧ e.consumed = false ∧
      whole = .value (.success values d)
  | stopped => ∃ e, last = .value (.failure e) ∧ e.consumed = true ∧ whole = .value (.failure e)

/-- The last round takes at most one of the exits. -/
theorem Exit.Taken.unique {values : List α} {last : Ending (Outcome α)}
    {whole : Ending (Outcome (List α))} {exit exit' : Exit} (h : exit.Taken values d last whole)
    (h' : exit'.Taken values d last whole) : exit = exit' := by
  cases exit <;> cases exit' <;> grind [Exit.Taken]

/-- Of the ways out exactly one is taken. -/
theorem existsUnique_exit (hlast : StaysAt p n d) (values : List α) {outcome : Outcome α}
    (houtcome : (p n d).ending = .value outcome) :
    ∃! exit, Exit.Taken values d (p n d).ending (lastRound p values.reverse n d).ending exit := by
  have hrun : p n d = ⟨(p n d).records, .value outcome⟩ := Run.ext rfl houtcome
  have htaken : ∃ exit,
      Exit.Taken values d (p n d).ending (lastRound p values.reverse n d).ending exit := by
    rw [lastRound, hrun, bind_value]
    rcases outcome with ⟨a, rest⟩ | ⟨ds, consumed⟩
    · exact ⟨.still, a, rest, rfl, hlast a rest houtcome, by simp [succeed]⟩
    · cases consumed with
      | false => exact ⟨.passed, _, rfl, rfl, by simp [succeed]⟩
      | true => exact ⟨.stopped, _, rfl, rfl, by simp [fail]⟩
  obtain ⟨exit, hexit⟩ := htaken
  exact ⟨exit, hexit, fun exit' hexit' => hexit'.unique hexit⟩

/-- Where the parser is called. -/
def calls (strides : List (Cursor × α)) (d : Cursor) : List Cursor := strides.map Prod.fst ++ [d]

/-- What a repetition does, by its strides and the cursor of its last round. -/
structure RepeatsTo (p : Parser α) (n : Nat) (c : Cursor) (strides : List (Cursor × α)) (d : Cursor) :
    Prop where
  /-- The parser succeeds and moves on from the start to the last round. -/
  moves : Strides p n c strides d
  /-- There is at most one call more than there are characters left. -/
  calls_le : (calls strides d).length ≤ c.rest.length + 1
  /-- A mark that is left by every call is left by these calls, each followed by the records of that
  call, and there are no other records. -/
  records : ∀ mark, (many (p.announce mark) n c).records =
    (calls strides d).flatMap fun place => mark ++ (p n place).records
  /-- If the last round comes to an outcome, then exactly one of the exits is taken. -/
  exit : ∀ outcome, (p n d).ending = .value outcome →
    ∃! exit, Exit.Taken (strides.map Prod.snd) d (p n d).ending (many p n c).ending exit
  /-- If it runs into a fault, the repetition does. -/
  fault : ∀ e, (p n d).ending = .fault e → (many p n c).ending = .fault e
  /-- If it does not end, the repetition does not. -/
  outOfFuel : (p n d).ending = .outOfFuel → (many p n c).ending = .outOfFuel

/-- The strides from here to a place where a round stays behind are what the repetition does. -/
theorem Strides.repeatsTo (h : Strides p n c strides d) (hlast : StaysAt p n d)
    (hle : strides.length ≤ c.rest.length) (hn : c.rest.length < n) :
    RepeatsTo p n c strides d := by
  -- the strides end before the fuel does, since each of them reads a character
  have hmany := h.many_eq hlast (by omega)
  have hending : (many p n c).ending = (lastRound p (strides.map Prod.snd).reverse n d).ending := by
    rw [hmany, ending_prepend]
  refine ⟨h, by simpa [calls] using hle, ?_, ?_, ?_, ?_⟩
  · intro mark
    have hmarked := (h.announce mark).many_eq hlast (by omega)
    rw [hmarked, records_prepend, records_lastRound, calls, List.flatMap_append, List.flatMap_map,
      List.flatMap_singleton]
    rfl
  · intro outcome houtcome
    rw [hending]
    exact existsUnique_exit hlast _ houtcome
  · intro e he
    rw [hending, lastRound, bind_def, he]
  · intro he
    rw [hending, lastRound, bind_def, he]

/-- From a valid cursor, with fuel for more rounds than there are characters left, a parser that does
not go back is repeated for as long as it moves, and once more; the last round decides what comes of it.
A repetition never fails uncommitted. One that needs a first value fails as that fails, and is the same
run otherwise. -/
theorem repetition_runs_to_last_round (hp : p.GoesForward) (hc : c.Valid)
    (hn : c.rest.length < n) :
    (∃ strides d, RepeatsTo p n c strides d) ∧
      (∀ e, (many p n c).ending = .value (.failure e) → e.consumed = true) ∧
      (∀ e, (p n c).ending = .value (.failure e) →
        many1 p n c = ⟨(p n c).records, .value (.failure e)⟩) ∧
      ((∀ e, (p n c).ending ≠ .value (.failure e)) → many1 p n c = many p n c) := by
  refine ⟨?_, fun e => consumed_of_commit_eq (commit_many p n c), ?_, many1_eq_many hp hc hn⟩
  · obtain ⟨strides, d, hstrides, hlast⟩ := exists_strides hp n hc
    have hle := hstrides.length_add_le hp hc
    exact ⟨strides, d, hstrides.repeatsTo hlast (by omega) hn⟩
  · intro e he
    have hrun : p n c = ⟨(p n c).records, .value (.failure e)⟩ := Run.ext rfl he
    rw [many1, hrun, andThen, bind_value]
    simp [fail, prepend, pure, Run.pure]

/-- Letters of two bytes, begun behind another one: two strides, and a last round that succeeds without
moving. -/
theorem repetition_of_optional_letter :
    let p : Parser (Option String) := optional (text "é")
    let source := Source.ofString 0 "ßéé1"
    let c : Cursor := ⟨source, 2, ['é', 'é', '1']⟩
    p.GoesForward ∧ c.Valid ∧ c.rest.length < 4 ∧
      (many p 4 c).ending = .value (.success [some "é", some "é", none] ⟨source, 6, ['1']⟩) ∧
      (∃ strides d, RepeatsTo p 4 c strides d) ∧
      (∀ e, (many p 4 c).ending = .value (.failure e) → e.consumed = true) ∧
      (∀ e, (p 4 c).ending = .value (.failure e) →
        many1 p 4 c = ⟨(p 4 c).records, .value (.failure e)⟩) ∧
      ((∀ e, (p 4 c).ending ≠ .value (.failure e)) → many1 p 4 c = many p 4 c) := by
  intro p source c
  have hp : p.GoesForward := .of_readsOn (ReadsOn.text "é").optional
  have hc : c.Valid := (Cursor.valid_start source).next
  have hmany : (many p 4 c).ending =
      .value (.success [some "é", some "é", none] ⟨source, 6, ['1']⟩) := rfl
  exact ⟨hp, hc, by decide, hmany, repetition_runs_to_last_round hp hc (by decide)⟩

end Parser

end CommittedParsing
