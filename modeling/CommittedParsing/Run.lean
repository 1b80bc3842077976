import CommittedParsing.Failure
import CommittedParsing.Fault

/-!
# Runs

A run is what an evaluation does: the records it leaves, in order, and how it ends. It ends with a
value, with a fault, or not within the fuel that it was given.

Main statements:
* `Run.ending_bind_eq_value_iff` — a sequence of runs gives a value exactly if both runs do;
* `Run.loop_succ` — one round of a loop is one step, then the loop again or its answer;
* the `LawfulMonad` instance — sequencing runs is associative, and `pure` leaves no record.
-/

namespace CommittedParsing

/-! ## Records -/

/-- A note of what happened during a run. -/
inductive Record where
  /-- A parse of a text of so many bytes begins. -/
  | parsing (size : Nat)
  /-- A parse succeeded at a byte, with so many bytes left. -/
  | succeeded (position remaining : Nat)
  /-- A parse failed. -/
  | failed (failure : Failure)
  /-- An alternation that began at a byte was stopped by a committed failure. -/
  | committed (position : Nat) (failure : Failure)
  /-- A rule got its definition. -/
  | ruleDefined
deriving DecidableEq, Repr

/-- How much a record matters. -/
inductive Level where
  | debug
  | trace
deriving DecidableEq, Repr

/-- Beginnings and ends of parses are for debugging, all else is for tracing. -/
def Record.level : Record → Level
  | parsing .. | succeeded .. | failed .. => .debug
  | committed .. | ruleDefined => .trace

/-- The wording of a record. -/
def Record.message : Record → String
  | parsing size => s!"parsing {size} bytes"
  | succeeded position remaining =>
    s!"parse succeeded at byte {position} with {remaining} bytes remaining"
  | failed failure =>
    s!"parse failed with {failure.diagnostics.length} diagnostics " ++
      (if failure.consumed then "(consumed: true)" else "(consumed: false)")
  | committed position _ => s!"alternative committed at byte {position}"
  | ruleDefined => "recursive rule defined"

/-- Where the alternation began that was stopped, and the failure that it came to. -/
def Record.stop? : Record → Option (Nat × Failure)
  | .committed position e => some (position, e)
  | .parsing _ | .succeeded _ _ | .failed _ | .ruleDefined => none

/-- The records of rule definitions say nothing of stopped alternations. -/
theorem Record.filterMap_stop?_ruleDefined (count : Nat) :
    (List.replicate count Record.ruleDefined).filterMap Record.stop? = [] := by
  induction count with
  | zero => rfl
  | succ count ih => exact ih

/-! ## Runs -/

/-- How a run ends. -/
inductive Ending (α : Type) where
  /-- It gives a value. -/
  | value (a : α)
  /-- It hits a mistake in the grammar. -/
  | fault (fault : Fault)
  /-- It has not ended when its fuel is used up. -/
  | outOfFuel
deriving DecidableEq, Repr

/-- The records of an evaluation and its ending. -/
structure Run (α : Type) where
  records : List Record
  ending : Ending α
deriving DecidableEq, Repr

namespace Run

variable {α β σ : Type}

@[ext] theorem ext {r s : Run α} (hrecords : r.records = s.records) (hending : r.ending = s.ending) :
    r = s := by
  cases r
  cases s
  simp_all

/-- A run that leaves no record and gives a value. -/
protected def pure (a : α) : Run α := ⟨[], .value a⟩

/-- Put records in front of a run. -/
def prepend (records : List Record) (r : Run α) : Run α := ⟨records ++ r.records, r.ending⟩

/-- Go on with the value of a run; a fault and a lack of fuel end it. -/
protected def bind (r : Run α) (next : α → Run β) : Run β :=
  match r.ending with
  | .value a => (next a).prepend r.records
  | .fault e => ⟨r.records, .fault e⟩
  | .outOfFuel => ⟨r.records, .outOfFuel⟩

instance : Monad Run where
  pure := Run.pure
  bind := Run.bind

/-- End with a fault. -/
def fault (e : Fault) : Run α := ⟨[], .fault e⟩

/-- End for want of fuel. -/
def outOfFuel : Run α := ⟨[], .outOfFuel⟩

/-- End with the value or the fault of a checked computation. -/
def ofExcept : Except Fault α → Run α
  | .ok a => Run.pure a
  | .error e => fault e

@[simp] theorem records_pure (a : α) : (pure a : Run α).records = [] := rfl
@[simp] theorem ending_pure (a : α) : (pure a : Run α).ending = .value a := rfl
@[simp] theorem records_prepend (rs : List Record) (r : Run α) :
    (r.prepend rs).records = rs ++ r.records := rfl
@[simp] theorem ending_prepend (rs : List Record) (r : Run α) : (r.prepend rs).ending = r.ending := rfl

@[simp] theorem prepend_nil (r : Run α) : r.prepend [] = r := rfl

@[simp] theorem prepend_prepend (rs ss : List Record) (r : Run α) :
    (r.prepend ss).prepend rs = r.prepend (rs ++ ss) := by
  simp [prepend]

/-- The alternations that were stopped during a run, in the order of their records. -/
def stops (r : Run α) : List (Nat × Failure) := r.records.filterMap Record.stop?

@[simp] theorem stops_prepend (records : List Record) (r : Run α) :
    (r.prepend records).stops = records.filterMap Record.stop? ++ r.stops := by
  simp [stops]

/-- The three ways a run goes on. -/
theorem bind_def (r : Run α) (next : α → Run β) :
    r >>= next =
      match r.ending with
      | .value a => (next a).prepend r.records
      | .fault e => ⟨r.records, .fault e⟩
      | .outOfFuel => ⟨r.records, .outOfFuel⟩ := rfl

/-- A run that has come to a value goes on, behind its own records. -/
theorem bind_value (rs : List Record) (a : α) (next : α → Run β) :
    (⟨rs, .value a⟩ : Run α) >>= next = (next a).prepend rs := rfl

theorem bind_fault (rs : List Record) (e : Fault) (next : α → Run β) :
    (⟨rs, .fault e⟩ : Run α) >>= next = ⟨rs, .fault e⟩ := rfl

theorem bind_outOfFuel (rs : List Record) (next : α → Run β) :
    (⟨rs, .outOfFuel⟩ : Run α) >>= next = ⟨rs, .outOfFuel⟩ := rfl

/-- To go on from a run, it only matters how one goes on from the value that it gives. -/
theorem bind_congr_value {r : Run α} {next next' : α → Run β}
    (h : ∀ a, r.ending = .value a → next a = next' a) : r >>= next = r >>= next' := by
  obtain ⟨rs, ending⟩ := r
  cases ending with
  | value a => rw [bind_value, bind_value, h a rfl]
  | fault e => rfl
  | outOfFuel => rfl

/-- Records in front stay in front when a run goes on. -/
theorem prepend_bind (rs : List Record) (r : Run α) (next : α → Run β) :
    r.prepend rs >>= next = (r >>= next).prepend rs := by
  obtain ⟨ss, ending⟩ := r
  cases ending <;> simp [bind_def, prepend]

protected theorem id_map (r : Run α) : id <$> r = r := by
  obtain ⟨rs, ending⟩ := r
  cases ending <;> simp [Functor.map, Run.bind, Run.pure, prepend]

protected theorem bind_assoc {γ : Type} (r : Run α) (next : α → Run β) (after : β → Run γ) :
    r >>= next >>= after = r >>= fun a => next a >>= after := by
  obtain ⟨rs, ending⟩ := r
  cases ending with
  | value a => rw [bind_value, prepend_bind, bind_value]
  | fault e => rfl
  | outOfFuel => rfl

instance : LawfulMonad Run :=
  LawfulMonad.mk' Run Run.id_map (fun _ _ => rfl) Run.bind_assoc

/-- A sequence of runs gives a value exactly if both runs do. -/
theorem ending_bind_eq_value_iff {r : Run α} {next : α → Run β} {b : β} :
    (r >>= next).ending = .value b ↔
      ∃ a, r.ending = .value a ∧ (next a).ending = .value b := by
  obtain ⟨rs, ending⟩ := r
  cases ending with
  | value a => simp [bind_value]
  | fault e => simp [bind_fault]
  | outOfFuel => simp [bind_outOfFuel]

/-! ## Loops -/

/-- Rounds of a loop, with the records of the rounds before in reverse. -/
def rounds (step : σ → Run (σ ⊕ α)) : Nat → List Record → σ → Run α
  | 0, past, _ => ⟨past.reverse, .outOfFuel⟩
  | n + 1, past, s =>
    match step s with
    | ⟨rs, .value (.inl s')⟩ => rounds step n (rs.reverse ++ past) s'
    | ⟨rs, .value (.inr a)⟩ => ⟨(rs.reverse ++ past).reverse, .value a⟩
    | ⟨rs, .fault e⟩ => ⟨(rs.reverse ++ past).reverse, .fault e⟩
    | ⟨rs, .outOfFuel⟩ => ⟨(rs.reverse ++ past).reverse, .outOfFuel⟩

/-- Repeat a step that gives the next state or the answer, at most `n` times. -/
def loop (step : σ → Run (σ ⊕ α)) (n : Nat) (s : σ) : Run α := rounds step n [] s

/-- The records gathered in reverse are those of the loop, in order. -/
theorem rounds_eq (step : σ → Run (σ ⊕ α)) (n : Nat) (past : List Record) (s : σ) :
    rounds step n past s = (loop step n s).prepend past.reverse := by
  induction n generalizing past s with
  | zero => simp [rounds, loop, prepend]
  | succ n ih =>
    unfold loop rounds
    obtain ⟨rs, ending⟩ := step s
    rcases ending with (s' | a) | e | _
    · simp only [ih, List.reverse_append, List.reverse_reverse, prepend_prepend, List.reverse_nil,
        List.nil_append]
    all_goals simp [prepend]

@[simp] theorem loop_zero (step : σ → Run (σ ⊕ α)) (s : σ) : loop step 0 s = outOfFuel := rfl

/-- A loop is one round, and the loop with one unit of fuel less if the round does not end it. -/
theorem loop_succ (step : σ → Run (σ ⊕ α)) (n : Nat) (s : σ) :
    loop step (n + 1) s =
      step s >>= fun next =>
        match next with
        | .inl s' => loop step n s'
        | .inr a => pure a := by
  conv => lhs; unfold loop rounds
  obtain ⟨rs, ending⟩ := step s
  rcases ending with (s' | a) | e | _
  · simp [bind_def, rounds_eq]
  all_goals simp [bind_def, prepend, pure, Run.pure]

end Run

end CommittedParsing
