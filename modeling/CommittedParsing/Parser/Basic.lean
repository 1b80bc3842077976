import CommittedParsing.Cursor
import CommittedParsing.Run
import CommittedParsing.Span

/-!
# Parsers

A parser takes a cursor and either succeeds, with a value and the cursor after it, or fails. It
runs on fuel: the depth of recursion and the length of every repetition are bounded by it, and a
run that has ended does not depend on it.

Main statements:
* `Run.ending_andThen_eq_success_iff`, `Run.ending_andThen_eq_failure_iff` — when two steps in a row
  succeed, and when they fail;
* `Run.andThen_assoc` — going on after a success is associative;
* `Run.mapFailure_andThen` — a change to the failures of two steps in a row is a change to each.
-/

namespace CommittedParsing

/-! ## Outcomes -/

/-- What a parser comes to. -/
inductive Outcome (α : Type) where
  /-- A value, and the cursor after it. -/
  | success (value : α) (rest : Cursor)
  | failure (failure : Failure)

namespace Outcome

variable {α β : Type}

/-- Change the value of a success. -/
def map (f : α → β) : Outcome α → Outcome β
  | success a c => success (f a) c
  | failure e => failure e

/-- Change a failure. -/
def mapFailure (f : Failure → Failure) : Outcome α → Outcome α
  | success a c => success a c
  | failure e => failure (f e)

@[simp] theorem map_success (f : α → β) (a : α) (c : Cursor) :
    (success a c).map f = success (f a) c := rfl
@[simp] theorem map_failure (f : α → β) (e : Failure) :
    (failure e : Outcome α).map f = failure e := rfl
@[simp] theorem mapFailure_success (f : Failure → Failure) (a : α) (c : Cursor) :
    (success a c).mapFailure f = success a c := rfl
@[simp] theorem mapFailure_failure (f : Failure → Failure) (e : Failure) :
    (failure e : Outcome α).mapFailure f = failure (f e) := rfl

end Outcome

/-- A parser for values of type `α`. -/
abbrev Parser (α : Type) := Nat → Cursor → Run (Outcome α)

/-! ## Steps of a parse -/

namespace Run

variable {α β γ : Type}

/-- A run of a parser succeeds, or it fails, or it hits a fault, or it does not end. -/
@[elab_as_elim]
theorem outcome_cases {motive : Run (Outcome α) → Prop} (r : Run (Outcome α))
    (success : ∀ records a rest, motive ⟨records, .value (.success a rest)⟩)
    (failure : ∀ records e, motive ⟨records, .value (.failure e)⟩)
    (fault : ∀ records e, motive ⟨records, .fault e⟩)
    (outOfFuel : ∀ records, motive ⟨records, .outOfFuel⟩) : motive r := by
  obtain ⟨records, ending⟩ := r
  cases ending with
  | value outcome =>
    cases outcome with
    | success a rest => exact success records a rest
    | failure e => exact failure records e
  | fault e => exact fault records e
  | outOfFuel => exact outOfFuel records

/-- Succeed with a value at a cursor. -/
def succeed (a : α) (c : Cursor) : Run (Outcome α) := pure (.success a c)

/-- Fail. -/
def fail (e : Failure) : Run (Outcome α) := pure (.failure e)

/-- Go on after a success; a failure is final. -/
def andThen (r : Run (Outcome α)) (next : α → Cursor → Run (Outcome β)) : Run (Outcome β) :=
  r >>= fun outcome =>
    match outcome with
    | .success a c => next a c
    | .failure e => fail e

/-- Change the failure that a run comes to. -/
def mapFailure (f : Failure → Failure) (r : Run (Outcome α)) : Run (Outcome α) :=
  r >>= fun outcome => pure (outcome.mapFailure f)

/-- Fail past the point of no return. -/
def commit (r : Run (Outcome α)) : Run (Outcome α) := r.mapFailure Failure.commit

@[simp] theorem stops_succeed (a : α) (rest : Cursor) : (succeed a rest).stops = [] := rfl

@[simp] theorem stops_fail (e : Failure) : (fail e : Run (Outcome α)).stops = [] := rfl

@[simp] theorem succeed_andThen (a : α) (c : Cursor) (next : α → Cursor → Run (Outcome β)) :
    (succeed a c).andThen next = next a c := rfl

@[simp] theorem fail_andThen (e : Failure) (next : α → Cursor → Run (Outcome β)) :
    (fail e : Run (Outcome α)).andThen next = fail e := rfl

@[simp] theorem mapFailure_succeed (f : Failure → Failure) (a : α) (c : Cursor) :
    (succeed a c).mapFailure f = succeed a c := rfl

@[simp] theorem mapFailure_fail (f : Failure → Failure) (e : Failure) :
    (fail e : Run (Outcome α)).mapFailure f = fail (f e) := rfl

/-- Sequences may be taken together on either side. -/
theorem andThen_assoc (r : Run (Outcome α)) (next : α → Cursor → Run (Outcome β))
    (after : β → Cursor → Run (Outcome γ)) :
    (r.andThen next).andThen after = r.andThen fun a c => (next a c).andThen after := by
  unfold andThen
  rw [bind_assoc]
  congr 1
  funext outcome
  cases outcome <;> rfl

/-- A change of the failures of a sequence is made in both of its parts. -/
theorem mapFailure_andThen (f : Failure → Failure) (r : Run (Outcome α))
    (next : α → Cursor → Run (Outcome β)) :
    (r.andThen next).mapFailure f =
      (r.mapFailure f).andThen fun a c => (next a c).mapFailure f := by
  unfold andThen mapFailure
  rw [bind_assoc, bind_assoc]
  congr 1
  funext outcome
  cases outcome <;> rfl

theorem mapFailure_mapFailure (f g : Failure → Failure) (r : Run (Outcome α)) :
    (r.mapFailure f).mapFailure g = r.mapFailure (g ∘ f) := by
  unfold mapFailure
  rw [bind_assoc]
  congr 1
  funext outcome
  cases outcome <;> rfl

/-- A sequence succeeds exactly if both parts do, the second from where the first has ended. -/
theorem ending_andThen_eq_success_iff {r : Run (Outcome α)}
    {next : α → Cursor → Run (Outcome β)} {b : β} {rest : Cursor} :
    (r.andThen next).ending = .value (.success b rest) ↔
      ∃ a c, r.ending = .value (.success a c) ∧ (next a c).ending = .value (.success b rest) := by
  unfold andThen
  rw [ending_bind_eq_value_iff]
  constructor
  · rintro ⟨outcome, hr, hnext⟩
    cases outcome with
    | success a c => exact ⟨a, c, hr, hnext⟩
    | failure e => cases hnext
  · rintro ⟨a, c, hr, hnext⟩
    exact ⟨.success a c, hr, hnext⟩

/-- It fails exactly if the first part does, or the second behind a success of the first. -/
theorem ending_andThen_eq_failure_iff {r : Run (Outcome α)}
    {next : α → Cursor → Run (Outcome β)} {e : Failure} :
    (r.andThen next).ending = .value (.failure e) ↔
      r.ending = .value (.failure e) ∨
        ∃ a c, r.ending = .value (.success a c) ∧ (next a c).ending = .value (.failure e) := by
  unfold andThen
  rw [ending_bind_eq_value_iff]
  constructor
  · rintro ⟨outcome, hr, hnext⟩
    cases outcome with
    | success a c => exact .inr ⟨a, c, hr, hnext⟩
    | failure f =>
      cases hnext
      exact .inl hr
  · rintro (hr | ⟨a, c, hr, hnext⟩)
    · exact ⟨.failure e, hr, rfl⟩
    · exact ⟨.success a c, hr, hnext⟩

/-- A change of failures makes no success and takes none away. -/
theorem ending_mapFailure_eq_success_iff {f : Failure → Failure} {r : Run (Outcome α)} {a : α}
    {rest : Cursor} :
    (r.mapFailure f).ending = .value (.success a rest) ↔
      r.ending = .value (.success a rest) := by
  unfold mapFailure
  rw [ending_bind_eq_value_iff]
  constructor
  · rintro ⟨outcome, hr, hnext⟩
    cases outcome with
    | success b c =>
      cases hnext
      exact hr
    | failure e => cases hnext
  · intro hr
    exact ⟨.success a rest, hr, rfl⟩

/-- A failure behind the change is one from before it, changed. -/
theorem ending_mapFailure_eq_failure_iff {f : Failure → Failure} {r : Run (Outcome α)}
    {e : Failure} :
    (r.mapFailure f).ending = .value (.failure e) ↔
      ∃ before, r.ending = .value (.failure before) ∧ f before = e := by
  unfold mapFailure
  rw [ending_bind_eq_value_iff]
  constructor
  · rintro ⟨outcome, hr, hnext⟩
    cases outcome with
    | success b c => cases hnext
    | failure before =>
      cases hnext
      exact ⟨before, hr, rfl⟩
  · rintro ⟨before, hr, rfl⟩
    exact ⟨.failure before, hr, rfl⟩

/-- Committing twice is committing once. -/
@[simp] theorem commit_commit (r : Run (Outcome α)) : r.commit.commit = r.commit := by
  unfold commit
  rw [mapFailure_mapFailure]
  rfl

end Run

/-! ## Parsers without a step of their own -/

namespace Parser

variable {α β γ : Type}

/-- Succeed without consuming. -/
protected def pure (a : α) : Parser α := fun _ c => Run.succeed a c

/-- A parser written directly as a function of the cursor, which may hit a fault. -/
def ofFunction (parse : Cursor → Except Fault (Outcome α)) : Parser α :=
  fun _ c => Run.ofExcept (parse c)

/-- End with a fault. -/
def fault (e : Fault) : Parser α := fun _ _ => Run.fault e

/-- Leave records before parsing. -/
def announce (records : List Record) (p : Parser α) : Parser α :=
  fun n c => (p n c).prepend records

/-- Change the value of a success; failures pass unchanged. -/
def map (f : α → β) (p : Parser α) : Parser β :=
  fun n c => (p n c).andThen fun a rest => Run.succeed (f a) rest

/-- Change the value of a success by a computation that may hit a fault. -/
def mapChecked (f : α → Except Fault β) (p : Parser α) : Parser β :=
  fun n c => (p n c).andThen fun a rest => Run.ofExcept (f a) >>= fun b => Run.succeed b rest

@[simp] theorem announce_nil (p : Parser α) : announce [] p = p := rfl

theorem map_map (f : α → β) (g : β → γ) (p : Parser α) : (p.map f).map g = p.map fun a => g (f a) := by
  funext n c
  simp only [map, Run.andThen_assoc, Run.succeed_andThen]

/-- Accept only values that pass a test, which may hit a fault. A rejected value is a committed failure where
the parse began, even if nothing was consumed: the attempt was made. -/
def filterChecked (accepts : α → Except Fault Bool) (description : String) (p : Parser α) :
    Parser α :=
  fun n c => (p n c).andThen fun a rest =>
    Run.ofExcept (accepts a) >>= fun accepted =>
      if accepted then Run.succeed a rest
      else Run.fail (Failure.expected description c.position).commit

/-- Pair the value with the span it was parsed from. -/
def position (p : Parser α) : Parser (α × Span) :=
  fun n c => (p n c).andThen fun a rest => Run.succeed (a, ⟨c.position, rest.position⟩) rest

end Parser

end CommittedParsing
