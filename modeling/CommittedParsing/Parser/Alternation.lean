import CommittedParsing.Parser.Basic

/-!
# Alternatives

Ordered choice: every alternative starts at the same cursor, the first success wins, and a
committed failure stops the search. If all fail uncommitted, their diagnostics are reported
together, in order.

Main statements:
* `Parser.choice_nil` — a choice of nothing fails without a diagnostic.
-/

namespace CommittedParsing.Parser

variable {α : Type}

/-! ## Ordered choice -/

/-- The first parser, and the second if the first fails uncommitted. A committed failure of the
first is recorded. -/
protected def or (p q : Parser α) : Parser α := fun n c =>
  p n c >>= fun outcome =>
    match outcome with
    | .success a rest => Run.succeed a rest
    | .failure e =>
      if e.consumed then (Run.fail e).prepend [.committed c.position e]
      else (q n c).mapFailure e.merge

/-- The alternatives that are left, after others have failed uncommitted with the diagnostics
given. -/
def choiceAfter (past : Failure) : List (Parser α) → Parser α
  | [] => fun _ _ => Run.fail past
  | p :: ps => fun n c =>
    p n c >>= fun outcome =>
      match outcome with
      | .success a rest => Run.succeed a rest
      | .failure e =>
        if e.consumed then (Run.fail (past.merge e)).prepend [.committed c.position (past.merge e)]
        else choiceAfter (past.merge e) ps n c

/-- The first of several alternatives that does not fail uncommitted. A committed failure of any
of them is recorded. -/
def choice (ps : List (Parser α)) : Parser α := choiceAfter Failure.empty ps

@[simp] theorem choice_nil : choice ([] : List (Parser α)) = fun _ _ => Run.fail Failure.empty := rfl

/-! ## Marks -/

/-- A failure is taken back to the start: it loses its commit, but keeps its diagnostics. -/
def attempt (p : Parser α) : Parser α := fun n c => (p n c).mapFailure Failure.uncommit

/-- Name what a parser expects. An uncommitted failure is reported under that name alone; a
committed one already points inside the construct and is left as it is. -/
def label (description : String) (p : Parser α) : Parser α := fun n c =>
  (p n c).mapFailure fun e =>
    if e.consumed then e else Failure.expected description c.position

/-- A parser, or nothing where it fails uncommitted. -/
def optional (p : Parser α) : Parser (Option α) := fun n c =>
  p n c >>= fun outcome =>
    match outcome with
    | .success a rest => Run.succeed (some a) rest
    | .failure e => if e.consumed then Run.fail e else Run.succeed none c

/-- Succeed, without consuming, exactly where a parser fails. -/
protected def not (description : String) (p : Parser α) : Parser Unit := fun n c =>
  p n c >>= fun outcome =>
    match outcome with
    | .success _ _ => Run.fail (Failure.expected description c.position)
    | .failure _ => Run.succeed () c

end CommittedParsing.Parser
