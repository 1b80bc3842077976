import CommittedParsing.Parser.Entry

/-!
# Applying a parser

A parser is applied to a source in one of three ways: from the start, from the start with its
failure located, or from a cursor some characters further on.

Main statements:
* `Parser.ending_apply_eq_fault_iff`, `Parser.ending_apply_eq_outOfFuel_iff` — applying a parser ends
  without a result exactly as the parser does where it begins;
* `Parser.apply_congr` — nothing but the run of the parser where it begins matters.
-/

namespace CommittedParsing

/-- A way to apply a parser to a source. -/
inductive Mode where
  /-- From the start. -/
  | whole
  /-- From the start, with the failure located in the source. -/
  | located
  /-- From the cursor after so many characters, without records of the parse. -/
  | after (count : Nat)
deriving DecidableEq, Repr

/-- What applying a parser comes to. -/
inductive Result (α : Type) where
  | success (value : α) (rest : Cursor)
  | failure (failure : Failure)
  | report (report : Report)

/-- An outcome as a result. -/
def Outcome.result {α : Type} : Outcome α → Result α
  | success a rest => .success a rest
  | failure e => .failure e

/-- A located outcome as a result. -/
def Parser.Located.result {α : Type} : Parser.Located α → Result α
  | success a rest => .success a rest
  | failure r => .report r

/-- Apply a parser to a source. -/
def Parser.apply {α : Type} (p : Parser α) (mode : Mode) (source : Source) (fuel : Nat) :
    Run (Result α) :=
  match mode with
  | .whole => p.parse source fuel >>= fun outcome => pure outcome.result
  | .located => p.parseLocated source fuel >>= fun located => pure located.result
  | .after count =>
    p fuel ((Cursor.start source).advance count) >>= fun outcome => pure outcome.result

/-! ## Where a parser begins -/

/-- The cursor at which a parser begins. -/
def Mode.start (mode : Mode) (source : Source) : Cursor :=
  match mode with
  | whole | located => Cursor.start source
  | after count => (Cursor.start source).advance count

/-- However a parser is applied, it starts at a valid cursor. -/
theorem Mode.valid_start (mode : Mode) (source : Source) : (mode.start source).Valid := by
  cases mode with
  | whole => exact Cursor.valid_start source
  | located => exact Cursor.valid_start source
  | after count => exact (Cursor.valid_start source).advance count

namespace Parser

variable {α : Type} {p q : Parser α} {mode : Mode} {source : Source} {n m : Nat}

/-- Parsers that run alike from the start are applied alike. -/
theorem apply_congr (h : p n (mode.start source) = q m (mode.start source)) :
    p.apply mode source n = q.apply mode source m := by
  cases mode with
  | whole => exact congrArg (fun r : Run (Outcome α) => (r >>= _).prepend _ >>= _) h
  | located => exact congrArg (fun r : Run (Outcome α) => ((r >>= _).prepend _ >>= _) >>= _) h
  | after count => exact congrArg (fun r : Run (Outcome α) => r >>= _) h

/-- Applying a parser only puts its outcome in another form. -/
theorem ending_apply (p : Parser α) (mode : Mode) (source : Source) (n : Nat) :
    ∃ form : Outcome α → Result α, (p.apply mode source n).ending =
      match (p n (mode.start source)).ending with
      | .value outcome => .value (form outcome)
      | .fault e => .fault e
      | .outOfFuel => .outOfFuel := by
  -- the three ways differ in where they start and in the form of what they report
  cases mode with
  | whole =>
    refine ⟨Outcome.result, ?_⟩
    unfold apply parse Mode.start
    rcases p n (Cursor.start source) with ⟨records, ending⟩
    cases ending <;> rfl
  | located =>
    refine ⟨fun outcome => match outcome with
      | .success a rest => .success a rest
      | .failure e => .report (e.locate source.text), ?_⟩
    unfold apply parseLocated parse Mode.start
    rcases p n (Cursor.start source) with ⟨records, ending⟩
    rcases ending with (⟨a, rest⟩ | e) | fault | _ <;> rfl
  | after count =>
    refine ⟨Outcome.result, ?_⟩
    simp only [apply, Mode.start]
    rcases p n ((Cursor.start source).advance count) with ⟨records, ending⟩
    cases ending <;> rfl

/-- An application faults exactly as the run does. -/
theorem ending_apply_eq_fault_iff {e : Fault} :
    (p.apply mode source n).ending = .fault e ↔ (p n (mode.start source)).ending = .fault e := by
  rcases ending_apply p mode source n with ⟨form, hform⟩
  rw [hform]
  cases (p n (mode.start source)).ending <;> simp

theorem ending_apply_eq_outOfFuel_iff :
    (p.apply mode source n).ending = .outOfFuel ↔
      (p n (mode.start source)).ending = .outOfFuel := by
  rcases ending_apply p mode source n with ⟨form, hform⟩
  rw [hform]
  cases (p n (mode.start source)).ending <;> simp

end Parser

end CommittedParsing
