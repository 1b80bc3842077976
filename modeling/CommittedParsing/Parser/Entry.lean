import CommittedParsing.Parser.Basic
import CommittedParsing.Report

/-!
# Parsing a whole text

Entry points that start a parser at the beginning of a source and leave records of how it went.
Text that is left over is the caller's business: a grammar that must reach the end says so.

Main statements:
* `Parser.ending_parse` — records aside, parsing a source is running the parser at its start.
-/

namespace CommittedParsing

/-- The record of how a parse ended. -/
def Outcome.record {α : Type} : Outcome α → Record
  | .success _ rest => .succeeded rest.position rest.remaining
  | .failure e => .failed e

namespace Parser

variable {α : Type}

/-- Fuel for any parse that can be waited for. -/
def ampleFuel : Nat := Nat.pow 2 60

/-- Parse a source from its start, recording the beginning and the end of the parse. -/
def parse (p : Parser α) (source : Source) (fuel : Nat) : Run (Outcome α) :=
  (p fuel (Cursor.start source) >>= fun outcome =>
    (pure outcome : Run (Outcome α)).prepend [outcome.record]).prepend [.parsing source.size]

/-- What parsing a text comes to, with the failure located in it. -/
inductive Located (α : Type) where
  | success (value : α) (rest : Cursor)
  | failure (report : Report)

/-- Parse a source from its start, and locate the failure if there is one. -/
def parseLocated (p : Parser α) (source : Source) (fuel : Nat) : Run (Located α) :=
  p.parse source fuel >>= fun outcome =>
    match outcome with
    | .success a rest => pure (.success a rest)
    | .failure e => pure (.failure (e.locate source.text))

/-- A parse ends as the run from the start of the source does. -/
theorem ending_parse (p : Parser α) (source : Source) (fuel : Nat) :
    (p.parse source fuel).ending = (p fuel (Cursor.start source)).ending := by
  unfold parse
  rw [Run.ending_prepend]
  generalize p fuel (Cursor.start source) = r
  obtain ⟨rs, ending⟩ := r
  cases ending <;> rfl

end Parser

end CommittedParsing
