import CommittedParsing.Failure
import CommittedParsing.Text.Bytes
import CommittedParsing.Text.Lines

/-!
# Reports

A report locates a failure in its text: the furthest byte any alternative reached, the line and
the byte offset in it, what was expected there, and a window of lines with a pointer.

Main statements:
* `Failure.position_locate_le` — a report never points past the end of the text.
-/

namespace CommittedParsing

open Text

/-! ## Lines and offsets -/

/-- A place in a text by lines: the number of its line, counted from one, and the number of bytes
of that line before it. -/
structure LinePosition where
  line : Nat
  byteOffset : Nat
deriving DecidableEq, Repr

/-- Walk over a text from byte `index`, in the given line that began at byte `lineStart`, up to
the byte `target`. Bytes are counted, not columns: a column depends on tabs and on glyph widths. -/
def LinePosition.walk (target : Nat) : List Char → Nat → Nat → Nat → LinePosition
  | [], _, line, lineStart => ⟨line, target - lineStart⟩
  | c :: cs, index, line, lineStart =>
    if target ≤ index then ⟨line, target - lineStart⟩
    else if c = '\n' then walk target cs (index + 1) (line + 1) (index + 1)
    else walk target cs (index + c.utf8Size) line lineStart

/-- The line and offset of a byte of a text. -/
def LinePosition.ofByte (text : List Char) (target : Nat) : LinePosition :=
  LinePosition.walk target text 0 1 0

/-! ## The window of lines -/

/-- What stands before a shown line: a mark if it is the line of the error, and its number. -/
def lineMargin (marked : Bool) (number : Nat) : List Char :=
  (if marked then "  > ".toList else "    ".toList) ++ Nat.toDigits 10 number ++ " | ".toList

/-- The line under the line of the error, with a caret under the byte of the error. -/
def pointerLine (place : LinePosition) : List Char :=
  List.replicate (byteLength (lineMargin true place.line) + place.byteOffset) ' ' ++
    "^--- here".toList

/-- How a line is shown, with the pointer below the line of the error. -/
def shownLines (place : LinePosition) (content : List Char) (number : Nat) : List (List Char) :=
  if number = place.line then [lineMargin true number ++ content, pointerLine place]
  else [lineMargin false number ++ content]

/-- The line of the error with at most two lines before and after it. A final line feed starts an
empty last line, which is where an error at the end of the text points. -/
def window (text : List Char) (place : LinePosition) : List (List Char) :=
  ((lines text).zipIdx 1).flatMap fun (content, number) =>
    -- lines are counted from one, so a difference that would go below zero may stop there
    if place.line - 2 ≤ number ∧ number ≤ place.line + 2 then shownLines place content number
    else []

/-! ## Reports -/

/-- A failure located in its text. -/
structure Report where
  /-- The byte of the error. -/
  position : Nat
  /-- The line of the error, counted from one. -/
  line : Nat
  /-- The number of bytes of that line before the error. -/
  byteOffset : Nat
  /-- What was expected at that place, each description once. -/
  expected : List String
  /-- The lines around the error, with a pointer. -/
  snippet : String
deriving DecidableEq, Repr

/-- Descriptions joined as alternatives. -/
def alternatives : List String → String
  | [] => "valid input"
  | [single] => single
  | several => ", ".intercalate several.dropLast ++ " or " ++ several.getLastD ""

/-- The wording of a report. -/
def Report.message (r : Report) : String :=
  s!"Syntax error at line {r.line}, byte offset {r.byteOffset}: expected " ++
    alternatives r.expected ++ "\n\n" ++ r.snippet

/-- Locate a failure in the text that was parsed: at its furthest diagnostic, but never past the
end of the text. -/
def Failure.locate (f : Failure) (text : List Char) : Report :=
  let position := min (f.position?.getD 0) (byteLength text)
  let place := LinePosition.ofByte text position
  { position := position
    line := place.line
    byteOffset := place.byteOffset
    expected := (f.furthest.map Diagnostic.expected).eraseDups
    snippet := String.ofList (joinLines (window text place)) }

/-- The report of a failure stands within the text, wherever the failure does. -/
theorem Failure.position_locate_le (f : Failure) (text : List Char) :
    (f.locate text).position ≤ byteLength text :=
  Nat.min_le_right _ _

end CommittedParsing
