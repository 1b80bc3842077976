/-!
# Lines of a text

A text is cut at its line feeds. A line feed at the very end starts a last, empty line, so every
text has at least one line.

Main statements:
* `lines_ne_nil` — there is always a first line;
* `lines_of_not_mem` — a text without a line feed is its own only line;
* `lines_append_newline` — what stands before a line feed forms whole lines;
* `lines_joinLines` — joining lines with line feeds is undone by cutting.
-/

namespace CommittedParsing.Text

/-- Put a character in front of the first of several lines. -/
def consFirst (c : Char) : List (List Char) → List (List Char)
  | [] => [[c]]
  | line :: rest => (c :: line) :: rest

/-- The lines of a text, without their line feeds. -/
def lines (cs : List Char) : List (List Char) :=
  cs.foldr (fun c rest => if c = '\n' then [] :: rest else consFirst c rest) [[]]

@[simp] theorem lines_nil : lines [] = [[]] := rfl

theorem lines_cons (c : Char) (cs : List Char) :
    lines (c :: cs) = if c = '\n' then [] :: lines cs else consFirst c (lines cs) := rfl

theorem lines_ne_nil (cs : List Char) : lines cs ≠ [] := by
  cases cs with
  | nil => simp
  | cons c cs =>
    rw [lines_cons]
    split
    · simp
    · cases lines cs <;> simp [consFirst]

/-- A text without line feeds is one line. -/
theorem lines_of_not_mem {cs : List Char} (h : '\n' ∉ cs) : lines cs = [cs] := by
  induction cs with
  | nil => rfl
  | cons c cs ih =>
    have hc : c ≠ '\n' := fun e => h (by simp [e])
    have hcs : '\n' ∉ cs := fun e => h (List.mem_cons_of_mem _ e)
    simp [lines_cons, hc, ih hcs, consFirst]

/-- A line feed ends the first line. -/
theorem lines_append_newline {line : List Char} (h : '\n' ∉ line) (rest : List Char) :
    lines (line ++ '\n' :: rest) = line :: lines rest := by
  induction line with
  | nil => simp [lines_cons]
  | cons c cs ih =>
    have hc : c ≠ '\n' := fun e => h (by simp [e])
    have hcs : '\n' ∉ cs := fun e => h (List.mem_cons_of_mem _ e)
    simp [lines_cons, hc, ih hcs, consFirst]

/-! ## Joining -/

/-- Put a line feed between each two lines. -/
def joinLines : List (List Char) → List Char
  | [] => []
  | [line] => line
  | line :: next :: rest => line ++ '\n' :: joinLines (next :: rest)

/-- Lines that are joined by line feeds are split again as they were. -/
theorem lines_joinLines {ls : List (List Char)} (hne : ls ≠ [])
    (hls : ∀ line ∈ ls, '\n' ∉ line) : lines (joinLines ls) = ls := by
  induction ls with
  | nil => exact absurd rfl hne
  | cons line rest ih =>
    have hline : '\n' ∉ line := hls line (by simp)
    cases rest with
    | nil => exact lines_of_not_mem hline
    | cons next rest =>
      rw [joinLines, lines_append_newline hline,
        ih (by simp) fun l hl => hls l (List.mem_cons_of_mem _ hl)]

end CommittedParsing.Text
