import CommittedParsing.Proofs.Reports.Located

/-!
# The window of lines in a report

A report shows the line of the error with at most two lines on either side of it. The lines are numbered
through the whole text and kept or left out one by one, so what is shown is first put together from parts:
lines that are too far away give nothing, lines beside the line of the error are shown as they are, and
that line has the pointer below it. The numbers come from the cuts at line feeds, the line of the error from
the count of line feeds before it; that the two agree is what keeps that line in the window.

Main statements:
* `windowPart_of_outside`, `windowPart_of_beside`, `windowPart_of_inside` — the window, part by part;
* `window_eq` — the lines up to the line of the error, the pointer, and the lines below;
* `Failure.lines_snippet` — cutting a snippet at its line feeds gives back the window;
* `Failure.snippet_shows_window` — what a snippet shows of the text.
-/

namespace CommittedParsing

open Text

/-! ## Margins -/

/-- What stands in front of a line of a window that marks one line. -/
def windowMargin (marked number : Nat) : List Char :=
  ((if number = marked then "  > " else "    ") ++ toString number ++ " | ").toList

/-- Lines as a window shows them, numbered from `first` on. -/
def withMargins (marked first : Nat) (ls : List (List Char)) : List (List Char) :=
  (ls.zipIdx first).map fun (line, number) => windowMargin marked number ++ line

/-- Shown lines, numbered from `first` on, with the margins taken away. -/
def withoutMargins (marked first : Nat) (ls : List (List Char)) : List (List Char) :=
  (ls.zipIdx first).map fun (line, number) => line.drop (windowMargin marked number).length

/-- The margin that the program writes is the margin of the window. -/
theorem lineMargin_eq (marked number : Nat) :
    lineMargin (decide (number = marked)) number = windowMargin marked number := by
  unfold lineMargin windowMargin
  by_cases hmarked : number = marked
  · simp [hmarked]
  · simp [hmarked]

/-- Margins are put on part by part, and the numbers go on. -/
theorem withMargins_append (marked first : Nat) (ls ls' : List (List Char)) :
    withMargins marked first (ls ++ ls') =
      withMargins marked first ls ++ withMargins marked (first + ls.length) ls' := by
  simp [withMargins, List.zipIdx_append]

theorem length_withMargins (marked first : Nat) (ls : List (List Char)) :
    (withMargins marked first ls).length = ls.length := by
  simp [withMargins]

/-- Without the line that was put between them, the lines are those of one stretch. -/
theorem eraseIdx_withMargins {marked first : Nat} {ls : List (List Char)}
    (hmarked : first + ls.length = marked + 1) (between : List Char) (ls' : List (List Char)) :
    (withMargins marked first ls ++ between :: withMargins marked (marked + 1) ls').eraseIdx ls.length =
      withMargins marked first (ls ++ ls') := by
  rw [withMargins_append, hmarked,
    List.eraseIdx_append_of_length_le (Nat.le_of_eq (length_withMargins marked first ls)),
    length_withMargins, Nat.sub_self]
  rfl

/-- Taking the margins off gives back the lines. -/
theorem withoutMargins_withMargins (marked first : Nat) (ls : List (List Char)) :
    withoutMargins marked first (withMargins marked first ls) = ls := by
  induction ls generalizing first with
  | nil => rfl
  | cons line ls ih =>
    have htail := ih (first + 1)
    simp only [withoutMargins, withMargins, List.zipIdx_cons, List.map_cons] at htail ⊢
    rw [htail, List.drop_left]

/-! ## Line feeds -/

/-- A line has no line feed inside. -/
theorem newline_not_mem_lines {cs line : List Char} (hline : line ∈ lines cs) : '\n' ∉ line := by
  -- a line feed ends a line, any other character is put in front of the first one
  induction cs generalizing line with
  | nil => simp_all
  | cons c cs ih =>
    rw [lines_cons] at hline
    by_cases hc : c = '\n'
    · rw [if_pos hc] at hline
      rcases List.mem_cons.1 hline with rfl | hmem
      · exact List.not_mem_nil
      · exact ih hmem
    · rw [if_neg hc] at hline
      rcases List.exists_cons_of_ne_nil (lines_ne_nil cs) with ⟨first, others, hlines⟩
      rw [hlines] at hline ih
      rcases List.mem_cons.1 hline with rfl | hmem
      · have hfirst : '\n' ∉ first := ih List.mem_cons_self
        simp [Ne.symm hc, hfirst]
      · exact ih (List.mem_cons_of_mem first hmem)

theorem newline_not_mem_windowMargin (marked number : Nat) : '\n' ∉ windowMargin marked number := by
  have hdigits : '\n' ∉ Nat.toDigits 10 number := by
    intro hmem
    have hdigit := Nat.isDigit_of_mem_toDigits (by decide) (by decide) hmem
    exact absurd hdigit (by decide)
  unfold windowMargin
  by_cases hmarked : number = marked
  · simpa [hmarked] using hmarked ▸ hdigits
  · simpa [hmarked] using hdigits

/-- Lines without line feeds have none with their margins, either. -/
theorem newline_not_mem_withMargins {marked first : Nat} {ls : List (List Char)}
    (hls : ∀ line ∈ ls, '\n' ∉ line) : ∀ shown ∈ withMargins marked first ls, '\n' ∉ shown := by
  intro shown hshown
  rcases List.mem_map.1 hshown with ⟨⟨line, number⟩, hmem, rfl⟩
  have hline : line ∈ ls := (List.mem_zipIdx hmem).2.2 ▸ List.getElem_mem _
  rw [List.mem_append, not_or]
  exact ⟨newline_not_mem_windowMargin marked number, hls line hline⟩

theorem byteLength_replicate_space (n : Nat) : byteLength (List.replicate n ' ') = n := by
  induction n with
  | zero => rfl
  | succ n ih =>
    have hsize : ' '.utf8Size = 1 := rfl
    rw [List.replicate_succ, byteLength_cons, ih, hsize, Nat.add_comm]

/-- The pointer stands as far to the right as the margin and what the line has before the error take. -/
theorem pointerLine_eq (place : LinePosition) :
    ∃ spaces, pointerLine place = spaces ++ "^--- here".toList ∧ (∀ ch ∈ spaces, ch = ' ') ∧
      byteLength spaces = byteLength (windowMargin place.line place.line) + place.byteOffset := by
  have hmargin : lineMargin true place.line = windowMargin place.line place.line := by
    simpa using lineMargin_eq place.line place.line
  refine ⟨_, rfl, fun ch hch => (List.mem_replicate.1 hch).2, ?_⟩
  rw [byteLength_replicate_space, hmargin]

theorem newline_not_mem_pointerLine (place : LinePosition) : '\n' ∉ pointerLine place := by
  simp [pointerLine, List.mem_replicate]

/-! ## The window in parts -/

/-- What the window shows of lines that are numbered from `first` on. -/
def windowPart (place : LinePosition) (first : Nat) (ls : List (List Char)) : List (List Char) :=
  (ls.zipIdx first).flatMap fun (content, number) =>
    if place.line - 2 ≤ number ∧ number ≤ place.line + 2 then shownLines place content number
    else []

section Parts

variable {place : LinePosition} {first : Nat} {ls : List (List Char)}

/-- The window is made part by part, and the numbers go on. -/
theorem windowPart_append (place : LinePosition) (first : Nat) (ls ls' : List (List Char)) :
    windowPart place first (ls ++ ls') =
      windowPart place first ls ++ windowPart place (first + ls.length) ls' := by
  simp [windowPart, List.zipIdx_append, List.flatMap_append]

/-- Lines before the window, or behind it, are not shown. -/
theorem windowPart_of_outside
    (h : ∀ number, first ≤ number → number < first + ls.length →
      number < place.line - 2 ∨ place.line + 2 < number) : windowPart place first ls = [] := by
  apply List.flatMap_eq_nil_iff.2
  rintro ⟨content, number⟩ hmem
  rcases List.mem_zipIdx hmem with ⟨hbegin, hend, _⟩
  have hout := h number hbegin hend
  have hnot : ¬ (place.line - 2 ≤ number ∧ number ≤ place.line + 2) := by omega
  exact if_neg hnot

/-- Lines of the window on one side of the line of the error are shown as they are. -/
theorem windowPart_of_beside (hbegin : place.line - 2 ≤ first)
    (hend : first + ls.length ≤ place.line + 3)
    (hside : first + ls.length ≤ place.line ∨ place.line < first) :
    windowPart place first ls = withMargins place.line first ls := by
  induction ls generalizing first with
  | nil => rfl
  | cons line ls ih =>
    rw [List.length_cons] at hend hside
    have htail := ih (show place.line - 2 ≤ first + 1 by omega) (by omega) (by omega)
    have hinside : place.line - 2 ≤ first ∧ first ≤ place.line + 2 := by omega
    have hother : first ≠ place.line := by omega
    have hmargin : lineMargin false first = windowMargin place.line first := by
      simpa [hother] using lineMargin_eq place.line first
    simp only [windowPart, withMargins, List.zipIdx_cons, List.flatMap_cons, List.map_cons] at htail ⊢
    rw [htail, if_pos hinside, shownLines, if_neg hother, hmargin]
    rfl

/-- Below the line of the error stands the pointer. -/
theorem windowPart_of_marked (place : LinePosition) (line : List Char) :
    windowPart place place.line [line] =
      withMargins place.line place.line [line] ++ [pointerLine place] := by
  have hmargin : lineMargin true place.line = windowMargin place.line place.line := by
    simpa using lineMargin_eq place.line place.line
  simp [windowPart, withMargins, shownLines, hmargin]

/-- A part that has the line of the error is shown with the pointer below this line. -/
theorem windowPart_of_inside (hbegin : place.line - 2 ≤ first) (hfirst : first ≤ place.line)
    (hline : place.line < first + ls.length) (hend : first + ls.length ≤ place.line + 3) :
    windowPart place first ls =
      withMargins place.line first (ls.take (place.line + 1 - first)) ++
        pointerLine place ::
          withMargins place.line (place.line + 1) (ls.drop (place.line + 1 - first)) := by
  -- above the line of the error and below it the lines are shown as they are
  have hmarked : place.line - first < ls.length := by omega
  let above := ls.take (place.line - first)
  let below := ls.drop (place.line + 1 - first)
  have hupTo : ls.take (place.line + 1 - first) = above ++ [ls[place.line - first]] := by
    have hsucc : place.line + 1 - first = place.line - first + 1 := by omega
    rw [hsucc, List.take_append_getElem]
  have habove : above.length = place.line - first := by
    simp only [above, List.length_take]
    omega
  have hbelow : below.length = ls.length - (place.line + 1 - first) := List.length_drop
  have hnumber : first + above.length = place.line := by omega
  have hls : ls = above ++ ([ls[place.line - first]] ++ below) := by
    rw [← List.append_assoc, ← hupTo, List.take_append_drop]
  calc windowPart place first ls
    _ = windowPart place first above ++ (windowPart place place.line [ls[place.line - first]] ++
          windowPart place (place.line + 1) below) := by
      conv => lhs; rw [hls]
      rw [windowPart_append, hnumber, windowPart_append, List.length_singleton]
    _ = withMargins place.line first above ++
          (withMargins place.line place.line [ls[place.line - first]] ++ [pointerLine place] ++
            withMargins place.line (place.line + 1) below) := by
      have hshown : windowPart place first above = withMargins place.line first above :=
        windowPart_of_beside (by omega) (by omega) (by omega)
      have hshown' : windowPart place (place.line + 1) below =
          withMargins place.line (place.line + 1) below :=
        windowPart_of_beside (by omega) (by omega) (by omega)
      rw [hshown, windowPart_of_marked, hshown']
    _ = _ := by
      rw [hupTo, withMargins_append, hnumber]
      simp [below]

end Parts

/-! ## The whole window -/

/-- The lines that a window around a line shows: two on either side of it, if there are. -/
def linesAround (marked : Nat) (ls : List (List Char)) : List (List Char) :=
  (ls.take (min ls.length (marked + 2))).drop (max 1 (marked - 2) - 1)

/-- There are as many lines as numbers from the first one shown to the last. -/
theorem length_linesAround (marked : Nat) (ls : List (List Char)) :
    (linesAround marked ls).length = min ls.length (marked + 2) - (max 1 (marked - 2) - 1) := by
  simp only [linesAround, List.length_drop, List.length_take]
  omega

/-- The lines before a window and behind it are not shown. -/
theorem windowPart_eq_linesAround {place : LinePosition} {ls : List (List Char)}
    (hle : place.line ≤ ls.length) :
    windowPart place 1 ls =
      windowPart place (max 1 (place.line - 2)) (linesAround place.line ls) := by
  let first := max 1 (place.line - 2)
  let last := min ls.length (place.line + 2)
  let around := linesAround place.line ls
  have haround : around.length = last - (first - 1) := length_linesAround place.line ls
  have hbefore : (ls.take (first - 1)).length = first - 1 := by
    rw [List.length_take]
    omega
  have hbehind : (ls.drop last).length = ls.length - last := List.length_drop
  have hnumber : 1 + (ls.take (first - 1)).length = first := by omega
  -- the lines before the window, those in it, and those behind it
  have hls : ls = ls.take (first - 1) ++ (around ++ ls.drop last) := by
    have hupTo := List.take_append_drop (first - 1) (ls.take last)
    have hmin : min (first - 1) last = first - 1 := by omega
    rw [List.take_take, hmin] at hupTo
    have hwhole := List.take_append_drop last ls
    rw [← hupTo, List.append_assoc] at hwhole
    exact hwhole.symm
  -- only those in the window are shown
  have hnone : windowPart place 1 (ls.take (first - 1)) = [] := windowPart_of_outside (by omega)
  have hnone' : windowPart place (first + around.length) (ls.drop last) = [] :=
    windowPart_of_outside (by omega)
  conv => lhs; rw [hls]
  rw [windowPart_append, hnone, List.nil_append, hnumber, windowPart_append, hnone', List.append_nil]

/-- A window is the lines up to the line of the error, the pointer, and the lines below. -/
theorem window_eq {text : List Char} {place : LinePosition} (hpos : 1 ≤ place.line)
    (hle : place.line ≤ (lines text).length) :
    let first := max 1 (place.line - 2)
    let around := linesAround place.line (lines text)
    window text place =
      withMargins place.line first (around.take (place.line + 1 - first)) ++
        pointerLine place ::
          withMargins place.line (place.line + 1) (around.drop (place.line + 1 - first)) := by
  intro first around
  have hlength : around.length = min (lines text).length (place.line + 2) - (first - 1) :=
    length_linesAround place.line (lines text)
  have hparts : window text place = windowPart place first around := windowPart_eq_linesAround hle
  rw [hparts]
  exact windowPart_of_inside (by omega) (by omega) (by omega) (by omega)

/-- No line of a window has a line feed inside, so the block can be taken apart again. -/
theorem newline_not_mem_window {text : List Char} {place : LinePosition} (hpos : 1 ≤ place.line)
    (hle : place.line ≤ (lines text).length) : ∀ shown ∈ window text place, '\n' ∉ shown := by
  have hlines : ∀ line ∈ linesAround place.line (lines text), '\n' ∉ line := by
    intro line hmem
    exact newline_not_mem_lines (List.mem_of_mem_take (List.mem_of_mem_drop hmem))
  intro shown hshown
  rw [window_eq hpos hle] at hshown
  rcases List.mem_append.1 hshown with hmem | hmem
  · exact newline_not_mem_withMargins (fun line h => hlines line (List.mem_of_mem_take h)) shown hmem
  · rcases List.mem_cons.1 hmem with rfl | hmem
    · exact newline_not_mem_pointerLine place
    · exact newline_not_mem_withMargins (fun line h => hlines line (List.mem_of_mem_drop h)) shown hmem

namespace Failure

/-! ## Snippets -/

/-- The line that is reported is one of the text. -/
theorem line_locate_bounds (f : Failure) (text : List Char) :
    1 ≤ (f.locate text).line ∧ (f.locate text).line ≤ (lines text).length := by
  let place := LinePosition.ofByte text (f.locate text).position
  have hpos : 1 ≤ place.line := by
    rw [LinePosition.line_ofByte]
    omega
  rcases (LinePosition.ofByte_standsAt (position_locate_le f text)).1 with ⟨line, hline, _⟩
  have hlt : place.line - 1 < (lines text).length := (List.getElem?_eq_some_iff.1 hline).1
  have hle : place.line ≤ (lines text).length := by omega
  exact ⟨hpos, hle⟩

/-- Cutting a snippet at its line feeds gives back the lines of the window. -/
theorem lines_snippet (f : Failure) (text : List Char) :
    lines (f.locate text).snippet.toList =
      window text ⟨(f.locate text).line, (f.locate text).byteOffset⟩ := by
  let place : LinePosition := ⟨(f.locate text).line, (f.locate text).byteOffset⟩
  have hpos : 1 ≤ place.line := (line_locate_bounds f text).1
  have hle : place.line ≤ (lines text).length := (line_locate_bounds f text).2
  have hsnippet : (f.locate text).snippet.toList = joinLines (window text place) := String.toList_ofList
  have hsome : window text place ≠ [] := by
    rw [window_eq hpos hle]
    simp
  rw [hsnippet]
  exact lines_joinLines hsome (newline_not_mem_window hpos hle)

/-- A snippet shows the line of the error, which is a line of the text, with the lines around it, and
nothing else of the text. In front of each line stands its number, and a mark if it is the line of the
error. Directly below that line, and nowhere else, stands a pointer, whose caret is as many bytes to the
right as that line has before the error, its margin included. So to take the pointer and the margins away
gives back the lines. -/
theorem snippet_shows_window (f : Failure) (text : List Char) :
    let report := f.locate text
    let shown := lines report.snippet.toList
    let first := max 1 (report.line - 2)
    let last := min (lines text).length (report.line + 2)
    let around := ((lines text).take last).drop (first - 1)
    first ≤ report.line ∧ report.line ≤ last ∧
      (∃ upTo below spaces,
        around = upTo ++ below ∧ upTo.length = report.line + 1 - first ∧
        shown = withMargins report.line first upTo ++
          (spaces ++ "^--- here".toList) :: withMargins report.line (report.line + 1) below ∧
        (∀ ch ∈ spaces, ch = ' ') ∧
        byteLength spaces = byteLength (windowMargin report.line report.line) + report.byteOffset) ∧
      withoutMargins report.line first (shown.eraseIdx (report.line + 1 - first)) = around := by
  intro report shown first last around
  have hpos : 1 ≤ report.line := (line_locate_bounds f text).1
  have hle : report.line ≤ (lines text).length := (line_locate_bounds f text).2
  -- the pointer stands between the lines down to the one that is marked and the others
  have hshown : shown = withMargins report.line first (around.take (report.line + 1 - first)) ++
      pointerLine ⟨report.line, report.byteOffset⟩ ::
        withMargins report.line (report.line + 1) (around.drop (report.line + 1 - first)) :=
    (lines_snippet f text).trans (window_eq hpos hle)
  have hlength : around.length = last - (first - 1) := length_linesAround report.line (lines text)
  have htake : (around.take (report.line + 1 - first)).length = report.line + 1 - first := by
    rw [List.length_take]
    omega
  constructor
  · omega
  constructor
  · omega
  constructor
  · rcases pointerLine_eq ⟨report.line, report.byteOffset⟩ with ⟨spaces, hpointer, hspaces, hcaret⟩
    rw [hpointer] at hshown
    exact ⟨_, _, spaces, (List.take_append_drop _ around).symm, htake, hshown, hspaces, hcaret⟩
  -- without the pointer the numbers of the margins go on, so the margins come off at once
  · have hbehind : first + (around.take (report.line + 1 - first)).length = report.line + 1 := by omega
    have herase := eraseIdx_withMargins hbehind (pointerLine ⟨report.line, report.byteOffset⟩)
      (around.drop (report.line + 1 - first))
    rw [List.take_append_drop, htake, ← hshown] at herase
    rw [herase]
    exact withoutMargins_withMargins report.line first around

end Failure

end CommittedParsing
