import CommittedParsing.Report

/-!
# Places in a text, by bytes and by lines

A place in a text is a number of bytes, which may end inside a character. The same place is a line and an
offset in it: the walk over the text counts the line feeds that it passes and remembers where the last of
them ended. Cutting the text into lines gives the same answer, since no other character has a byte that
looks like a line feed, and each line is followed by one of them.

Main statements:
* `Text.newline_not_mem_utf8` — a line feed is never part of another character;
* `LinePosition.line_ofByte` — the line is counted in bytes;
* `LinePosition.ofByte_standsAt` — the line and the offset are found among the lines of the text;
* `LinePosition.ofByte_inj` — the line and the offset say as much as the byte.
-/

namespace CommittedParsing

namespace Text

/-! ## Bytes -/

/-- The bytes of the UTF-8 form of a text. -/
def bytes (cs : List Char) : List UInt8 := cs.flatMap String.utf8EncodeChar

/-- The byte of a line feed. -/
def newlineByte : UInt8 := 10

@[simp] theorem bytes_nil : bytes [] = [] := rfl

theorem bytes_cons (c : Char) (cs : List Char) :
    bytes (c :: cs) = String.utf8EncodeChar c ++ bytes cs := rfl

theorem length_bytes (cs : List Char) : (bytes cs).length = byteLength cs := by
  induction cs with
  | nil => rfl
  | cons c cs ih =>
    rw [bytes_cons, List.length_append, String.length_utf8EncodeChar, ih, byteLength_cons]

/-- A line feed is never part of another character. -/
theorem newline_not_mem_utf8 {c : Char} (hc : c ≠ '\n') :
    newlineByte ∉ String.utf8EncodeChar c := by
  intro hmem
  have hbyte : ∀ k : Nat, newlineByte = UInt8.ofNat k → k % 256 = 10 := by
    intro k hk
    have hnat := congrArg UInt8.toNat hk
    simpa [newlineByte] using hnat.symm
  unfold String.utf8EncodeChar at hmem
  simp only at hmem
  split at hmem
  · -- a character of one byte is that byte
    have hcode := hbyte _ (List.mem_singleton.1 hmem)
    have hval : c.val.toNat = 10 := by omega
    exact hc (Char.ext (UInt32.toNat.inj hval))
  · -- the bytes of longer characters are all large
    split at hmem
    · simp only [List.mem_cons, List.not_mem_nil, or_false] at hmem
      rcases hmem with h | h <;> have := hbyte _ h <;> omega
    · split at hmem <;> simp only [List.mem_cons, List.not_mem_nil, or_false] at hmem
      · rcases hmem with h | h | h <;> have := hbyte _ h <;> omega
      · rcases hmem with h | h | h | h <;> have := hbyte _ h <;> omega

/-- How many of the first bytes of a text are line feeds. -/
def newlinesBefore (target : Nat) (cs : List Char) : Nat :=
  ((bytes cs).take target).count newlineByte

@[simp] theorem newlinesBefore_zero (cs : List Char) : newlinesBefore 0 cs = 0 := by
  simp [newlinesBefore]

@[simp] theorem newlinesBefore_nil (target : Nat) : newlinesBefore target [] = 0 := by
  simp [newlinesBefore]

/-- A line feed that lies before the place is counted, and the others behind it. -/
theorem newlinesBefore_newline {target : Nat} (htarget : 0 < target) (cs : List Char) :
    newlinesBefore target ('\n' :: cs) = newlinesBefore (target - 1) cs + 1 := by
  obtain ⟨k, rfl⟩ := Nat.exists_eq_add_of_le' htarget
  have hbyte : bytes ('\n' :: cs) = newlineByte :: bytes cs := rfl
  simp [newlinesBefore, hbyte]

/-- A place inside another character, or behind it, has the same line feeds before it. -/
theorem newlinesBefore_of_ne {c : Char} (hc : c ≠ '\n') (target : Nat) (cs : List Char) :
    newlinesBefore target (c :: cs) = newlinesBefore (target - c.utf8Size) cs := by
  have hnone : ((String.utf8EncodeChar c).take target).count newlineByte = 0 := by
    rw [List.count_eq_zero]
    exact fun hmem => newline_not_mem_utf8 hc (List.mem_of_mem_take hmem)
  rw [newlinesBefore, bytes_cons, List.take_append, List.count_append, hnone,
    String.length_utf8EncodeChar, Nat.zero_add, newlinesBefore]

/-! ## Lines -/

/-- What stands in front of a text in the same line stands in front of its first line. -/
theorem lines_append_of_not_mem {before : List Char} (hbefore : '\n' ∉ before) (cs : List Char) :
    ∃ first others, lines cs = first :: others ∧ lines (before ++ cs) = (before ++ first) :: others := by
  induction before with
  | nil =>
    obtain ⟨first, others, hlines⟩ := List.exists_cons_of_ne_nil (lines_ne_nil cs)
    exact ⟨first, others, hlines, hlines⟩
  | cons b before ih =>
    have hb : b ≠ '\n' := fun h => hbefore (h ▸ List.mem_cons_self)
    obtain ⟨first, others, hlines, hboth⟩ := ih fun h => hbefore (List.mem_cons_of_mem b h)
    refine ⟨first, others, hlines, ?_⟩
    rw [List.cons_append, lines_cons, if_neg hb, hboth]
    rfl

/-- The bytes of several lines, each with the line feed behind it. -/
def byteLengthWithFeeds (ls : List (List Char)) : Nat :=
  ls.foldr (fun line n => byteLength line + 1 + n) 0

@[simp] theorem byteLengthWithFeeds_nil : byteLengthWithFeeds [] = 0 := rfl

@[simp] theorem byteLengthWithFeeds_cons (line : List Char) (ls : List (List Char)) :
    byteLengthWithFeeds (line :: ls) = byteLength line + 1 + byteLengthWithFeeds ls := rfl

/-- So many lines, and so many bytes of the next one, are the first bytes of the lines. -/
def StandsAt (ls : List (List Char)) (before offset target : Nat) : Prop :=
  (∃ line, ls[before]? = some line ∧ offset ≤ byteLength line) ∧
    byteLengthWithFeeds (ls.take before) + offset = target

/-- A place in the first line is as many bytes behind the beginning as it is in the line. -/
theorem standsAt_zero {line : List Char} {offset : Nat} (h : offset ≤ byteLength line)
    (ls : List (List Char)) : StandsAt (line :: ls) 0 offset offset := by
  constructor
  · exact ⟨line, rfl, h⟩
  · simp

/-- One line more in front moves the place by that line and its line feed. -/
theorem StandsAt.cons {ls : List (List Char)} {before offset target : Nat}
    (h : StandsAt ls before offset target) (line : List Char) :
    StandsAt (line :: ls) (before + 1) offset (byteLength line + 1 + target) := by
  obtain ⟨hline, hsum⟩ := h
  refine ⟨by simpa using hline, ?_⟩
  simp only [List.take_succ_cons, byteLengthWithFeeds_cons]
  omega

end Text

open Text

/-! ## The walk over a text -/

namespace LinePosition

/-- The line feeds that are passed are the bytes of line feeds up to the target. -/
theorem line_walk (target : Nat) (cs : List Char) (index line lineStart : Nat) :
    (walk target cs index line lineStart).line = line + newlinesBefore (target - index) cs := by
  -- inside a character the walk ends behind the target, where the difference is zero as well
  induction cs generalizing index line lineStart with
  | nil => simp [walk]
  | cons c cs ih =>
    unfold walk
    by_cases htarget : target ≤ index
    · have hzero : target - index = 0 := by omega
      simp [htarget, hzero]
    · rw [if_neg htarget]
      by_cases hc : c = '\n'
      · subst hc
        have hpos : 0 < target - index := by omega
        rw [if_pos rfl, ih, newlinesBefore_newline hpos, Nat.sub_sub]
        omega
      · rw [if_neg hc, ih, newlinesBefore_of_ne hc, Nat.sub_sub]

/-- A walk that begins behind the part `before` of a line stands where it was to go, counted from the
beginning of that line. -/
theorem walk_standsAt {target : Nat} {before : List Char} (hbefore : '\n' ∉ before)
    (cs : List Char) (line lineStart : Nat) (hstart : lineStart ≤ target)
    (hend : target ≤ lineStart + byteLength (before ++ cs)) :
    let place := walk target cs (lineStart + byteLength before) line lineStart
    line ≤ place.line ∧
      StandsAt (lines (before ++ cs)) (place.line - line) place.byteOffset (target - lineStart) := by
  -- over the text that is left, with the part of the line that has been passed in `before`
  induction cs generalizing before line lineStart with
  | nil =>
    have hlines : lines (before ++ []) = [before] := by
      rw [List.append_nil, lines_of_not_mem hbefore]
    rw [List.append_nil] at hend
    simp only [walk, hlines, Nat.sub_self]
    exact ⟨Nat.le_refl line, standsAt_zero (by omega) []⟩
  | cons c cs ih =>
    unfold walk
    by_cases htarget : target ≤ lineStart + byteLength before
    · -- the walk is over, in the first line of what is left
      obtain ⟨first, others, _, hlines⟩ := lines_append_of_not_mem hbefore (c :: cs)
      rw [if_pos htarget, hlines]
      have hoffset : target - lineStart ≤ byteLength (before ++ first) := by
        rw [byteLength_append]
        omega
      simp only [Nat.sub_self]
      exact ⟨Nat.le_refl line, standsAt_zero hoffset others⟩
    · rw [if_neg htarget]
      by_cases hc : c = '\n'
      · -- the next line begins behind the line feed
        subst hc
        have hsize : '\n'.utf8Size = 1 := rfl
        simp only [byteLength_append, byteLength_cons, hsize] at hend
        have hnone : '\n' ∉ ([] : List Char) := List.not_mem_nil
        have hnext := ih hnone (line + 1) (lineStart + byteLength before + 1)
          (by omega) (by rw [List.nil_append]; omega)
        obtain ⟨hle, hstands⟩ := hnext
        rw [if_pos rfl, lines_append_newline hbefore]
        simp only [byteLength_nil, Nat.add_zero, List.nil_append] at hle hstands
        have hwhole := hstands.cons before
        generalize walk target cs (lineStart + byteLength before + 1) (line + 1)
          (lineStart + byteLength before + 1) = place at hle hwhole ⊢
        have hlines : place.line - (line + 1) + 1 = place.line - line := by omega
        have hbytes : byteLength before + 1 + (target - (lineStart + byteLength before + 1)) =
            target - lineStart := by omega
        rw [hlines, hbytes] at hwhole
        exact ⟨by omega, hwhole⟩
      · -- the character belongs to the same line
        have hmore : '\n' ∉ before ++ [c] := by
          simp only [List.mem_append, List.mem_singleton, not_or]
          exact ⟨hbefore, fun h => hc h.symm⟩
        have hindex : lineStart + byteLength before + c.utf8Size =
            lineStart + byteLength (before ++ [c]) := by
          simp only [byteLength_append, byteLength_cons, byteLength_nil]
          omega
        have htext : before ++ c :: cs = (before ++ [c]) ++ cs := by simp
        rw [if_neg hc, hindex, htext]
        exact ih hmore line lineStart hstart (htext ▸ hend)

variable {text : List Char} {target target' : Nat}

/-- The line is one more than the line feeds before the place. -/
theorem line_ofByte (text : List Char) (target : Nat) :
    (ofByte text target).line = 1 + newlinesBefore target text :=
  line_walk target text 0 1 0

/-- The line and the offset in it say where the place is, counted in bytes. -/
theorem ofByte_standsAt (htarget : target ≤ byteLength text) :
    StandsAt (lines text) ((ofByte text target).line - 1) (ofByte text target).byteOffset target := by
  have hnone : '\n' ∉ ([] : List Char) := List.not_mem_nil
  have hwalk := walk_standsAt hnone text 1 0 (Nat.zero_le target) (by simpa using htarget)
  exact hwalk.2

/-- The line and the offset say as much as the byte. -/
theorem ofByte_inj (htarget : target ≤ byteLength text) (htarget' : target' ≤ byteLength text) :
    (ofByte text target).line = (ofByte text target').line ∧
        (ofByte text target).byteOffset = (ofByte text target').byteOffset ↔ target = target' := by
  constructor
  · intro ⟨hline, hoffset⟩
    have hsum := (ofByte_standsAt htarget).2
    have hsum' := (ofByte_standsAt htarget').2
    rw [← hsum, ← hsum', hline, hoffset]
  · intro hsame
    rw [hsame]
    exact ⟨rfl, rfl⟩

end LinePosition

end CommittedParsing
