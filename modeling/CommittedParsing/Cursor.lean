import CommittedParsing.Text.Bytes

/-!
# Cursors

A cursor is a place in a source: a byte position together with the text that is left from there.
Cursors are values, so keeping one and coming back to it later is how a parser backtracks.

Main statements:
* `Cursor.valid_start`, `Cursor.Valid.next` — walking from the start stays between characters;
* `Cursor.Valid.position_add_byteLength_rest` — position and unparsed text add up to the source;
* `Cursor.Reads.trans` — what is read in two steps is the one text after the other.
-/

namespace CommittedParsing

open Text

/-! ## Sources -/

/-- A text to be parsed. Two sources with equal text are told apart by their identity. -/
structure Source where
  /-- Which source this is. -/
  identity : Nat
  /-- The characters of the source. -/
  text : List Char
  /-- The size of the source in bytes. -/
  size : Nat := byteLength text
  size_eq : size = byteLength text := by rfl

/-- The source with the given identity and text. -/
def Source.ofString (identity : Nat) (text : String) : Source where
  identity := identity
  text := text.toList

/-! ## Cursors and their movements -/

/-- A place in a source. -/
structure Cursor where
  /-- The source this cursor walks over. -/
  source : Source
  /-- The number of bytes before this place. -/
  position : Nat
  /-- The text from this place on. -/
  rest : List Char

namespace Cursor

/-- The cursor at the start of a source. -/
def start (source : Source) : Cursor := ⟨source, 0, source.text⟩

/-- The character at this place, if the text goes on. -/
def value? (c : Cursor) : Option Char := c.rest.head?

/-- The cursor after the next character; at the end of the text it stays where it is. -/
def next (c : Cursor) : Cursor :=
  match c.rest with
  | [] => c
  | ch :: rest => { c with position := c.position + ch.utf8Size, rest := rest }

/-- The cursor after `count` steps. -/
def advance (c : Cursor) : Nat → Cursor
  | 0 => c
  | count + 1 => c.next.advance count

/-- The cursor after a text that stands at this place. -/
def skip (c : Cursor) (matched rest : List Char) : Cursor :=
  { c with position := c.position + byteLength matched, rest := rest }

/-- The number of bytes left. -/
def remaining (c : Cursor) : Nat := c.source.size - c.position

/-- Nothing is left to parse. -/
def atEnd (c : Cursor) : Bool := decide (c.source.size ≤ c.position)

/-! ## Comparison -/

/-- Two cursors walk over the same source. -/
def sameSource (a b : Cursor) : Bool := a.source.identity == b.source.identity

/-- Cursors are ordered by position, and only within one source. -/
def compare? (a b : Cursor) : Option Ordering :=
  if a.sameSource b then some (compare a.position b.position) else none

/-- Two cursors stand at the same place of the same source. -/
def isSame (a b : Cursor) : Bool := a.sameSource b && a.position == b.position

/-- Two cursors are in one source, the first before the second. -/
def isBefore (a b : Cursor) : Bool := a.compare? b == some .lt

/-- Two cursors are in one source, the first not after the second. -/
def isAtMost (a b : Cursor) : Bool := a.isBefore b || a.compare? b == some .eq

/-! ## Valid cursors -/

/-- The cursor stands between two characters of its source (or at an end), and its unparsed text
is what follows there. -/
def Valid (c : Cursor) : Prop :=
  ∃ before, c.source.text = before ++ c.rest ∧ byteLength before = c.position

/-- A source is read from a valid cursor. -/
theorem valid_start (source : Source) : (start source).Valid := ⟨[], rfl, rfl⟩

/-- What has been read and what is left are the source. -/
theorem Valid.position_add_byteLength_rest {c : Cursor} (h : c.Valid) :
    c.position + byteLength c.rest = c.source.size := by
  obtain ⟨before, htext, hpos⟩ := h
  rw [c.source.size_eq, htext, byteLength_append, hpos]

theorem Valid.position_le_size {c : Cursor} (h : c.Valid) : c.position ≤ c.source.size := by
  have := h.position_add_byteLength_rest
  omega

theorem Valid.remaining_eq {c : Cursor} (h : c.Valid) : c.remaining = byteLength c.rest := by
  have := h.position_add_byteLength_rest
  simp only [remaining]
  omega

theorem Valid.atEnd_iff {c : Cursor} (h : c.Valid) : c.atEnd = true ↔ c.rest = [] := by
  have := h.position_add_byteLength_rest
  rw [atEnd, decide_eq_true_iff, ← byteLength_eq_zero_iff]
  omega

/-- Reading whole characters leads from a valid cursor to a valid one. -/
theorem Valid.skip {c : Cursor} (h : c.Valid) {matched rest : List Char}
    (hrest : c.rest = matched ++ rest) : (c.skip matched rest).Valid := by
  obtain ⟨before, htext, hpos⟩ := h
  exact ⟨before ++ matched, by simp [Cursor.skip, htext, hrest], by simp [Cursor.skip, hpos]⟩

theorem next_of_cons {c : Cursor} {ch : Char} {rest : List Char} (h : c.rest = ch :: rest) :
    c.next = c.skip [ch] rest := by
  simp [next, skip, h]

theorem next_of_nil {c : Cursor} (h : c.rest = []) : c.next = c := by
  simp [next, h]

theorem Valid.next {c : Cursor} (h : c.Valid) : c.next.Valid := by
  cases hrest : c.rest with
  | nil => rwa [next_of_nil hrest]
  | cons ch rest =>
    rw [next_of_cons hrest]
    exact h.skip hrest

theorem Valid.advance {c : Cursor} (h : c.Valid) (count : Nat) : (c.advance count).Valid := by
  induction count generalizing c with
  | zero => exact h
  | succ count ih => exact ih h.next

/-! ## Reading -/

@[simp] theorem skip_nil (c : Cursor) : c.skip [] c.rest = c := rfl

@[simp] theorem rest_skip (c : Cursor) (matched rest : List Char) :
    (c.skip matched rest).rest = rest := rfl

@[simp] theorem skip_skip (c : Cursor) (matched rest matched' rest' : List Char) :
    (c.skip matched rest).skip matched' rest' = c.skip (matched ++ matched') rest' := by
  simp only [skip, byteLength_append, Nat.add_assoc]

/-- Every character takes a byte at least, so reading one moves the position. -/
theorem position_skip_cons_ne (c : Cursor) (ch : Char) (matched rest : List Char) :
    (c.skip (ch :: matched) rest).position ≠ c.position := by
  have : 0 < ch.utf8Size := ch.utf8Size_pos
  simp only [skip, byteLength_cons]
  omega

/-- A text stands at the first cursor, and the second stands behind it. -/
def Reads (c : Cursor) (matched : List Char) (c' : Cursor) : Prop :=
  c.rest = matched ++ c'.rest ∧ c' = c.skip matched c'.rest

namespace Reads

variable {c d e : Cursor} {cs ds : List Char}

theorem refl (c : Cursor) : c.Reads [] c := ⟨rfl, rfl⟩

theorem skip {rest : List Char} (h : c.rest = cs ++ rest) : c.Reads cs (c.skip cs rest) := ⟨h, rfl⟩

/-- Two readings one behind the other are a reading of both texts. -/
theorem trans (h : c.Reads cs d) (h' : d.Reads ds e) : c.Reads (cs ++ ds) e := by
  obtain ⟨hrest, hd⟩ := h
  obtain ⟨hrest', he⟩ := h'
  refine ⟨by rw [hrest, hrest', List.append_assoc], ?_⟩
  rw [he, hd, skip_skip, rest_skip]

theorem length_eq (h : c.Reads cs d) : c.rest.length = cs.length + d.rest.length := by
  rw [h.1, List.length_append]

theorem source_eq (h : c.Reads cs d) : d.source = c.source := by
  rw [h.2, Cursor.skip]

/-- The position goes on by the bytes of what is read. -/
theorem position_eq (h : c.Reads cs d) : d.position = c.position + byteLength cs := by
  rw [h.2, Cursor.skip]

/-- What stands behind some text stands somewhere else. -/
theorem position_ne (h : c.Reads cs d) (hsome : cs ≠ []) : d.position ≠ c.position := by
  obtain ⟨ch, text, rfl⟩ := List.exists_cons_of_ne_nil hsome
  rw [h.2]
  exact position_skip_cons_ne c ch text d.rest

/-- A reading that begins at a valid cursor ends at one. -/
theorem valid (h : c.Reads cs d) (hc : c.Valid) : d.Valid := by
  rw [h.2]
  exact hc.skip h.1

end Reads

end Cursor

end CommittedParsing
