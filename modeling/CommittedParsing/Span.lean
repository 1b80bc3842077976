import CommittedParsing.Fault
import CommittedParsing.Text.Bytes

/-!
# Spans

A span is a stretch of a text between two bytes, its start included and its end not.

Main statements:
* `Span.slice?_eq_some_iff` — a slice is what stands between the two bytes, if both fall between
  characters;
* `Span.length_eq_ok_iff` — the length exists exactly if the span is not inverted.
-/

namespace CommittedParsing

open Text

/-- A stretch of a text. -/
structure Span where
  /-- The first byte. -/
  start : Nat
  /-- The byte after the last one. -/
  stop : Nat
deriving DecidableEq, Repr

namespace Span

/-- The number of bytes; a span that ends before it starts has none, and asking is a fault. -/
def length (s : Span) : Except Fault Nat :=
  if s.start ≤ s.stop then .ok (s.stop - s.start) else .error .belowZero

/-- Start and end coincide. -/
def isEmpty (s : Span) : Bool := s.start == s.stop

/-- The text of the span, unless the span is inverted, leaves the text or cuts a character. -/
def slice? (s : Span) (text : List Char) : Option (List Char) :=
  if s.start ≤ s.stop then
    (splitAtByte? s.start text).bind fun (_, tail) =>
      (splitAtByte? (s.stop - s.start) tail).map Prod.fst
  else none

/-- A span has a length exactly if it does not stop before it starts. -/
theorem length_eq_ok_iff {s : Span} {n : Nat} : s.length = .ok n ↔ s.start + n = s.stop := by
  unfold length
  split <;> simp only [Except.ok.injEq, reduceCtorEq, false_iff] <;> omega

/-- A span cuts a text exactly where both of its ends are between characters. -/
theorem slice?_eq_some_iff {s : Span} {text cut : List Char} :
    s.slice? text = some cut ↔
      ∃ before after, text = before ++ cut ++ after ∧ byteLength before = s.start ∧
        s.start + byteLength cut = s.stop := by
  unfold slice?
  constructor
  · intro h
    -- the text is split at the start of the span, and what is behind it at its length
    split at h
    next hle =>
      simp only [Option.bind_eq_some_iff, Option.map_eq_some_iff] at h
      obtain ⟨⟨before, tail⟩, hbefore, ⟨cut', after⟩, hcut, rfl⟩ := h
      obtain ⟨rfl, hstart⟩ := append_of_splitAtByte? hbefore
      obtain ⟨rfl, hlen⟩ := append_of_splitAtByte? hcut
      exact ⟨before, after, by simp, hstart, by simp only at hlen ⊢; omega⟩
    next => simp at h
  · rintro ⟨before, after, rfl, hstart, hstop⟩
    have hle : s.start ≤ s.stop := by omega
    have hlen : s.stop - s.start = byteLength cut := by omega
    rw [if_pos hle, ← hstart, List.append_assoc, splitAtByte?_byteLength]
    simp only [Option.bind_some]
    rw [hstart, hlen, splitAtByte?_byteLength]
    rfl

end Span

end CommittedParsing
