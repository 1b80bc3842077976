import CommittedParsing.Proofs.Reports.Places
import Mathlib.Data.List.Basic

/-!
# Located failures

A report says where a failure is in bytes and in lines, and what was expected there. The place is that of
the furthest diagnostic, but not past the end of the text, and both ways to give it say the same. What was
expected is what the furthest diagnostics say, also where the text ends before them: each description
once, in the order in which they came first.

Main statements:
* `pairwise_idxOf_eraseDups` — a list without its repetitions is in the order of first occurrences;
* `Failure.furthest_eq_filter` — the furthest diagnostics are those at the largest byte;
* `Failure.located_by_lines` — what a report says of its failure.
-/

namespace CommittedParsing

open Text

/-! ## Lists without repetitions -/

section

variable {α : Type} [BEq α] [LawfulBEq α]

/-- To keep some members of a list does not change the order of their first occurrences. -/
theorem idxOf_filter_lt_iff {keep : α → Bool} {a b : α} (ha : keep a = true) (hb : keep b = true)
    (l : List α) : (l.filter keep).idxOf a < (l.filter keep).idxOf b ↔ l.idxOf a < l.idxOf b := by
  induction l with
  | nil => simp
  | cons x l ih =>
    by_cases hx : keep x = true
    · rw [List.filter_cons_of_pos hx]
      simp only [List.idxOf_cons, cond_eq_ite, beq_iff_eq]
      split <;> split <;> omega
    · have hxa : x ≠ a := fun h => hx (h ▸ ha)
      have hxb : x ≠ b := fun h => hx (h ▸ hb)
      rw [List.filter_cons_of_neg hx, ih, List.idxOf_cons_ne _ hxa, List.idxOf_cons_ne _ hxb]
      omega

/-- A list without its repetitions is in the order in which its members occurred first. -/
theorem pairwise_idxOf_eraseDups (l : List α) :
    l.eraseDups.Pairwise fun a b => l.idxOf a < l.idxOf b := by
  match l with
  | [] => simp
  | x :: l =>
    -- the repetitions of the first member are taken out before the others are looked at
    let keep : α → Bool := fun b => !b == x
    have hkeep : ∀ a ∈ (l.filter keep).eraseDups, keep a = true := by
      intro a ha
      exact (List.mem_filter.1 (List.mem_eraseDups.1 ha)).2
    have hbehind : ∀ a ∈ (l.filter keep).eraseDups, (x :: l).idxOf a = l.idxOf a + 1 := by
      intro a ha
      have hne : a ≠ x := by simpa [keep] using hkeep a ha
      exact List.idxOf_cons_ne l hne.symm
    rw [List.eraseDups_cons, List.pairwise_cons]
    constructor
    · intro a ha
      rw [List.idxOf_cons_self, hbehind a ha]
      omega
    · have hothers := pairwise_idxOf_eraseDups (l.filter keep)
      refine hothers.imp_of_mem ?_
      intro a b ha hb hlt
      rw [idxOf_filter_lt_iff (hkeep a ha) (hkeep b hb)] at hlt
      rw [hbehind a ha, hbehind b hb]
      omega
termination_by l.length
decreasing_by exact Nat.lt_succ_of_le (List.length_filter_le _ _)

/-- Without its repetitions a list has none. -/
theorem nodup_eraseDups (l : List α) : l.eraseDups.Nodup := by
  refine (pairwise_idxOf_eraseDups l).imp ?_
  rintro a b hlt rfl
  exact Nat.lt_irrefl _ hlt

end

namespace Failure

/-! ## The furthest diagnostics -/

/-- The largest byte at which something was expected, or the beginning of the text. -/
def furthestByte (f : Failure) : Nat := (f.diagnostics.map Diagnostic.position).foldr max 0

/-- What was expected at a byte, in the order in which it was found missing. -/
def expectedAt (f : Failure) (position : Nat) : List String :=
  (f.diagnostics.filter fun d => d.position == position).map Diagnostic.expected

theorem max?_eq_some_foldr {ns : List Nat} (h : ns ≠ []) : ns.max? = some (ns.foldr max 0) := by
  induction ns with
  | nil => exact absurd rfl h
  | cons first others ih =>
    cases others with
    | nil => simp
    | cons second others =>
      rw [List.max?_cons, ih (List.cons_ne_nil second others)]
      rfl

/-- The position of a failure that expects something is the furthest byte. -/
theorem position?_eq_some {f : Failure} (hsome : f.diagnostics ≠ []) :
    f.position? = some f.furthestByte := by
  have hpositions : f.diagnostics.map Diagnostic.position ≠ [] := by simpa using hsome
  exact max?_eq_some_foldr hpositions

theorem position?_getD (f : Failure) : f.position?.getD 0 = f.furthestByte := by
  by_cases hnone : f.diagnostics = []
  · simp [position?, furthestByte, hnone]
  · rw [position?_eq_some hnone, Option.getD_some]

/-- The furthest diagnostics are those at the furthest byte. -/
theorem furthest_eq_filter (f : Failure) :
    f.furthest = f.diagnostics.filter fun d => d.position == f.furthestByte := by
  by_cases hnone : f.diagnostics = []
  · simp [furthest, position?, hnone]
  · rw [furthest, position?_eq_some hnone]

/-! ## Reports -/

/-- The report stands at the furthest byte, or at the end where that lies behind the text. -/
theorem position_locate (f : Failure) (text : List Char) :
    (f.locate text).position = min f.furthestByte (bytes text).length := by
  rw [length_bytes, ← position?_getD]
  rfl

/-- The report expects what is expected at the furthest byte, each once. -/
theorem expected_locate (f : Failure) (text : List Char) :
    (f.locate text).expected = (f.expectedAt f.furthestByte).eraseDups := by
  rw [expectedAt, ← furthest_eq_filter]
  rfl

/-- A report of a failure is at the largest byte of a diagnostic, or at the end of the text if that comes
before. Its line is counted by the line feeds among the bytes in front; its offset is in that line, and
behind the lines before, each with its line feed, it is at that byte. So the line and the offset say as
much as the byte. What was expected is what the diagnostics at the largest byte say, all of it and nothing
else, without repetitions and in the order of first occurrences. -/
theorem located_by_lines (f : Failure) (text : List Char) :
    let report := f.locate text
    let found := f.expectedAt f.furthestByte
    report.position = min f.furthestByte (bytes text).length ∧
      report.line = 1 + ((bytes text).take report.position).count newlineByte ∧
      (∃ line, (lines text)[report.line - 1]? = some line ∧ report.byteOffset ≤ byteLength line) ∧
      byteLengthWithFeeds ((lines text).take (report.line - 1)) + report.byteOffset = report.position ∧
      (∀ g : Failure, (g.locate text).line = report.line ∧
          (g.locate text).byteOffset = report.byteOffset ↔
        (g.locate text).position = report.position) ∧
      report.expected.Nodup ∧
      (∀ e, e ∈ report.expected ↔ e ∈ found) ∧
      report.expected.Pairwise fun e e' => found.idxOf e < found.idxOf e' := by
  intro report found
  -- the place is worked out from the report's own position, which lies within the text
  have hle : report.position ≤ byteLength text := position_locate_le f text
  have hplace := LinePosition.ofByte_standsAt hle
  have hboth : ∀ g : Failure, (g.locate text).line = report.line ∧
      (g.locate text).byteOffset = report.byteOffset ↔ (g.locate text).position = report.position :=
    fun g => LinePosition.ofByte_inj (position_locate_le g text) hle
  have hexpected : report.expected = found.eraseDups := expected_locate f text
  have hmem : ∀ e, e ∈ report.expected ↔ e ∈ found := by
    intro e
    rw [hexpected, List.mem_eraseDups]
  have hnodup : report.expected.Nodup := hexpected ▸ nodup_eraseDups found
  have horder := hexpected ▸ pairwise_idxOf_eraseDups found
  exact ⟨position_locate f text, LinePosition.line_ofByte text report.position, hplace.1, hplace.2,
    hboth, hnodup, hmem, horder⟩

/-- A failure inside the second letter of the last line, where one thing was expected twice. -/
example :
    let f : Failure := ⟨[⟨"digit", 4⟩, ⟨"letter", 2⟩, ⟨"sign", 4⟩, ⟨"digit", 4⟩], true⟩
    let report := f.locate "a\nbé".toList
    (report.position, report.line, report.byteOffset, report.expected) =
      (4, 2, 2, ["digit", "sign"]) := by decide

end Failure

end CommittedParsing
