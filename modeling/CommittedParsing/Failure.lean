/-!
# Failures

A failed parse says what it expected, and where, and whether it is committed: past a committed
failure no sibling alternative is tried and no repetition ends quietly.

Main statements:
* `Failure.merge_assoc` — merging is associative, so alternatives may be grouped freely;
* `Failure.mem_furthest_iff` — the furthest diagnostics are those at the largest position.
-/

namespace CommittedParsing

/-- What was expected, and at which byte. -/
structure Diagnostic where
  /-- A description of what was expected. -/
  expected : String
  /-- The byte where it was expected. -/
  position : Nat
deriving DecidableEq, Repr

/-- The wording of a single diagnostic. -/
def Diagnostic.message (d : Diagnostic) : String :=
  s!"expected {d.expected} at byte {d.position}"

/-- A failed parse. -/
structure Failure where
  /-- What was expected, in the order it was found missing. -/
  diagnostics : List Diagnostic
  /-- The failure is committed: enclosing parsers may not try anything else instead. -/
  consumed : Bool
deriving DecidableEq, Repr

namespace Failure

/-! ## Building and combining -/

/-- One diagnostic, not committed. -/
def expected (description : String) (position : Nat) : Failure :=
  ⟨[⟨description, position⟩], false⟩

/-- The failure of an alternation with no alternative. -/
def empty : Failure := ⟨[], false⟩

/-- Mark as committed. -/
def commit (f : Failure) : Failure := { f with consumed := true }

/-- Take the mark away. -/
def uncommit (f : Failure) : Failure := { f with consumed := false }

/-- Put the diagnostics of a later alternative behind; the later one decides on the mark. -/
def merge (f later : Failure) : Failure :=
  ⟨f.diagnostics ++ later.diagnostics, later.consumed⟩

@[simp] theorem diagnostics_commit (f : Failure) : f.commit.diagnostics = f.diagnostics := rfl
@[simp] theorem consumed_commit (f : Failure) : f.commit.consumed = true := rfl
@[simp] theorem diagnostics_uncommit (f : Failure) : f.uncommit.diagnostics = f.diagnostics := rfl
@[simp] theorem consumed_uncommit (f : Failure) : f.uncommit.consumed = false := rfl
@[simp] theorem diagnostics_merge (f g : Failure) :
    (f.merge g).diagnostics = f.diagnostics ++ g.diagnostics := rfl
@[simp] theorem consumed_merge (f g : Failure) : (f.merge g).consumed = g.consumed := rfl
@[simp] theorem empty_merge (f : Failure) : empty.merge f = f := rfl
@[simp] theorem commit_commit (f : Failure) : f.commit.commit = f.commit := rfl

/-- Failures are merged one after the other, however they are taken together. -/
theorem merge_assoc (f g h : Failure) : (f.merge g).merge h = f.merge (g.merge h) := by
  simp [merge]

/-! ## Furthest diagnostics -/

/-- The largest position of a diagnostic. -/
def position? (f : Failure) : Option Nat := (f.diagnostics.map Diagnostic.position).max?

/-- The diagnostics at the largest position, in order. -/
def furthest (f : Failure) : List Diagnostic :=
  match f.position? with
  | none => []
  | some furthest => f.diagnostics.filter fun d => d.position == furthest

theorem mem_furthest_iff {f : Failure} {d : Diagnostic} :
    d ∈ f.furthest ↔ d ∈ f.diagnostics ∧ ∀ e ∈ f.diagnostics, e.position ≤ d.position := by
  unfold furthest
  split
  next h =>
    have hnil : f.diagnostics = [] := by
      simpa [position?, List.max?_eq_none_iff] using h
    simp [hnil]
  next furthest h =>
    have hmax := List.max?_eq_some_iff.1 h
    simp only [List.mem_map, forall_exists_index, and_imp, forall_apply_eq_imp_iff₂] at hmax
    obtain ⟨⟨top, htop, htopPos⟩, hle⟩ := hmax
    simp only [List.mem_filter, beq_iff_eq]
    constructor
    · rintro ⟨hmem, hpos⟩
      exact ⟨hmem, fun e he => hpos ▸ hle e he⟩
    · rintro ⟨hmem, hall⟩
      exact ⟨hmem, Nat.le_antisymm (hle d hmem) (htopPos ▸ hall top htop)⟩

/-! ## Wording -/

/-- The wording of a failure: its one diagnostic, or all of them as a list. -/
def message (f : Failure) : String :=
  match f.diagnostics with
  | [] => "parse failed"
  | [single] => single.message
  | several =>
    "expected one of: " ++
      ", ".intercalate (several.map fun d => s!"{d.expected} (byte {d.position})")

end Failure

end CommittedParsing
