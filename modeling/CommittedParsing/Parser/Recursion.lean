import CommittedParsing.Parser.Basic

/-!
# Recursive parsers

A family of parsers may be defined in terms of itself. Each step into the definition costs one
unit of fuel, so a family that never consumes ends for want of fuel instead of not at all.

Main statements:
* `Parser.knot_succ` — with fuel left, a member of the family is its definition over the family.
-/

namespace CommittedParsing.Parser

variable {α ι : Type}

/-- The family of parsers that its own definition describes. -/
def knot (definition : (ι → Parser α) → ι → Parser α) (i : ι) : Parser α
  | 0 => fun _ => Run.outOfFuel
  -- however deep a member is run inside the definition, it gets the fuel that is left here
  | n + 1 => definition (fun j _ c => knot definition j n c) i n

/-- A single parser defined in terms of itself. -/
def fix (definition : Parser α → Parser α) : Parser α :=
  knot (fun family (_ : Unit) => definition (family ())) ()

@[simp] theorem knot_zero (definition : (ι → Parser α) → ι → Parser α) (i : ι) (c : Cursor) :
    knot definition i 0 c = Run.outOfFuel := rfl

/-- With a unit of fuel each member is its definition, with the whole family inside. -/
theorem knot_succ (definition : (ι → Parser α) → ι → Parser α) (i : ι) (n : Nat) (c : Cursor) :
    knot definition i (n + 1) c = definition (fun j _ => knot definition j n) i n c := rfl

@[simp] theorem fix_zero (definition : Parser α → Parser α) (c : Cursor) :
    fix definition 0 c = Run.outOfFuel := rfl

/-- With a unit of fuel a recursive parser is its definition, with itself inside. -/
theorem fix_succ (definition : Parser α → Parser α) (n : Nat) (c : Cursor) :
    fix definition (n + 1) c = definition (fun _ => fix definition n) n c := rfl

end CommittedParsing.Parser
