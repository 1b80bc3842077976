/-!
# Faults

A fault is a mistake in how a grammar was put together, not in the text it is applied to. It ends
the run at once, and no parser around it can recover.
-/

namespace CommittedParsing

/-- The mistakes that end a run. -/
inductive Fault where
  /-- A rule was used before it had a definition. -/
  | ruleUndefined
  /-- A rule was used through a weak handle after the rule had been freed. -/
  | ruleDropped
  /-- A rule was defined a second time. -/
  | ruleRedefined
  /-- A difference of byte positions was asked for that lies below zero, such as the length of a span whose
  start lies behind its end. -/
  | belowZero
deriving DecidableEq, Repr

/-- The wording of a fault. -/
def Fault.message : Fault → String
  | ruleUndefined => "recursive parser invoked before its definition was assigned"
  | ruleDropped => "recursive parser invoked after its definition was dropped"
  | ruleRedefined => "recursive parser defined more than once"
  | belowZero => "attempt to subtract with overflow"

end CommittedParsing
