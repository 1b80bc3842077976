import CommittedParsing.Grammar.Meaning
import CommittedParsing.Rules.Table

/-!
# Systems of rules

A system is a store of rules together with a library of named grammars. The rules may refer to one
another and to themselves through handles, the named grammars through calls; both ways of tying
are the same knot.

Main statements:
* `System.rule_succ` — with fuel left, a handle runs the definition of its rule;
* `System.rule_eq_fault` — a handle that leads to no definition runs into the fault it leads to;
* `System.call_succ`, `System.call_eq_fault` — a call runs the named grammar in the scope of the call.
-/

namespace CommittedParsing

/-- Stored rules and named grammars. -/
structure System where
  store : Store
  library : List (String × Grammar)

/-- What can be run in a system. -/
inductive Target where
  /-- The rule of a handle. -/
  | rule (handle : Handle)
  /-- A grammar of the library, built in a scope. -/
  | call (name : String) (scope : Scope)

namespace System

/-- The rules of handles in scope. -/
def scopeOf (family : Target → Parser Value) (bindings : List (String × Handle)) : Scope :=
  bindings.map fun (name, h) => (name, family (.rule h))

/-- What each target runs, in terms of what the targets run. -/
def step (s : System) (family : Target → Parser Value) : Target → Parser Value
  | .rule h =>
    match s.store.resolve h with
    | .error e => Parser.fault e
    | .ok d =>
      d.body.denote (fun name scope => family (.call name scope)) (scopeOf family d.bindings)
  | .call name scope =>
    match s.library.lookup name with
    | none => Parser.fault .ruleUndefined
    | some body =>
      (body.denote (fun name scope => family (.call name scope)) scope).announce body.announcements

/-- The parser of a target. -/
def target (s : System) : Target → Parser Value := Parser.knot s.step

/-- The parser of a handle. -/
def rule (s : System) (h : Handle) : Parser Value := s.target (.rule h)

/-- The parser of a grammar whose names are bound to handles. -/
def parser (s : System) (d : Definition) : Parser Value :=
  d.body.denote (fun name scope => s.target (.call name scope)) (scopeOf s.target d.bindings)

/-- With a unit of fuel a rule is its body, in the scope of what its definition binds. -/
theorem rule_succ {s : System} {h : Handle} {d : Definition} (hd : s.store.resolve h = .ok d)
    (n : Nat) (c : Cursor) :
    s.rule h (n + 1) c =
      d.body.denote (fun name scope _ => s.target (.call name scope) n)
        (scopeOf (fun t _ => s.target t n) d.bindings) n c := by
  simp only [rule, target, Parser.knot_succ, step, hd]

theorem rule_eq_fault {s : System} {h : Handle} {e : Fault} (he : s.store.resolve h = .error e)
    (n : Nat) (c : Cursor) : s.rule h (n + 1) c = Run.fault e := by
  simp only [rule, target, Parser.knot_succ, step, he, Parser.fault]

/-- With a unit of fuel a call is the grammar of its name, in the scope of the caller. -/
theorem call_succ {s : System} {name : String} {body : Grammar}
    (hbody : s.library.lookup name = some body) (scope : Scope) (n : Nat) (c : Cursor) :
    s.target (.call name scope) (n + 1) c =
      (body.denote (fun name scope _ => s.target (.call name scope) n) scope n c).prepend
        body.announcements := by
  simp only [target, Parser.knot_succ, step, hbody, Parser.announce]

/-- A call of a name that the library lacks faults. -/
theorem call_eq_fault {s : System} {name : String} (hnone : s.library.lookup name = none)
    (scope : Scope) (n : Nat) (c : Cursor) :
    s.target (.call name scope) (n + 1) c = Run.fault .ruleUndefined := by
  simp only [target, Parser.knot_succ, step, hnone, Parser.fault]

end System

/-- The parser of a grammar that refers to nothing outside itself. -/
def Grammar.parser (g : Grammar) : Parser Value := System.parser ⟨Store.empty, []⟩ ⟨g, []⟩

end CommittedParsing
