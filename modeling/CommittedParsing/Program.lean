import CommittedParsing.Application
import CommittedParsing.Rules.System

/-!
# Programs

A program declares rules, defines some of them in order, and has one grammar that refers to them.
It is built once and applied to any number of texts. All rules are in scope everywhere in the
program, also in the grammars of its library, which are built in the scope of their call.
-/

namespace CommittedParsing

/-- Rules, named grammars and the grammar to be applied. -/
structure Program where
  /-- The rules in order; one without a body is only declared. A name may be given more than once,
  but defining it a second time is a fault. -/
  rules : List (String × Option Grammar)
  /-- The grammars that may be called by name. -/
  library : List (String × Grammar)
  /-- The grammar to be applied. -/
  grammar : Grammar

namespace Program

/-- The names of the rules, each once. -/
def names (p : Program) : List String := (p.rules.map Prod.fst).eraseDups

/-- Strong handles for all rules. -/
def table (p : Program) : Table := ⟨p.names.zipIdx.map fun (name, rule) => (name, .strong rule)⟩

/-- A grammar with all rules in scope. A call may reach rules that the grammar itself does not name,
so none of them is left out. -/
def close (p : Program) (body : Grammar) : Definition := ⟨body, p.table.entries⟩

/-- A store in which all rules are declared. -/
def declared (p : Program) : Store := ⟨p.names.map fun _ => .declared⟩

/-- Define a rule, leaving the records of the rules in its body and of itself. -/
def define (p : Program) (store : Store) (name : String) (body : Grammar) : Run Store :=
  match p.table.find? name with
  | none => Run.fault .ruleUndefined
  | some h =>
    (Run.ofExcept (store.define h (p.close body)) >>= fun store =>
      (pure store : Run Store).prepend [.ruleDefined]).prepend body.announcements

/-- Define rules in order. -/
def defineAll (p : Program) : List (String × Option Grammar) → Store → Run Store
  | [], store => pure store
  | (_, none) :: rules, store => p.defineAll rules store
  | (name, some body) :: rules, store =>
    p.define store name body >>= fun store => p.defineAll rules store

/-- Build the program: the parser of its grammar, over the rules that were defined. -/
def build (p : Program) : Run (Parser Value) :=
  p.defineAll p.rules p.declared >>= fun store =>
    (pure ((System.mk store p.library).parser (p.close p.grammar)) :
      Run (Parser Value)).prepend p.grammar.announcements

end Program

end CommittedParsing
