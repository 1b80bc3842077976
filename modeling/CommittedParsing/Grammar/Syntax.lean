import CommittedParsing.Parser.Basic
import CommittedParsing.Value

/-!
# Grammars

A grammar is a description of a parser for values. Its functions (tests, changes, folds, what a binder
goes on with) are ordinary functions, which may hit a fault; its recursive rules are named, and a
reference stands for the innermost rule of its name.

Main definitions:
* `Grammar.announcements` — the rules that building a grammar defines, as records;
* `Grammar.freeNames` — the names whose rules have to come from outside.

Main statements:
* `Grammar.induct` — induction that gives the hypothesis for all that a binder may go on with.
-/

namespace CommittedParsing

/-! ## Functions of grammars -/

/-- A function that hits no fault, where one is asked for that may. -/
instance : Coe Value (Except Fault Value) := ⟨.ok⟩

instance : Coe (Value → Value) (Value → Except Fault Value) := ⟨fun f v => .ok (f v)⟩

instance : Coe (Value → Bool) (Value → Except Fault Bool) := ⟨fun f v => .ok (f v)⟩

instance : Coe (Value → Value → Value) (Value → Value → Except Fault Value) :=
  ⟨fun f v w => .ok (f v w)⟩

instance : Coe (Value → Value → Value → Value) (Value → Value → Value → Except Fault Value) :=
  ⟨fun f u v w => .ok (f u v w)⟩

/-! ## Syntax -/

/-- A description of a parser. -/
inductive Grammar where
  /-- One character that passes a test. -/
  | satisfy (accepts : Char → Bool) (description : String)
  /-- An exact text. -/
  | text (expected : String)
  | endOfInput
  /-- A value, without consuming. -/
  | pure (value : Value)
  /-- A function of the cursor. -/
  | custom (parse : Cursor → Except Fault (Outcome Value))
  | map (body : Grammar) (change : Value → Except Fault Value)
  | filter (body : Grammar) (accepts : Value → Except Fault Bool) (description : String)
  /-- The first grammar, and then the one that is made of its value. What is made holds the rules of the
  names that were captured when the binder was built. -/
  | bind (first : Grammar) (captured : List String) (next : Value → Except Fault Grammar)
  | many (body : Grammar)
  | many1 (body : Grammar)
  | or (first second : Grammar)
  | choice (count : Nat) (alternatives : Fin count → Grammar)
  | attempt (body : Grammar)
  | seq2 (first second : Grammar) (combine : Value → Value → Except Fault Value)
  | seq3 (first second third : Grammar) (combine : Value → Value → Value → Except Fault Value)
  | optional (body : Grammar)
  | not (body : Grammar) (description : String)
  | sepBy (item separator : Grammar)
  | label (body : Grammar) (description : String)
  /-- A value together with its span. -/
  | position (body : Grammar)
  | chainLeft (operand operator : Grammar) (fold : Value → Value → Value → Except Fault Value)
  | chainRight (operand operator : Grammar) (fold : Value → Value → Value → Except Fault Value)
  /-- A grammar that is built anew on every parse. -/
  | delayed (body : Grammar)
  /-- A named grammar of the library, built anew on every parse. -/
  | call (name : String)
  /-- A rule that may refer to itself by its name. -/
  | recursive (name : String) (body : Grammar)
  /-- The rule of a name. -/
  | reference (name : String)

namespace Grammar

/-- Induction on grammars, with the hypothesis for all that a binder may go on with. -/
@[elab_as_elim, induction_eliminator]
theorem induct {motive : Grammar → Prop}
    (satisfy : ∀ accepts description, motive (.satisfy accepts description))
    (text : ∀ expected, motive (.text expected)) (endOfInput : motive .endOfInput)
    (pure : ∀ value, motive (.pure value)) (custom : ∀ parse, motive (.custom parse))
    (map : ∀ body change, motive body → motive (.map body change))
    (filter : ∀ body accepts description, motive body → motive (.filter body accepts description))
    (bind : ∀ first captured next, motive first → (∀ v g, next v = .ok g → motive g) →
      motive (.bind first captured next))
    (many : ∀ body, motive body → motive (.many body))
    (many1 : ∀ body, motive body → motive (.many1 body))
    (or : ∀ first second, motive first → motive second → motive (.or first second))
    (choice : ∀ count alternatives, (∀ i, motive (alternatives i)) →
      motive (.choice count alternatives))
    (attempt : ∀ body, motive body → motive (.attempt body))
    (seq2 : ∀ first second combine, motive first → motive second →
      motive (.seq2 first second combine))
    (seq3 : ∀ first second third combine, motive first → motive second → motive third →
      motive (.seq3 first second third combine))
    (optional : ∀ body, motive body → motive (.optional body))
    (not : ∀ body description, motive body → motive (.not body description))
    (sepBy : ∀ item separator, motive item → motive separator → motive (.sepBy item separator))
    (label : ∀ body description, motive body → motive (.label body description))
    (position : ∀ body, motive body → motive (.position body))
    (chainLeft : ∀ operand operator fold, motive operand → motive operator →
      motive (.chainLeft operand operator fold))
    (chainRight : ∀ operand operator fold, motive operand → motive operator →
      motive (.chainRight operand operator fold))
    (delayed : ∀ body, motive body → motive (.delayed body)) (call : ∀ name, motive (.call name))
    (recursive : ∀ name body, motive body → motive (.recursive name body))
    (reference : ∀ name, motive (.reference name)) (g : Grammar) : motive g :=
  Grammar.rec (motive_1 := motive) (motive_2 := fun made => ∀ g, made = .ok g → motive g)
    satisfy text endOfInput pure custom map filter
    (fun first captured next hfirst hnext => bind first captured next hfirst hnext)
    many many1 or choice attempt seq2 seq3 optional not sepBy label position chainLeft chainRight
    delayed call recursive reference
    (fun _ _ h => nomatch h)
    (fun _ hmade _ h => by
      cases h
      exact hmade)
    g

/-! ## Building -/

/-- How many rules are defined when a grammar is built. What a delayed part holds, and what a binder goes
on with, is built later. -/
def ruleCount : Grammar → Nat
  | map body _ | filter body _ _ | many body | many1 body | attempt body | optional body
  | not body _ | label body _ | position body => body.ruleCount
  | bind first _ _ => first.ruleCount
  | or first second | seq2 first second _ | sepBy first second | chainLeft first second _
  | chainRight first second _ => first.ruleCount + second.ruleCount
  | seq3 first second third _ => first.ruleCount + second.ruleCount + third.ruleCount
  | choice _ alternatives => (List.ofFn fun i => (alternatives i).ruleCount).sum
  | recursive _ body => body.ruleCount + 1
  | satisfy _ _ | text _ | endOfInput | pure _ | custom _ | delayed _ | call _ | reference _ => 0

/-- The records that building a grammar leaves. -/
def announcements (g : Grammar) : List Record := List.replicate g.ruleCount .ruleDefined

/-! ## Names -/

/-- The names that a grammar refers to without binding them itself; a binder refers to those that it has
captured. -/
def freeNames : Grammar → List String
  | map body _ | filter body _ _ | many body | many1 body | attempt body | optional body
  | not body _ | label body _ | position body | delayed body => body.freeNames
  | bind first captured _ => first.freeNames ++ captured
  | or first second | seq2 first second _ | sepBy first second | chainLeft first second _
  | chainRight first second _ => first.freeNames ++ second.freeNames
  | seq3 first second third _ => first.freeNames ++ (second.freeNames ++ third.freeNames)
  | choice _ alternatives => (List.ofFn fun i => (alternatives i).freeNames).flatten
  | recursive name body => body.freeNames.filter fun free => free != name
  | reference name => [name]
  | satisfy _ _ | text _ | endOfInput | pure _ | custom _ | call _ => []

end Grammar

end CommittedParsing
