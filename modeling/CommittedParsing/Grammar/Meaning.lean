import CommittedParsing.Grammar.Syntax
import CommittedParsing.Parser.Alternation
import CommittedParsing.Parser.Character
import CommittedParsing.Parser.Recursion
import CommittedParsing.Parser.Repetition
import CommittedParsing.Value.Functions

/-!
# The meaning of grammars

A grammar means a parser, given a scope for the names it refers to and a way to call the grammars
of the library. A recursive rule is a parser defined in terms of itself.

Main statements:
* `Scope.parser_cons_self`, `Scope.parser_cons_of_ne` — the innermost rule of a name is meant;
* `Grammar.denote_recursive_succ` — with fuel left, a rule is its body with the rule in scope;
* `Grammar.denote_seq2`, `Grammar.denote_seq3` — combinations that hit no fault are those of the parsers.
-/

namespace CommittedParsing

/-! ## Scopes -/

/-- The rules in scope, innermost first. -/
abbrev Scope := List (String × Parser Value)

/-- The innermost rule of a name. -/
def Scope.find? (name : String) : Scope → Option (Parser Value)
  | [] => none
  | (bound, p) :: outer => if bound = name then some p else find? name outer

@[simp] theorem Scope.find?_cons_self (name : String) (p : Parser Value) (outer : Scope) :
    Scope.find? name ((name, p) :: outer) = some p := by
  simp [find?]

theorem Scope.find?_cons_of_ne {bound name : String} (h : bound ≠ name) (p : Parser Value)
    (outer : Scope) : Scope.find? name ((bound, p) :: outer) = Scope.find? name outer := by
  simp [find?, h]

/-- The parser of a name; a name without a rule is a mistake in the grammar. -/
def Scope.parser (scope : Scope) (name : String) : Parser Value :=
  match scope.find? name with
  | some p => p
  | none => Parser.fault .ruleUndefined

@[simp] theorem Scope.parser_cons_self (name : String) (p : Parser Value) (outer : Scope) :
    Scope.parser ((name, p) :: outer) name = p := by
  simp [parser]

/-- A binding hides only its own name. -/
theorem Scope.parser_cons_of_ne {bound name : String} (h : bound ≠ name) (p : Parser Value)
    (outer : Scope) : Scope.parser ((bound, p) :: outer) name = Scope.parser outer name := by
  simp [parser, find?_cons_of_ne h]

/-! ## Meaning -/

mutual

/-- The parser that a grammar describes. -/
def Grammar.denote (call : String → Scope → Parser Value) : Grammar → Scope → Parser Value
  | .satisfy accepts description, _ => (Parser.satisfy accepts description).map Value.char
  | .text expected, _ => (Parser.text expected).map Value.string
  | .endOfInput, _ => Parser.endOfInput.map fun _ => Value.unit
  | .pure value, _ => Parser.pure value
  | .custom parse, _ => Parser.ofFunction parse
  | .map body change, scope => (body.denote call scope).mapChecked change
  | .filter body accepts description, scope =>
    (body.denote call scope).filterChecked accepts description
  | .bind first _ next, scope =>
    (first.denote call scope).bind fun v => Grammar.denoteMade call (next v) scope
  | .many body, scope => (Parser.many (body.denote call scope)).map Value.gather
  | .many1 body, scope => (Parser.many1 (body.denote call scope)).map Value.gather
  | .or first second, scope => Parser.or (first.denote call scope) (second.denote call scope)
  | .choice _ alternatives, scope =>
    Parser.choice (List.ofFn fun i => (alternatives i).denote call scope)
  | .attempt body, scope => Parser.attempt (body.denote call scope)
  | .seq2 first second combine, scope =>
    (Parser.and (first.denote call scope) (second.denote call scope)).mapChecked fun (a, b) =>
      combine a b
  | .seq3 first second third combine, scope =>
    (Parser.seq3 (first.denote call scope) (second.denote call scope) (third.denote call scope)
      fun a b d => (a, b, d)).mapChecked fun (a, b, d) => combine a b d
  | .optional body, scope => (Parser.optional (body.denote call scope)).map Value.ofOption
  | .not body description, scope =>
    (Parser.not description (body.denote call scope)).map fun _ => Value.unit
  | .sepBy item separator, scope =>
    (Parser.sepBy (item.denote call scope) (separator.denote call scope)).map Value.gather
  | .label body description, scope => Parser.label description (body.denote call scope)
  | .position body, scope => (Parser.position (body.denote call scope)).map Value.withSpan
  | .chainLeft operand operator fold, scope =>
    Parser.chainLeftChecked (operand.denote call scope) (operator.denote call scope) fold
  | .chainRight operand operator fold, scope =>
    Parser.chainRightChecked (operand.denote call scope) (operator.denote call scope) fold
  | .delayed body, scope => (body.denote call scope).announce body.announcements
  | .call name, scope => call name scope
  | .recursive name body, scope =>
    Parser.fix fun self => body.denote call ((name, self) :: scope)
  | .reference name, scope => scope.parser name

/-- The parser that a binder goes on with. The grammar is built at that moment. -/
def Grammar.denoteMade (call : String → Scope → Parser Value) :
    Except Fault Grammar → Scope → Parser Value
  | .ok g, scope => (g.denote call scope).announce g.announcements
  | .error e, _ => Parser.fault e

end

namespace Grammar

variable (call : String → Scope → Parser Value) (scope : Scope)

/-- With a unit of fuel a recursive grammar is its body, with its own name bound to itself. -/
theorem denote_recursive_succ (name : String) (body : Grammar) (n : Nat) (c : Cursor) :
    (recursive name body).denote call scope (n + 1) c =
      body.denote call ((name, fun _ => (recursive name body).denote call scope n) :: scope) n c := by
  simp only [denote, Parser.fix_succ]

theorem denote_seq2 (first second : Grammar) (combine : Value → Value → Value) :
    (seq2 first second combine).denote call scope =
      Parser.seq2 (first.denote call scope) (second.denote call scope) combine := by
  rw [denote]
  exact Parser.map_and _ _ combine

theorem denote_seq3 (first second third : Grammar) (combine : Value → Value → Value → Value) :
    (seq3 first second third combine).denote call scope =
      Parser.seq3 (first.denote call scope) (second.denote call scope) (third.denote call scope)
        combine := by
  rw [denote]
  exact Parser.map_seq3 _ _ _ combine

end Grammar

end CommittedParsing
