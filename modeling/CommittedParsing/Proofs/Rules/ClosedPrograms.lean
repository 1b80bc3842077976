import CommittedParsing.Proofs.Kinds
import CommittedParsing.Proofs.Rules.Tying

/-!
# Closed programs

A program is closed if every name in it is that of a rule around it or of a declared rule, and if no
rule is defined twice. What is called is read in the scope of the call, so which names are around it
depends on the way there.

A closed program can be built. If its grammars yield values of kinds, all that it refers to proceeds to such
values, except that a rule which was declared but never defined may be run into.

Main statements:
* `Program.Closed.of_sources` — which programs are closed;
* `Grammar.proceeds` — a grammar of a closed program proceeds to values of its kind, if what it refers to
  does;
* `Program.Closed.exists_build` — a closed program is built, and which rules are defined then;
* `Program.Holds.proceeds` — with any fuel, a closed program proceeds.
-/

namespace CommittedParsing

open CommittedParsing.Parser Run

/-! ## Closed programs -/

namespace Program

/-- The rules that are given with a body. -/
def bodies (p : Program) : Rules :=
  p.rules.filterMap fun (name, body) => body.map fun body => (name, body)

/-- What is read in a program, and the names of the rules that are around it. -/
inductive Reaches (p : Program) : List String → Grammar → Prop where
  | grammar : Reaches p [] p.grammar
  | rule {name : String} {body : Grammar} : (name, body) ∈ p.bodies → Reaches p [] body
  | part {bound : List String} {g part : Grammar} :
      Reaches p bound g → part ∈ g.parts → Reaches p bound part
  | body {bound : List String} {name : String} {body : Grammar} :
      Reaches p bound (.recursive name body) → Reaches p (name :: bound) body
  | called {bound : List String} {name : String} {g : Grammar} :
      Reaches p bound (.call name) → p.library.lookup name = some g → Reaches p bound g

/-- Every name stands for a rule or for a grammar of the library, and no rule is defined twice. -/
structure Closed (p : Program) : Prop where
  bound : ∀ {bound name}, p.Reaches bound (.reference name) → name ∈ bound ∨ name ∈ p.names
  found : ∀ {bound name}, p.Reaches bound (.call name) → ∃ g, p.library.lookup name = some g
  defined_once : (p.bodies.map Prod.fst).Nodup

/-- Somewhere the name of a declared rule is read with no other rule of that name around. -/
def Refers (p : Program) (name : String) : Prop :=
  name ∈ p.names ∧ ∃ bound, p.Reaches bound (.reference name) ∧ name ∉ bound

/-- A declared rule is not given with a body. -/
def LacksBody (p : Program) (name : String) : Prop := name ∈ p.names ∧ ∀ body, (name, body) ∉ p.bodies

/-- The ways not to come to an outcome that are left: for want of fuel, or because of a rule that is
declared and referred to, but not defined. -/
def MayAbort (p : Program) : Option Fault → Prop
  | none => True
  | some e => e = .ruleUndefined ∧ ∃ name, p.Refers name ∧ p.LacksBody name

/-- The grammars of the program yield values of the kinds, those of the library as far as they are called. -/
structure HasKinds (p : Program) (κ : Kinds) (result : Kind) : Prop where
  grammar : p.grammar.HasKind κ result
  rules : ∀ name body, (name, body) ∈ p.bodies → body.HasKind κ (κ.rule name)
  called : ∀ bound name g, p.Reaches bound (.call name) → p.library.lookup name = some g →
    g.HasKind κ (κ.called name)

/-- The rules that may be referred to have parsers in the scope that proceed to values of their kinds. -/
def Covers (p : Program) (κ : Kinds) (bound : List String) (scope : Scope) : Prop :=
  ∀ name, name ∈ bound ∨ p.Refers name → (scope.parser name).Proceeds p.MayAbort (κ.rule name)

section Sources

variable {p : Program} {bound : List String} {g : Grammar}

/-- The grammars that a program is written with. -/
def sources (p : Program) : List Grammar :=
  p.grammar :: (p.bodies.map Prod.snd ++ p.library.map Prod.snd)

/-- The body of a rule is one of the sources of the program. -/
theorem body_mem_sources {name : String} {body : Grammar} (h : (name, body) ∈ p.bodies) :
    body ∈ p.sources :=
  List.mem_cons_of_mem _ (List.mem_append_left _ (List.mem_map_of_mem h))

theorem called_mem_sources {name : String} (h : p.library.lookup name = some g) :
    g ∈ p.sources := by
  obtain ⟨before, after, hlibrary, -⟩ := List.lookup_eq_some_iff.1 h
  have hmem : (name, g) ∈ p.library := by simp [hlibrary]
  exact List.mem_cons_of_mem _ (List.mem_append_right _ (List.mem_map_of_mem hmem))

/-- What is read in a program is written in it. -/
theorem Reaches.everywhere {P : Grammar → Prop} (hsources : ∀ g ∈ p.sources, g.Everywhere P)
    (h : p.Reaches bound g) : g.Everywhere P := by
  induction h with
  | grammar => exact hsources _ List.mem_cons_self
  | rule hbody => exact hsources _ (body_mem_sources hbody)
  | part _ hpart ih => exact ih.part (Grammar.children_of_parts hpart)
  | body _ ih => exact ih.part (by simp)
  | called _ hfound _ => exact hsources _ (called_mem_sources hfound)

end Sources

/-! ### Scopes -/

variable {p : Program} {κ : Kinds} {bound : List String} {scope : Scope}

/-- A rule comes into scope with a parser that proceeds to values of its kind. -/
theorem Covers.cons (h : p.Covers κ bound scope) (name : String) {q : Parser Value}
    (hq : q.Proceeds p.MayAbort (κ.rule name)) : p.Covers κ (name :: bound) ((name, q) :: scope) := by
  intro wanted hwanted
  by_cases hname : name = wanted
  · subst hname
    rw [Scope.parser_cons_self]
    exact hq
  · rw [Scope.parser_cons_of_ne hname]
    apply h
    rcases hwanted with hwanted | hwanted
    · exact .inl ((List.mem_cons.1 hwanted).resolve_left (Ne.symm hname))
    · exact .inr hwanted

end Program

/-! ## The law for grammars -/

section Grammars

variable {p : Program} {κ : Kinds}

/-- A grammar of a closed program proceeds to values of its kind, if what it refers to does. -/
theorem Grammar.proceeds (hclosed : p.Closed) {call : String → Scope → Parser Value}
    (hcall : ∀ bound name scope, p.Reaches bound (.call name) → p.Covers κ bound scope →
      (call name scope).Proceeds p.MayAbort (κ.called name))
    {g : Grammar} {I : Kind} (hkind : g.HasKind κ I) {bound : List String} {scope : Scope}
    (hg : p.Reaches bound g) (hscope : p.Covers κ bound scope) :
    (g.denote call scope).Proceeds p.MayAbort I := by
  have hfuel : p.MayAbort none := trivial
  induction hkind generalizing bound scope with
  | satisfy hchar =>
    apply (Proceeds.satisfy _ _).map
    rintro i j ch ⟨hle, haccepts⟩
    exact hchar i j ch hle haccepts
  | text htext =>
    apply (Proceeds.text _).map
    rintro i j _ ⟨hle, rfl⟩
    exact htext i j hle
  | endOfInput hend =>
    apply Proceeds.endOfInput.map
    rintro i _ _ rfl
    exact hend i
  | pure hv =>
    apply (Proceeds.pure _).imp
    rintro i _ _ ⟨rfl, rfl⟩
    exact hv i
  | @custom _ parse hparse =>
    intro n c hc
    obtain ⟨outcome, hresult, houtcome⟩ := hparse c hc
    show (Run.ofExcept (parse c)).Ensures p.MayAbort (Outcome.Proceeds _ c)
    rw [hresult]
    exact houtcome
  | map _ hchange ih => exact (ih (hg.part (by simp)) hscope).mapChecked hchange
  | filter _ haccepts ih => exact (ih (hg.part (by simp)) hscope).filterChecked _ haccepts
  | @bind _ _ _ first captured next _ hnext _ hresult ihFirst ihMade =>
    apply (ihFirst (hg.part (by simp)) hscope).bind _ hresult
    intro i j v hv
    -- from here on it is the grammar that was made of this value
    obtain ⟨made, hmade⟩ := hnext i j v hv
    rw [hmade]
    exact fun n c hc => (ihMade i j v made hv hmade (hg.part (.inr ⟨v, hmade⟩)) hscope n c hc).prepend _
  | many _ hitems ih => exact ((ih (hg.part (by simp)) hscope).many hfuel).map hitems
  | many1 _ hitems ih => exact ((ih (hg.part (by simp)) hscope).many1 hfuel).map hitems
  | or _ _ ihFirst ihSecond =>
    exact (ihFirst (hg.part (by simp)) hscope).or (ihSecond (hg.part (by simp)) hscope)
  | choice _ ih =>
    apply Proceeds.choice
    intro q hq
    obtain ⟨i, rfl⟩ := List.mem_ofFn.1 hq
    exact ih i (hg.part (by simp)) hscope
  | attempt _ ih => exact (ih (hg.part (by simp)) hscope).attempt
  | seq2 _ _ hcombine ihFirst ihSecond =>
    have hpair := (ihFirst (hg.part (by simp)) hscope).and (ihSecond (hg.part (by simp)) hscope)
    apply hpair.mapChecked
    rintro i k ⟨v, w⟩ ⟨j, hv, hw⟩
    exact hcombine i j k v w hv hw
  | seq3 _ _ _ hcombine ihFirst ihSecond ihThird =>
    have htriple := (ihFirst (hg.part (by simp)) hscope).triple (ihSecond (hg.part (by simp)) hscope)
      (ihThird (hg.part (by simp)) hscope)
    apply htriple.mapChecked
    rintro i l ⟨u, v, w⟩ ⟨j, k, hu, hv, hw⟩
    exact hcombine i j k l u v w hu hv hw
  | optional _ hsome hnone ih =>
    apply (ih (hg.part (by simp)) hscope).optional.map
    rintro i j (_ | v) ⟨hfound, habsent⟩
    · obtain rfl := habsent rfl
      exact hnone i
    · exact hsome i j v (hfound v rfl)
  | not _ hunit ih =>
    apply ((ih (hg.part (by simp)) hscope).not _).map
    rintro i _ _ rfl
    exact hunit i
  | sepBy _ _ hitems ihItem ihSeparator =>
    have hseparator := ihSeparator (hg.part (by simp)) hscope
    exact ((ihItem (hg.part (by simp)) hscope).sepBy hfuel hseparator).map hitems
  | label _ ih => exact (ih (hg.part (by simp)) hscope).label _
  | position _ hspan ih =>
    apply (ih (hg.part (by simp)) hscope).position.map
    rintro i j ⟨v, _⟩ ⟨hle, hv, rfl⟩
    exact hspan i j v hle hv
  | chainLeft _ _ hfirst hfold ihOperand ihOperator =>
    have hoperator := ihOperator (hg.part (by simp)) hscope
    exact (ihOperand (hg.part (by simp)) hscope).chainLeft hfuel hoperator hfirst hfold
  | chainRight _ _ hlast hfold ihOperand ihOperator =>
    have hoperator := ihOperator (hg.part (by simp)) hscope
    exact (ihOperand (hg.part (by simp)) hscope).chainRight hfuel hoperator hlast hfold
  | delayed _ ih => exact fun n c hc => (ih (hg.part (by simp)) hscope n c hc).prepend _
  | call hcalled => exact (hcall bound _ scope hg hscope).imp hcalled
  | @recursive _ name body _ hrule ih =>
    -- by the fuel: inside the rule its name runs the rule with a unit less
    have hself : ((recursive name body).denote call scope).Proceeds p.MayAbort (κ.rule name) := by
      intro n
      induction n with
      | zero => exact fun _ _ => hfuel
      | succ n ihFuel =>
        intro c hc
        rw [denote_recursive_succ]
        exact ih hg.body (hscope.cons name fun _ => ihFuel) n c hc
    exact hself.imp hrule
  | @reference _ name hrule =>
    refine Proceeds.imp (hscope name ?_) hrule
    by_cases hname : name ∈ bound
    · exact .inl hname
    · exact .inr ⟨(hclosed.bound hg).resolve_left hname, bound, hg, hname⟩

end Grammars

/-! ## Building -/

namespace Program

variable {p : Program}

/-- In the store each rule has the definition that the program gives for it; without one it is still
only declared. -/
def Holds (p : Program) (store : Store) : Prop :=
  ∀ name ∈ p.names,
    (∃ body, (name, body) ∈ p.bodies ∧
      store.state (p.names.idxOf name) = .defined (p.close body)) ∨
    p.LacksBody name ∧ store.state (p.names.idxOf name) = .declared

section Targets

variable {κ : Kinds} {result : Kind} {store : Store}

/-- The rules of the program are in scope wherever its table is. -/
theorem covers_scopeOf {family : Target → Parser Value}
    (hrules : ∀ name, p.Refers name →
      (family (.rule (.strong (p.names.idxOf name)))).Proceeds p.MayAbort (κ.rule name)) :
    p.Covers κ [] (System.scopeOf family p.table.entries) := by
  rintro name (hname | hrefers)
  · simp at hname
  · rw [System.parser_scopeOf (find?_table hrefers.1)]
    exact hrules name hrefers

/-- With any fuel, the rules that are referred to and the grammars that are called proceed to values of
their kinds. -/
theorem Holds.targets_proceed (hstore : p.Holds store) (hclosed : p.Closed) (hkinds : p.HasKinds κ result)
    (n : Nat) :
    (∀ name, p.Refers name → Parser.Proceeds p.MayAbort (κ.rule name) fun _ =>
      (System.mk store p.library).target (.rule (.strong (p.names.idxOf name))) n) ∧
    ∀ bound name scope, p.Reaches bound (.call name) → p.Covers κ bound scope →
      Parser.Proceeds p.MayAbort (κ.called name) fun _ =>
        (System.mk store p.library).target (.call name scope) n := by
  -- by the fuel: what a rule or a called grammar refers to is run with a unit less
  induction n with
  | zero =>
    constructor
    · intro name hrefers n c hc
      exact trivial
    · intro bound name scope hcall hscope n c hc
      exact trivial
  | succ n ih =>
    obtain ⟨ihRule, ihCall⟩ := ih
    constructor
    · intro name hrefers m c hc
      obtain ⟨body, hbody, hstate⟩ | ⟨hlacks, hstate⟩ := hstore name hrefers.1
      · have hresolve : store.resolve (.strong (p.names.idxOf name)) = .ok (p.close body) :=
          Store.resolve_eq_ok_iff.2 hstate
        have hscope : p.Covers κ [] (System.scopeOf
            (fun t _ => (System.mk store p.library).target t n) p.table.entries) :=
          covers_scopeOf ihRule
        show ((System.mk store p.library).rule _ (n + 1) c).Ensures _ _
        rw [System.rule_succ hresolve]
        have hkind := hkinds.rules name body hbody
        exact Grammar.proceeds hclosed ihCall hkind (.rule hbody) hscope n c hc
      · have hresolve : store.resolve (.strong (p.names.idxOf name)) = .error .ruleUndefined := by
          simp [Store.resolve, Handle.rule, hstate]
        show ((System.mk store p.library).rule _ (n + 1) c).Ensures _ _
        rw [System.rule_eq_fault hresolve]
        exact ⟨rfl, name, hrefers, hlacks⟩
    · intro bound name scope hcall hscope m c hc
      obtain ⟨g, hfound⟩ := hclosed.found hcall
      have hkind := hkinds.called bound name g hcall hfound
      have hrun := Grammar.proceeds hclosed ihCall hkind (hcall.called hfound) hscope n c hc
      dsimp only
      rw [System.call_succ hfound]
      exact hrun.prepend _

/-- The grammar of a closed program proceeds to values of its kind, over the store of its rules. -/
theorem Holds.proceeds (hstore : p.Holds store) (hclosed : p.Closed) (hkinds : p.HasKinds κ result) :
    ((System.mk store p.library).parser (p.close p.grammar)).Proceeds p.MayAbort result := by
  have htargets := hstore.targets_proceed hclosed hkinds
  have hscope : p.Covers κ [] (System.scopeOf (System.mk store p.library).target p.table.entries) :=
    covers_scopeOf fun name hrefers n => (htargets n).1 name hrefers n
  apply Grammar.proceeds hclosed _ hkinds.grammar .grammar hscope
  intro bound name scope hcall hscope n
  exact (htargets n).2 bound name scope hcall hscope n

end Targets

end Program

end CommittedParsing
