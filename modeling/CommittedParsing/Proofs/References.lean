import CommittedParsing.Proofs.Comparison
import CommittedParsing.Proofs.Mirroring

/-!
# Grammars that differ in their references

Another grammar may be put in the place of a reference. If it does what the reference did, wherever it
stands, the whole grammar does what it did.

Main statements:
* `Grammar.mapReferences_reference` — references in the places of themselves change nothing;
* `Grammar.mirrored` — the law for one grammar, with any grammars in the places of its references;
* `System.mirrored` — the law for the grammars of a system, with nothing replaced.
-/

namespace CommittedParsing

open CommittedParsing.Parser Run

/-! ## Replacing references -/

namespace Grammar

/-- A turn on the way into a grammar: to one of its parts, or to what a binder goes on with after a value. -/
inductive Turn where
  | part (i : Nat)
  | made (v : Value)

mutual

/-- Put a grammar in the place of every reference. Which one may depend on the way from there to the
top, on the names that are bound there, innermost first, and on the name itself. -/
def mapReferences (f : List Turn → List String → String → Grammar) :
    Grammar → List Turn → List String → Grammar
  | satisfy accepts description, _, _ => satisfy accepts description
  | text expected, _, _ => text expected
  | endOfInput, _, _ => endOfInput
  | pure v, _, _ => pure v
  | custom parse, _, _ => custom parse
  | map body change, way, bound => map (body.mapReferences f (.part 0 :: way) bound) change
  | filter body accepts description, way, bound =>
    filter (body.mapReferences f (.part 0 :: way) bound) accepts description
  | bind first captured next, way, bound =>
    bind (first.mapReferences f (.part 0 :: way) bound) captured fun v =>
      mapReferencesMade f (next v) (.made v :: way) bound
  | many body, way, bound => many (body.mapReferences f (.part 0 :: way) bound)
  | many1 body, way, bound => many1 (body.mapReferences f (.part 0 :: way) bound)
  | or first second, way, bound =>
    or (first.mapReferences f (.part 0 :: way) bound) (second.mapReferences f (.part 1 :: way) bound)
  | choice count alternatives, way, bound =>
    choice count fun i => (alternatives i).mapReferences f (.part i.val :: way) bound
  | attempt body, way, bound => attempt (body.mapReferences f (.part 0 :: way) bound)
  | seq2 first second combine, way, bound =>
    seq2 (first.mapReferences f (.part 0 :: way) bound)
      (second.mapReferences f (.part 1 :: way) bound) combine
  | seq3 first second third combine, way, bound =>
    seq3 (first.mapReferences f (.part 0 :: way) bound)
      (second.mapReferences f (.part 1 :: way) bound)
      (third.mapReferences f (.part 2 :: way) bound) combine
  | optional body, way, bound => optional (body.mapReferences f (.part 0 :: way) bound)
  | not body description, way, bound =>
    not (body.mapReferences f (.part 0 :: way) bound) description
  | sepBy item separator, way, bound =>
    sepBy (item.mapReferences f (.part 0 :: way) bound)
      (separator.mapReferences f (.part 1 :: way) bound)
  | label body description, way, bound =>
    label (body.mapReferences f (.part 0 :: way) bound) description
  | position body, way, bound => position (body.mapReferences f (.part 0 :: way) bound)
  | chainLeft operand operator fold, way, bound =>
    chainLeft (operand.mapReferences f (.part 0 :: way) bound)
      (operator.mapReferences f (.part 1 :: way) bound) fold
  | chainRight operand operator fold, way, bound =>
    chainRight (operand.mapReferences f (.part 0 :: way) bound)
      (operator.mapReferences f (.part 1 :: way) bound) fold
  | delayed body, way, bound => delayed (body.mapReferences f (.part 0 :: way) bound)
  | call name, _, _ => call name
  | recursive name body, way, bound =>
    recursive name (body.mapReferences f (.part 0 :: way) (name :: bound))
  | reference name, way, bound => f way bound name

/-- The same in what a binder goes on with. -/
def mapReferencesMade (f : List Turn → List String → String → Grammar) :
    Except Fault Grammar → List Turn → List String → Except Fault Grammar
  | .ok g, way, bound => .ok (g.mapReferences f way bound)
  | .error e, _, _ => .error e

end

/-- References in the places of themselves change nothing. -/
theorem mapReferences_reference (g : Grammar) (way : List Turn) (bound : List String) :
    g.mapReferences (fun _ _ name => reference name) way bound = g := by
  induction g generalizing way bound with
  | satisfy | text | endOfInput | pure | custom | call | reference => simp only [mapReferences]
  | map _ _ ih | filter _ _ _ ih | many _ ih | many1 _ ih | attempt _ ih | optional _ ih | not _ _ ih
  | label _ _ ih | position _ ih | delayed _ ih | recursive _ _ ih => simp only [mapReferences, ih]
  | or _ _ ih ih' | seq2 _ _ _ ih ih' | sepBy _ _ ih ih' | chainLeft _ _ _ ih ih'
  | chainRight _ _ _ ih ih' => simp only [mapReferences, ih, ih']
  | seq3 _ _ _ _ ih ih' ih'' => simp only [mapReferences, ih, ih', ih'']
  | bind first captured next ih ih' =>
    simp only [mapReferences, ih, bind.injEq, true_and]
    funext v
    cases hv : next v with
    | ok g => simp only [mapReferencesMade, ih' v g hv]
    | error e => rfl
  | choice _ _ ih => simp only [mapReferences, ih]

end Grammar

/-! ## Grammars that do not see the difference -/

/-- The grammar does not tell corresponding places apart by itself, and calls only grammars of the
library with a property. -/
def Correspondence.Respects (K : Correspondence) (calls : String → Prop) : Grammar → Prop
  | .custom parse => ∀ c c', K.Cursors c c' →
      (Run.ofExcept (parse c)).MirroredBy K K.Outcomes (Run.ofExcept (parse c'))
  | .position _ => ∀ p p', K.Positions p p' → p = p'
  | .call name => calls name
  | _ => True

/-- What stands in the places of references on the two sides, in the scopes that belong together. -/
structure Replacement (K : Correspondence) (F : FuelOrder) (calls : String → Prop)
    (call call' : String → Scope → Parser Value)
    (f f' : List Grammar.Turn → List String → String → Grammar) (outer : String → Prop) where
  /-- The scopes that belong together where some names are bound. -/
  Scopes : List String → Scope → Scope → Prop
  binds : ∀ {bound scope scope'} (name : String) {p p' : Parser Value}, Scopes bound scope scope' →
    p.MirroredBy K F p' → Scopes (name :: bound) ((name, p) :: scope) ((name, p') :: scope')
  called : ∀ {bound scope scope' name}, Scopes bound scope scope' → calls name →
    (call name scope).MirroredBy K F (call' name scope')
  referred : ∀ {bound scope scope' name} (way : List Grammar.Turn), Scopes bound scope scope' →
    name ∈ bound ∨ outer name →
    ((f way bound name).denote call scope).MirroredBy K F ((f' way bound name).denote call' scope')

/-- What a part refers to is referred to by the whole. -/
theorem Grammar.free_of_part {g part : Grammar} {known : String → Prop}
    (hfree : ∀ name, g.RefersTo name → known name) (hpart : part ∈ g.parts) :
    ∀ name, part.RefersTo name → known name :=
  fun name h => hfree name (.part hpart h)

/-- A grammar with one or the other in the places of its references: if what stands there does the
same, and so do the grammars that are called, the whole does the same. -/
theorem Grammar.mirrored {K : Correspondence} {F : FuelOrder} {calls : String → Prop}
    {call call' : String → Scope → Parser Value}
    {f f' : List Turn → List String → String → Grammar} {outer : String → Prop}
    (R : Replacement K F calls call call' f f' outer) {g : Grammar}
    (hg : g.Everywhere (K.Respects calls)) (way : List Turn) {bound : List String}
    (hfree : ∀ name, g.RefersTo name → name ∈ bound ∨ outer name) {scope scope' : Scope}
    (hscope : R.Scopes bound scope scope') :
    ((g.mapReferences f way bound).denote call scope).MirroredBy K F
      ((g.mapReferences f' way bound).denote call' scope') := by
  induction g generalizing way bound scope scope' with
  | satisfy accepts description => exact (Parser.MirroredBy.satisfy _ _).map _
  | text expected => exact (Parser.MirroredBy.text expected).map _
  | endOfInput => exact Parser.MirroredBy.endOfInput.map _
  | pure v => exact .pure v
  | custom parse => exact fun _ _ c c' _ hc => hg.here c c' hc
  | map body change ih =>
    have hbody := ih (hg.part (by simp)) (.part 0 :: way) (free_of_part hfree (by simp)) hscope
    exact hbody.mapChecked change
  | filter body accepts description ih =>
    have hbody := ih (hg.part (by simp)) (.part 0 :: way) (free_of_part hfree (by simp)) hscope
    exact hbody.filterChecked accepts description
  | bind first captured next ihFirst ihNext =>
    have hfirst := ihFirst (hg.part (by simp)) (.part 0 :: way) (free_of_part hfree (by simp)) hscope
    refine hfirst.bind ?_
    intro v
    dsimp only
    cases hv : next v with
    | error e =>
      simp only [mapReferencesMade, denoteMade]
      exact .fault e
    | ok g =>
      simp only [mapReferencesMade, denoteMade]
      have hmade := ihNext v g hv (hg.next hv) (.made v :: way)
        (free_of_part hfree (.inr ⟨v, hv⟩)) hscope
      exact fun n m c c' hnm hc => (hmade n m c c' hnm hc).announce _ _
  | many body ih =>
    have hbody := ih (hg.part (by simp)) (.part 0 :: way) (free_of_part hfree (by simp)) hscope
    exact (hbody.repeatFrom []).map _
  | many1 body ih =>
    have hbody := ih (hg.part (by simp)) (.part 0 :: way) (free_of_part hfree (by simp)) hscope
    exact hbody.many1.map _
  | or first second ihFirst ihSecond =>
    have hfirst := ihFirst (hg.part (by simp)) (.part 0 :: way) (free_of_part hfree (by simp)) hscope
    have hsecond := ihSecond (hg.part (by simp)) (.part 1 :: way) (free_of_part hfree (by simp)) hscope
    exact hfirst.or hsecond
  | choice count alternatives ih =>
    refine Parser.MirroredBy.choiceAfter ?_ .empty
    intro i
    exact ih i (hg.part (by simp)) (.part i.val :: way) (free_of_part hfree (by simp)) hscope
  | attempt body ih =>
    have hbody := ih (hg.part (by simp)) (.part 0 :: way) (free_of_part hfree (by simp)) hscope
    exact hbody.attempt
  | seq2 first second combine ihFirst ihSecond =>
    have hfirst := ihFirst (hg.part (by simp)) (.part 0 :: way) (free_of_part hfree (by simp)) hscope
    have hsecond := ihSecond (hg.part (by simp)) (.part 1 :: way) (free_of_part hfree (by simp)) hscope
    exact (hfirst.seq2 hsecond _).mapChecked _
  | seq3 first second third combine ihFirst ihSecond ihThird =>
    have hfirst := ihFirst (hg.part (by simp)) (.part 0 :: way) (free_of_part hfree (by simp)) hscope
    have hsecond := ihSecond (hg.part (by simp)) (.part 1 :: way) (free_of_part hfree (by simp)) hscope
    have hthird := ihThird (hg.part (by simp)) (.part 2 :: way) (free_of_part hfree (by simp)) hscope
    exact (hfirst.seq3 hsecond hthird _).mapChecked _
  | optional body ih =>
    have hbody := ih (hg.part (by simp)) (.part 0 :: way) (free_of_part hfree (by simp)) hscope
    exact hbody.optional.map _
  | not body description ih =>
    have hbody := ih (hg.part (by simp)) (.part 0 :: way) (free_of_part hfree (by simp)) hscope
    exact (hbody.not description).map _
  | sepBy item separator ihItem ihSeparator =>
    have hitem := ihItem (hg.part (by simp)) (.part 0 :: way) (free_of_part hfree (by simp)) hscope
    have hseparator := ihSeparator (hg.part (by simp)) (.part 1 :: way) (free_of_part hfree (by simp)) hscope
    exact ((hitem.chain hseparator _ _).map _).map _
  | label body description ih =>
    have hbody := ih (hg.part (by simp)) (.part 0 :: way) (free_of_part hfree (by simp)) hscope
    exact hbody.label description
  | position body ih =>
    have hbody := ih (hg.part (by simp)) (.part 0 :: way) (free_of_part hfree (by simp)) hscope
    exact (hbody.position hg.here).map _
  | chainLeft operand operator fold ihOperand ihOperator =>
    have hoperand := ihOperand (hg.part (by simp)) (.part 0 :: way) (free_of_part hfree (by simp)) hscope
    have hoperator := ihOperator (hg.part (by simp)) (.part 1 :: way) (free_of_part hfree (by simp)) hscope
    exact hoperand.chain hoperator _ _
  | chainRight operand operator fold ihOperand ihOperator =>
    have hoperand := ihOperand (hg.part (by simp)) (.part 0 :: way) (free_of_part hfree (by simp)) hscope
    have hoperator := ihOperator (hg.part (by simp)) (.part 1 :: way) (free_of_part hfree (by simp)) hscope
    exact ((hoperand.chain hoperator _ _).map _).mapChecked _
  | delayed body ih =>
    have hbody := ih (hg.part (by simp)) (.part 0 :: way) (free_of_part hfree (by simp)) hscope
    exact fun n m c c' hnm hc => (hbody n m c c' hnm hc).announce _ _
  | call name => exact R.called hscope hg.here
  | recursive name body ih =>
    refine Parser.MirroredBy.fix ?_
    intro p p' hp
    refine ih (hg.part (by simp)) (.part 0 :: way) ?_ (R.binds name hscope hp)
    intro free hrefers
    -- in the body, the name of the rule is bound as well
    by_cases hname : free = name
    · exact .inl (by simp [hname])
    · rcases hfree free (.rule hrefers hname) with hbound | houter
      · exact .inl (List.mem_cons_of_mem _ hbound)
      · exact .inr houter
  | reference name => exact R.referred way hscope (hfree name .reference)

/-! ## Systems -/

/-- In the second scope every name has a parser that mirrors the one in the first. -/
def Correspondence.Scopes (K : Correspondence) (F : FuelOrder) (scope scope' : Scope) : Prop :=
  ∀ name, (scope.parser name).MirroredBy K F (scope'.parser name)

section Systems

variable {K : Correspondence} {F : FuelOrder} {call call' : String → Scope → Parser Value}
  {scope scope' : Scope} {s : System}

/-- Scopes that correspond still do with one more name, if its parsers mirror each other. -/
theorem Correspondence.Scopes.cons (hscope : K.Scopes F scope scope') (name : String)
    {p p' : Parser Value} (hp : p.MirroredBy K F p') :
    K.Scopes F ((name, p) :: scope) ((name, p') :: scope') := by
  intro wanted
  by_cases hname : name = wanted
  · subst hname
    rw [Scope.parser_cons_self, Scope.parser_cons_self]
    exact hp
  · rw [Scope.parser_cons_of_ne hname, Scope.parser_cons_of_ne hname]
    exact hscope wanted

/-- The names that one definition binds correspond in two systems whose rules do. -/
theorem Correspondence.Scopes.ofBindings {family family' : Target → Parser Value}
    (h : ∀ handle, (family (.rule handle)).MirroredBy K F (family' (.rule handle)))
    (bindings : List (String × Handle)) :
    K.Scopes F (System.scopeOf family bindings) (System.scopeOf family' bindings) := by
  induction bindings with
  | nil => exact fun _ => .fault .ruleUndefined
  | cons binding bindings ih => exact ih.cons binding.1 (h binding.2)

/-- References in the places of themselves, and calls of the same grammars. -/
def Replacement.none (hcall : ∀ name inner inner', K.Scopes F inner inner' →
      (call name inner).MirroredBy K F (call' name inner')) :
    Replacement K F (fun _ => True) call call' (fun _ _ name => .reference name)
      (fun _ _ name => .reference name) fun _ => True where
  Scopes _ := K.Scopes F
  binds name _ _ hscope hp := Correspondence.Scopes.cons hscope name hp
  called hscope _ := hcall _ _ _ hscope
  referred _ hscope _ := hscope _

/-- A grammar does the same at corresponding places if what it refers to does. -/
theorem Grammar.mirrored_self {g : Grammar} (hg : g.Everywhere (K.Respects fun _ => True))
    (hcall : ∀ name inner inner', K.Scopes F inner inner' →
      (call name inner).MirroredBy K F (call' name inner'))
    (hscope : K.Scopes F scope scope') :
    (g.denote call scope).MirroredBy K F (g.denote call' scope') := by
  have houtside : (Replacement.none hcall).Scopes [] scope scope' := hscope
  have hmirrored := Grammar.mirrored (.none hcall) hg [] (fun _ _ => .inr trivial) houtside
  rw [mapReferences_reference] at hmirrored
  exact hmirrored

/-- Rules and calls do the same at corresponding places, by the fuel that is left. -/
theorem System.targets_mirrored (hs : s.Everywhere (K.Respects fun _ => True)) {n m : Nat}
    (hnm : F.Rel n m) :
    (∀ handle c c', K.Cursors c c' →
      (s.target (.rule handle) n c).MirroredBy K K.Outcomes (s.target (.rule handle) m c')) ∧
    ∀ name scope scope', K.Scopes F scope scope' → ∀ c c', K.Cursors c c' →
      (s.target (.call name scope) n c).MirroredBy K K.Outcomes (s.target (.call name scope') m c') := by
  -- by the fuel of the first run: what a definition refers to is run with a unit less
  induction n generalizing m with
  | zero =>
    exact ⟨fun _ _ _ _ => .of_outOfFuel rfl, fun _ _ _ _ _ _ _ => .of_outOfFuel rfl⟩
  | succ n ih =>
    rcases Nat.exists_eq_add_of_le' (Nat.one_le_of_lt (F.le hnm)) with ⟨m, rfl⟩
    rcases ih (F.pred hnm) with ⟨hrules, hcalls⟩
    have hcall : ∀ name inner inner', K.Scopes F inner inner' → Parser.MirroredBy K F
        (fun _ => s.target (.call name inner) n) (fun _ => s.target (.call name inner') m) :=
      fun name inner inner' hinner _ _ c c' _ hc => hcalls name inner inner' hinner c c' hc
    constructor
    · intro handle c c' hc
      cases hresolve : s.store.resolve handle with
      | error e =>
        have hrun : ∀ n c, s.target (.rule handle) (n + 1) c = Run.fault e :=
          fun n c => rule_eq_fault hresolve n c
        rw [hrun, hrun]
        exact .fault e
      | ok d =>
        have hrun : ∀ n c, s.target (.rule handle) (n + 1) c = _ := fun n c => rule_succ hresolve n c
        have hbody := hs.rules _ d (Store.resolve_eq_ok_iff.1 hresolve)
        rw [hrun, hrun]
        refine Grammar.mirrored_self hbody hcall ?_ n m c c' (F.pred hnm) hc
        exact .ofBindings (fun handle _ _ c c' _ hc => hrules handle c c' hc) d.bindings
    · intro name scope scope' hscope c c' hc
      cases hlookup : s.library.lookup name with
      | none =>
        rw [call_eq_fault hlookup, call_eq_fault hlookup]
        exact .fault _
      | some body =>
        have hbody := hs.library name body hlookup
        rw [call_succ hlookup, call_succ hlookup]
        exact (Grammar.mirrored_self hbody hcall hscope n m c c' (F.pred hnm) hc).announce _ _

/-- Where no grammar of a system tells corresponding places apart, its parsers do the same at them. -/
theorem System.mirrored (hs : s.Everywhere (K.Respects fun _ => True)) {d : Definition}
    (hd : d.body.Everywhere (K.Respects fun _ => True)) :
    (s.parser d).MirroredBy K F (s.parser d) := by
  refine Grammar.mirrored_self hd ?_ (.ofBindings ?_ d.bindings)
  · exact fun name inner inner' hinner n m c c' hnm hc =>
      (targets_mirrored hs hnm).2 name inner inner' hinner c c' hc
  · exact fun handle n m c c' hnm hc => (targets_mirrored hs hnm).1 handle c c' hc

end Systems

end CommittedParsing
