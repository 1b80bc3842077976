import CommittedParsing.Proofs.References

/-!
# Families of rules

Rules that refer to one another by name make a family of parsers. Whichever way they are tied, a rule
runs its body with what is left of the fuel, and so do the rules that the body refers to; this alone
decides what the rule comes to. Nothing is said of whether it comes to an end.

Main statements:
* `Grammar.Over.mirrored` — a grammar does the same over families whose members do the same;
* `Rules.Ties.mirrored` — members of the same name do the same, in whatever way two families are tied;
* `Rules.Closed.ties_calls`, `Rules.Closed.ties_recursive` — calls of rules and a rule that is tied by
  itself are such families;
* `Rules.Closed.mirrored_by_unrolled`, `Rules.Closed.mirrors_unrolled` — a rule some of whose
  references to itself are copies of it does the same, although the copies use up fuel of their own.
-/

namespace CommittedParsing

open CommittedParsing.Parser Run

/-! ## Free references -/

namespace Grammar

/-- The grammar does not call a grammar of the library. -/
def IsCallFree : Grammar → Prop
  | call _ => False
  | _ => True

/-- A grammar without calls treats equal things alike, whatever its calls would do. -/
theorem IsCallFree.respects {g : Grammar} (hg : g.IsCallFree) :
    Correspondence.same.Respects (fun _ => False) g := by
  cases g with
  | custom parse =>
    rintro c _ rfl
    cases parse c with
    | error e => exact .fault e
    | ok outcome => exact .pure (.same_refl outcome)
  | position body => exact fun _ _ h => h
  | call name => exact hg.elim
  | _ => exact trivial

/-! ### Replacing free references -/

/-- Put a grammar in the place of every reference to a name that is not bound above it. Which one may
depend on the way from there to the top. -/
def replaceFree (fill : List Turn → String → Grammar) (g : Grammar) : Grammar :=
  g.mapReferences (fun way bound name => if name ∈ bound then .reference name else fill way name) [] []

/-- Replacing each free name by a reference to it changes nothing. -/
theorem replaceFree_reference (g : Grammar) : (g.replaceFree fun _ name => .reference name) = g := by
  unfold replaceFree
  simp only [ite_self, mapReferences_reference]

/-- Call the rules that the grammar refers to, instead of looking them up in the scope. -/
def withCalls (g : Grammar) : Grammar := g.replaceFree fun _ name => .call name

/-- Call some of the rules that the grammar refers to, and look up the others. -/
def withSomeCalls (g : Grammar) (called : List Turn → String → Bool) : Grammar :=
  g.replaceFree fun way name => if called way name then .call name else .reference name

/-- Put a rule in the places of some of the references to its name. -/
def unrolled (g : Grammar) (name : String) (body : Grammar) (here : List Turn → Bool) : Grammar :=
  g.replaceFree fun way free =>
    if free = name ∧ here way then .recursive name body else .reference free

variable {F : FuelOrder} {call call' : String → Scope → Parser Value} {scope scope' : Scope}
  {fill fill' : List Turn → String → Grammar} {g : Grammar}

/-- Where a name is bound inside, its reference stays. Where it is free, it is looked up outside. -/
def replacesFree
    (hfill : ∀ way name inner inner', g.RefersTo name →
      Scope.parser inner name = scope.parser name → Scope.parser inner' name = scope'.parser name →
        ((fill way name).denote call inner).MirroredBy .same F
          ((fill' way name).denote call' inner')) :
    Replacement .same F (fun _ => False) call call'
      (fun way bound name => if name ∈ bound then .reference name else fill way name)
      (fun way bound name => if name ∈ bound then .reference name else fill' way name)
      fun name => g.RefersTo name where
  Scopes bound inner inner' := ∀ name,
    (name ∈ bound → (inner.parser name).MirroredBy .same F (inner'.parser name)) ∧
      (name ∉ bound → inner.parser name = scope.parser name ∧
        inner'.parser name = scope'.parser name)
  binds name p p' hscope hp := by
    intro wanted
    by_cases hname : name = wanted
    · subst hname
      rw [Scope.parser_cons_self, Scope.parser_cons_self]
      exact ⟨fun _ => hp, fun hnot => absurd List.mem_cons_self hnot⟩
    · rw [Scope.parser_cons_of_ne hname, Scope.parser_cons_of_ne hname]
      have hmem : ∀ bound : List String, wanted ∈ name :: bound ↔ wanted ∈ bound := by
        simp [Ne.symm hname]
      rw [hmem]
      exact hscope wanted
  called _ hno := hno.elim
  referred {bound inner inner' name} way hscope hname := by
    by_cases hmem : name ∈ bound
    · rw [if_pos hmem, if_pos hmem]
      exact (hscope name).1 hmem
    · rw [if_neg hmem, if_neg hmem]
      rcases (hscope name).2 hmem with ⟨hinner, hinner'⟩
      exact hfill way name inner inner' (hname.resolve_left hmem) hinner hinner'

/-- If what stands in the places of the free references does the same, so does the whole grammar. -/
theorem mirrored_free (hg : g.Everywhere IsCallFree)
    (hfill : ∀ way name inner inner', g.RefersTo name →
      Scope.parser inner name = scope.parser name → Scope.parser inner' name = scope'.parser name →
        ((fill way name).denote call inner).MirroredBy .same F
          ((fill' way name).denote call' inner')) :
    ((g.replaceFree fill).denote call scope).MirroredBy .same F
      ((g.replaceFree fill').denote call' scope') := by
  have houtside : (replacesFree hfill).Scopes [] scope scope' :=
    fun _ => ⟨nofun, fun _ => ⟨rfl, rfl⟩⟩
  exact Grammar.mirrored _ (hg.imp fun _ => IsCallFree.respects) [] (fun _ hname => .inr hname) houtside

end Grammar

/-! ## Grammars over families -/

/-- A parser is that of a grammar, and whatever stands in the places of its free names does what a
member of the family of that name does. -/
def Grammar.Over {ι : Type} (nameOf : ι → String) (family : ι → Parser Value) (g : Grammar)
    (p : Parser Value) : Prop :=
  ∃ fill call scope, p = (g.replaceFree fill).denote call scope ∧
    ∀ way free inner, g.RefersTo free → Scope.parser inner free = scope.parser free →
      ∃ i, nameOf i = free ∧ (fill way free).denote call inner = family i

namespace Grammar.Over

variable {ι κ : Type} {nameOf : ι → String} {nameOf' : κ → String} {family : ι → Parser Value}
  {family' : κ → Parser Value} {g : Grammar} {p p' : Parser Value} {F : FuelOrder}
  {call : String → Scope → Parser Value} {scope : Scope}

/-- The members are in scope. -/
theorem of_scope (h : ∀ free, g.RefersTo free → ∃ i, nameOf i = free ∧ scope.parser free = family i) :
    g.Over nameOf family (g.denote call scope) := by
  refine ⟨fun _ name => .reference name, call, scope, by rw [g.replaceFree_reference], ?_⟩
  intro _ free inner hfree hinner
  rw [Grammar.denote, hinner]
  exact h free hfree

/-- The members are called. -/
theorem of_calls (h : ∀ free, g.RefersTo free → ∀ inner, ∃ i, nameOf i = free ∧
    call free inner = family i) : g.Over nameOf family (g.withCalls.denote call scope) :=
  ⟨fun _ name => .call name, call, scope, rfl, fun _ free inner hfree _ => h free hfree inner⟩

/-- Some members are in scope, and others are called. -/
theorem of_someCalls {called : List Grammar.Turn → String → Bool}
    (hscope : ∀ free, g.RefersTo free → ∃ i, nameOf i = free ∧ scope.parser free = family i)
    (hcall : ∀ free, g.RefersTo free → ∀ inner, ∃ i, nameOf i = free ∧ call free inner = family i) :
    g.Over nameOf family ((g.withSomeCalls called).denote call scope) := by
  refine ⟨_, call, scope, rfl, ?_⟩
  intro way free inner hfree hinner
  by_cases hcalled : called way free = true
  · rw [if_pos hcalled]
    exact hcall free hfree inner
  · rw [if_neg hcalled, Grammar.denote, hinner]
    exact hscope free hfree

/-- One member is in scope, and there are copies of another. -/
theorem of_unrolled {x : String} {body : Grammar} {here : List Grammar.Turn → Bool}
    (hself : ∀ free, g.RefersTo free → ∃ i, nameOf i = free ∧ scope.parser free = family i)
    (hcopy : ∀ inner, ∃ i, nameOf i = x ∧ (Grammar.recursive x body).denote call inner = family i) :
    g.Over nameOf family ((g.unrolled x body here).denote call scope) := by
  refine ⟨_, call, scope, rfl, ?_⟩
  intro way free inner hfree hinner
  by_cases hhere : free = x ∧ here way = true
  · rw [if_pos hhere, hhere.1]
    exact hcopy inner
  · rw [if_neg hhere, Grammar.denote, hinner]
    exact hself free hfree

/-- Over families whose members do the same, a grammar does the same. -/
theorem mirrored (hg : g.Everywhere Grammar.IsCallFree) (h : g.Over nameOf family p)
    (h' : g.Over nameOf' family' p')
    (hfamilies : ∀ i j, g.RefersTo (nameOf i) → nameOf i = nameOf' j →
      (family i).MirroredBy .same F (family' j)) : p.MirroredBy .same F p' := by
  rcases h with ⟨fill, call, scope, rfl, hfill⟩
  rcases h' with ⟨fill', call', scope', rfl, hfill'⟩
  refine Grammar.mirrored_free hg ?_
  intro way name inner inner' hname hinner hinner'
  rcases hfill way name inner hname hinner with ⟨i, hi, hrun⟩
  rcases hfill' way name inner' hname hinner' with ⟨j, hj, hrun'⟩
  rw [hrun, hrun']
  exact hfamilies i j (hi ▸ hname) (hi.trans hj.symm)

end Grammar.Over

/-! ## Families of rules -/

/-- Grammars under names, which may refer to one another. -/
abbrev Rules := List (String × Grammar)

namespace Rules

/-- Every name that a grammar leaves free is that of a rule. -/
def Cover (rules : Rules) (g : Grammar) : Prop := ∀ name, g.RefersTo name → name ∈ rules.map Prod.fst

/-- The rules have different names and refer only to one another. Whether a reference is a handle or a
call, here or there, is left to what ties the rules, so that no body calls by itself. -/
structure Closed (rules : Rules) : Prop where
  nodup : (rules.map Prod.fst).Nodup
  callFree : ∀ rule ∈ rules, rule.2.Everywhere Grammar.IsCallFree
  cover : ∀ rule ∈ rules, rules.Cover rule.2

/-- With fuel left, every member of a family of parsers is the body of its rule, over what the members
of the family are with the fuel that is left. -/
structure Ties {ι : Type} (rules : Rules) (nameOf : ι → String) (family : ι → Parser Value) : Prop where
  zero : ∀ i c, (family i 0 c).ending = .outOfFuel
  succ : ∀ i body, (nameOf i, body) ∈ rules → ∀ n, ∃ count p,
    (∀ c, family i (n + 1) c = (p n c).prepend (List.replicate count .ruleDefined)) ∧
      body.Over nameOf (fun j _ => family j n) p

section Ties

variable {ι κ : Type} {rules : Rules} {nameOf : ι → String} {nameOf' : κ → String}
  {family : ι → Parser Value} {family' : κ → Parser Value} {i : ι} {j : κ}

/-- Members of the same name do the same, in whatever way the two families are tied. -/
theorem Ties.mirrored (hrules : rules.Closed) (h : rules.Ties nameOf family)
    (h' : rules.Ties nameOf' family') (hname : nameOf i ∈ rules.map Prod.fst)
    (hsame : nameOf i = nameOf' j) : (family i).MirroredBy .same .larger (family' j) := by
  intro n
  -- by induction on the fuel: the members that a body refers to have one unit less
  induction n generalizing i j with
  | zero => exact fun m c _ _ _ => .of_outOfFuel (h.zero i c)
  | succ n ih =>
    intro m c c' hnm hc
    rcases Nat.exists_eq_add_of_le' (Nat.one_le_of_lt hnm) with ⟨m, rfl⟩
    have hle : n ≤ m := Nat.le_of_succ_le_succ hnm
    rcases List.mem_map.1 hname with ⟨⟨_, body⟩, hbody, rfl⟩
    rcases h.succ i body hbody n with ⟨count, p, hrun, hover⟩
    rcases h'.succ j body (hsame ▸ hbody) m with ⟨count', p', hrun', hover'⟩
    rw [hrun, hrun']
    refine Run.MirroredBy.announce ?_ count count'
    refine hover.mirrored (F := .larger) (hrules.callFree _ hbody) hover' ?_ n m c c' hle hc
    intro i j hfree hsame _ _ d d' _ hd
    exact ih (hrules.cover _ hbody _ hfree) hsame m d d' hle hd

end Ties

/-! ### Calls -/

/-- The rules as a library, each calling the others. -/
def library (rules : Rules) : List (String × Grammar) :=
  rules.map fun (name, body) => (name, body.withCalls)

variable {rules : Rules}

/-- In a closed list of rules, a name is looked up to the body that stands with it. -/
theorem Closed.lookup_library (hrules : rules.Closed) {name : String} {body : Grammar}
    (hbody : (name, body) ∈ rules) : rules.library.lookup name = some body.withCalls := by
  rcases List.append_of_mem hbody with ⟨before, after, rfl⟩
  have hnodup := hrules.nodup
  rw [List.map_append, List.nodup_append] at hnodup
  rw [List.lookup_eq_some_iff]
  refine ⟨library before, library after, by simp [library], ?_⟩
  intro entry hentry
  rcases List.mem_map.1 hentry with ⟨rule, hrule, rfl⟩
  have hne : rule.1 ≠ name := hnodup.2.2 _ (List.mem_map_of_mem hrule) name (by simp)
  simpa using Ne.symm hne

/-- The calls of the rules, each in the scope where it stands, are a family. -/
theorem Closed.ties_calls (hrules : rules.Closed) {s : System} (hs : s.library = rules.library) :
    rules.Ties Prod.fst fun i : String × Scope => s.target (.call i.1 i.2) where
  zero _ _ := rfl
  succ := by
    intro i body hbody n
    have hlookup : s.library.lookup i.1 = some body.withCalls := hs ▸ hrules.lookup_library hbody
    refine ⟨_, _, System.call_succ hlookup i.2 n, ?_⟩
    exact Grammar.Over.of_calls fun free _ inner => ⟨(free, inner), rfl, rfl⟩

/-! ### Copies of a rule -/

section Copies

variable {x : String} {body : Grammar} {call call' : String → Scope → Parser Value}
  {scope scope' : Scope} {here : List Grammar.Turn → Bool} {n m : Nat}

/-- The one free name of a closed rule is its own. -/
theorem Closed.eq_of_free (hrule : Closed [(x, body)]) {free : String}
    (hfree : body.RefersTo free) : free = x := by
  simpa using hrule.cover _ List.mem_cons_self free hfree

/-- The body of a rule that refers only to itself, with the rule in scope. -/
theorem Closed.over_self (hrule : Closed [(x, body)]) (p : Parser Value) :
    body.Over (fun _ : Unit => x) (fun _ => p) (body.denote call ((x, p) :: scope)) := by
  refine Grammar.Over.of_scope ?_
  intro free hfree
  rw [hrule.eq_of_free hfree]
  exact ⟨(), rfl, Scope.parser_cons_self x p scope⟩

/-- The same with copies of the rule in it, in whatever scopes they stand. -/
theorem Closed.over_copies (hrule : Closed [(x, body)]) (p : Parser Value) :
    body.Over (fun _ : Option Scope => x)
      (fun copy => copy.elim p fun inner => (Grammar.recursive x body).denote call inner)
      ((body.unrolled x body here).denote call ((x, p) :: scope)) := by
  refine Grammar.Over.of_unrolled ?_ fun inner => ⟨some inner, rfl, rfl⟩
  intro free hfree
  rw [hrule.eq_of_free hfree]
  exact ⟨none, rfl, Scope.parser_cons_self x p scope⟩

/-- A rule that refers only to itself, tied by itself in any scope. -/
theorem Closed.ties_recursive (hrule : Closed [(x, body)]) (call : String → Scope → Parser Value)
    (scope : Scope) :
    Ties [(x, body)] (fun _ : Unit => x) fun _ => (Grammar.recursive x body).denote call scope where
  zero _ _ := rfl
  succ := by
    intro _ body' hbody n
    cases List.mem_singleton.1 hbody
    exact ⟨0, _, Grammar.denote_recursive_succ call scope x body n, hrule.over_self _⟩

/-- The rule does the same in all scopes. -/
theorem Closed.mirrored_copy (hrule : Closed [(x, body)]) :
    ((Grammar.recursive x body).denote call scope).MirroredBy .same .larger
      ((Grammar.recursive x body).denote call' scope') :=
  Ties.mirrored (i := ()) (j := ()) hrule (hrule.ties_recursive call scope)
    (hrule.ties_recursive call' scope') List.mem_cons_self rfl

/-- What the rule comes to, it comes to with copies of itself in it. The copies are run with what is
left of the fuel, so that twice as much is enough. -/
theorem Closed.mirrored_by_unrolled (hrule : Closed [(x, body)]) (hnm : n + n ≤ m) (c : Cursor) :
    ((Grammar.recursive x body).denote call scope n c).MirroredBy .same Correspondence.same.Outcomes
      ((Grammar.recursive x (body.unrolled x body here)).denote call' scope' m c) := by
  induction n generalizing m c with
  | zero => exact .of_outOfFuel rfl
  | succ n ih =>
    rcases Nat.exists_eq_add_of_le' (show 1 ≤ m by omega) with ⟨m, rfl⟩
    have hbody := hrule.callFree _ List.mem_cons_self
    have hle : n + n ≤ m := by omega
    rw [Grammar.denote_recursive_succ, Grammar.denote_recursive_succ]
    -- a copy has at least `n` left, however deep it stands
    refine Grammar.Over.mirrored (F := .ahead n) hbody (hrule.over_self _) (hrule.over_copies _) ?_
      n m c c hle rfl
    intro _ copy _ _ k k' d d' hk hd
    cases hd
    cases copy with
    | none => exact ih hle d
    | some inner => exact hrule.mirrored_copy n k' d d (Nat.le_of_add_left_le hk) rfl

/-- What the rule comes to with copies of itself in it, it comes to. -/
theorem Closed.mirrors_unrolled (hrule : Closed [(x, body)]) (hnm : n ≤ m) (c : Cursor) :
    ((Grammar.recursive x (body.unrolled x body here)).denote call scope n c).MirroredBy .same
      Correspondence.same.Outcomes ((Grammar.recursive x body).denote call' scope' m c) := by
  induction n generalizing m c with
  | zero => exact .of_outOfFuel rfl
  | succ n ih =>
    rcases Nat.exists_eq_add_of_le' (Nat.one_le_of_lt hnm) with ⟨m, rfl⟩
    have hbody := hrule.callFree _ List.mem_cons_self
    have hle : n ≤ m := Nat.le_of_succ_le_succ hnm
    rw [Grammar.denote_recursive_succ, Grammar.denote_recursive_succ]
    -- no copy has more than `n`
    refine Grammar.Over.mirrored (F := .upTo n) hbody (hrule.over_copies _) (hrule.over_self _) ?_
      n m c c ⟨hle, Nat.le_refl n⟩ rfl
    intro copy _ _ _ k k' d d' hk hd
    cases hd
    cases copy with
    | none => exact ih hle d
    | some inner => exact hrule.mirrored_copy k m d d (Nat.le_trans hk.2 hle) rfl

end Copies

end Rules

end CommittedParsing
