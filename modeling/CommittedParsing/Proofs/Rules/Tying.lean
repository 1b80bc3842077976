import CommittedParsing.Program
import CommittedParsing.Proofs.Rules.Families
import CommittedParsing.Proofs.Rules.SingleDefinition

/-!
# Ways of tying rules

Rules that refer to one another may be declared first and be defined through copies of their handles;
they may call one another, each call building the body anew; they may do the one here and the other
there; a rule that refers only to itself may be tied by itself, through a forwarder that is looked up
on each use. All of this comes to the same, from every cursor, whether it comes to an end or not.

Main statements:
* `Rules.HeldBy.ties`, `Rules.HeldBy.ties_with_calls` — rules that are defined through handles are
  tied, also where they call one another;
* `Rules.Closed.build_byHandles`, `Rules.Closed.build_byCalls`, `Rules.Closed.build_byBoth` — the
  programs are built, over rules that are tied;
* `Rules.Ties.agrees_over` — over rules that are tied, in whatever way, a grammar comes to the same;
* `Rules.ways_of_tying_agree` — all the ways.
-/

namespace CommittedParsing

open CommittedParsing.Parser Run

/-! ## Parsers that agree -/

/-- From every cursor the two parsers come to the same outcome or to the same fault, if they come to
one at all. -/
def Parser.Agrees (p q : Parser Value) : Prop :=
  ∀ c ending, ending ≠ .outOfFuel → ((∃ n, (p n c).ending = ending) ↔ ∃ n, (q n c).ending = ending)

/-- Under the correspondence of equal things, a run that mirrors an ended one ends as that does. -/
theorem Run.MirroredBy.ending_eq {α : Type} {r r' : Run (Outcome α)}
    (h : r.MirroredBy .same Correspondence.same.Outcomes r') (hended : r.ending ≠ .outOfFuel) :
    r'.ending = r.ending := by
  have hending := (h hended).1
  revert hending
  generalize r.ending = ending, r'.ending = ending'
  intro hending
  cases hending with
  | value houtcome => rw [houtcome.eq_of_same]
  | fault e => rfl

/-- Two parsers agree if each mirrors the other with enough fuel. -/
theorem Parser.Agrees.of_mirrored {p q : Parser Value}
    (h : ∀ n, ∃ m, ∀ c, (p n c).MirroredBy .same Correspondence.same.Outcomes (q m c))
    (h' : ∀ n, ∃ m, ∀ c, (q n c).MirroredBy .same Correspondence.same.Outcomes (p m c)) :
    p.Agrees q := by
  intro c ending hended
  constructor
  · rintro ⟨n, rfl⟩
    rcases h n with ⟨m, hm⟩
    exact ⟨m, (hm c).ending_eq hended⟩
  · rintro ⟨n, rfl⟩
    rcases h' n with ⟨m, hm⟩
    exact ⟨m, (hm c).ending_eq hended⟩

/-- With larger fuels, one of them is always at hand. -/
theorem Parser.Agrees.of_larger {p q : Parser Value} (h : p.MirroredBy .same .larger q)
    (h' : q.MirroredBy .same .larger p) : p.Agrees q :=
  .of_mirrored (fun n => ⟨n, fun c => h n n c c (Nat.le_refl n) rfl⟩)
    fun n => ⟨n, fun c => h' n n c c (Nat.le_refl n) rfl⟩

/-! ## Handles -/

/-- A name in scope parses what its handle does. -/
theorem System.parser_scopeOf {family : Target → Parser Value} {t : Table} {name : String}
    {h : Handle} (hfind : t.find? name = some h) :
    (scopeOf family t.entries).parser name = family (.rule h) := by
  rcases t with ⟨entries⟩
  induction entries with
  | nil => simp [Table.find?] at hfind
  | cons entry entries ih =>
    show Scope.parser ((entry.1, family (.rule entry.2)) :: scopeOf family entries) name = _
    by_cases hname : entry.1 = name
    · have hhandle : entry.2 = h := by simpa [Table.find?, hname] using hfind
      rw [hname, Scope.parser_cons_self, hhandle]
    · have hrest : (Table.mk entries).find? name = some h := by
        simpa [Table.find?, List.find?_cons, hname] using hfind
      rw [Scope.parser_cons_of_ne hname, ih hrest]

/-- A definition finds the handles of all names that it refers to. -/
theorem Table.find?_close (t : Table) {body : Grammar} {name : String} (hname : name ∈ body.freeNames) :
    (Table.mk (t.close body).bindings).find? name = t.find? name := by
  have htest : ∀ entry : String × Handle,
      decide (body.freeNames.contains entry.1 = true ∧ (entry.1 == name) = true) =
        (entry.1 == name) := by
    intro entry
    by_cases h : entry.1 = name
    · simp [h, hname]
    · simp [h]
  simp only [find?, close, List.find?_filter, htest]

namespace Rules

/-- Every rule is defined through its handle, by what is made of its body, and the names in the body
have handles of the rules. -/
def HeldBy (rules : Rules) (stored : String → Grammar → Grammar) (s : System)
    (handles : String → Handle) : Prop :=
  ∀ name body, (name, body) ∈ rules → ∃ bindings,
    s.store.resolve (handles name) = .ok ⟨stored name body, bindings⟩ ∧
      ∀ free, body.RefersTo free → ∃ h, (Table.mk bindings).find? free = some h ∧
        h.rule = (handles free).rule

section Held

variable {rules : Rules} {stored : String → Grammar → Grammar} {s : System}
  {handles : String → Handle}

/-- With fuel left, a handle runs what is stored for its rule, with the rules in scope. -/
theorem HeldBy.rule_succ (h : rules.HeldBy stored s handles) {name : String} {body : Grammar}
    (hbody : (name, body) ∈ rules) (n : Nat) : ∃ scope,
    (∀ c, s.rule (handles name) (n + 1) c =
      (stored name body).denote (fun name scope _ => s.target (.call name scope) n) scope n c) ∧
      ∀ free, body.RefersTo free → Scope.parser scope free = fun _ => s.rule (handles free) n := by
  rcases h name body hbody with ⟨bindings, hresolve, hbindings⟩
  refine ⟨_, System.rule_succ hresolve n, ?_⟩
  intro free hfree
  rcases hbindings free hfree with ⟨handle, hfind, hrule⟩
  rw [System.parser_scopeOf hfind, ← s.rule_eq_of_rule hrule]
  rfl

/-- Rules that are held with the bodies they have tie the names to their handles. -/
theorem HeldBy.ties (h : rules.HeldBy (fun _ body => body) s handles) :
    rules.Ties id fun name => s.rule (handles name) where
  zero _ _ := rfl
  succ := by
    intro name body hbody n
    rcases h.rule_succ hbody n with ⟨scope, hrun, hscope⟩
    refine ⟨0, _, hrun, ?_⟩
    exact Grammar.Over.of_scope fun free hfree => ⟨free, rfl, hscope free hfree⟩

/-- Handles and calls together are a family as well. -/
theorem HeldBy.ties_with_calls {called : String → List Grammar.Turn → String → Bool}
    (h : rules.HeldBy (fun name body => body.withSomeCalls (called name)) s handles)
    (hrules : rules.Closed) (hs : s.library = rules.library) :
    rules.Ties (Sum.elim id Prod.fst) (Sum.elim (fun name => s.rule (handles name))
      fun i : String × Scope => s.target (.call i.1 i.2)) where
  zero := by
    rintro (name | i) c
    · rfl
    · rfl
  succ := by
    rintro (name | i) body hbody n
    · rcases h.rule_succ hbody n with ⟨scope, hrun, hscope⟩
      refine ⟨0, _, hrun, Grammar.Over.of_someCalls ?_ ?_⟩
      · exact fun free hfree => ⟨.inl free, rfl, hscope free hfree⟩
      · exact fun free _ inner => ⟨.inr (free, inner), rfl, rfl⟩
    · have hlookup : s.library.lookup i.1 = some body.withCalls := hs ▸ hrules.lookup_library hbody
      refine ⟨_, _, System.call_succ hlookup i.2 n, ?_⟩
      exact Grammar.Over.of_calls fun free _ inner => ⟨.inr (free, inner), rfl, rfl⟩

end Held

end Rules

/-! ## Programs -/

namespace Program

variable {p : Program} {name : String}

/-- A declared name stands for the rule at its place. -/
theorem find?_table (hname : name ∈ p.names) :
    p.table.find? name = some (.strong (p.names.idxOf name)) := by
  -- the numbers of the entries begin anywhere, which is what the induction goes over
  have hfrom : ∀ (names : List String) (start : Nat), name ∈ names →
      (Table.mk ((names.zipIdx start).map fun entry => (entry.1, .strong entry.2))).find? name =
        some (.strong (start + names.idxOf name)) := by
    intro names
    induction names with
    | nil => simp
    | cons first names ih =>
      intro start hmem
      by_cases hfirst : first = name
      · simp [Table.find?, hfirst]
      · have hrest := ih (start + 1) ((List.mem_cons.1 hmem).resolve_left (Ne.symm hfirst))
        have hlater : (first :: names).idxOf name = names.idxOf name + 1 :=
          List.idxOf_cons_ne _ hfirst
        rw [hlater]
        simpa [Table.find?, hfirst, Nat.add_comm, Nat.add_left_comm] using hrest
  have hfind := hfrom p.names 0 hname
  rw [Nat.zero_add] at hfind
  exact hfind

/-- Behind the declarations, no rule is written yet. -/
theorem state_declared (hname : name ∈ p.names) :
    p.declared.state (p.names.idxOf name) = .declared := by
  have hlt := List.idxOf_lt_length_of_mem hname
  simp [declared, Store.state, hlt]

/-- A definition that is accepted leaves its records, and the other rules are defined after it. -/
theorem defineAll_cons_of_ok {body : Grammar} {store next : Store} (hname : name ∈ p.names)
    (hdefine : store.define (.strong (p.names.idxOf name)) (p.close body) = .ok next)
    (rules : List (String × Option Grammar)) :
    p.defineAll ((name, some body) :: rules) store =
      (p.defineAll rules next).prepend (body.announcements ++ [.ruleDefined]) := by
  simp only [defineAll, define, find?_table hname, hdefine]
  rfl

/-- Rules of different names that have only been declared are defined in turn. -/
theorem ending_defineAll_of_nodup {todo : Rules} {store : Store} (hnodup : (todo.map Prod.fst).Nodup)
    (htodo : ∀ name body, (name, body) ∈ todo → name ∈ p.names ∧
      store.state (p.names.idxOf name) = .declared) :
    ∃ done, (p.defineAll (todo.map fun (name, body) => (name, some body)) store).ending = .value done ∧
      (∀ name body, (name, body) ∈ todo →
        done.state (p.names.idxOf name) = .defined (p.close body)) ∧
      ∀ rule, (∀ name body, (name, body) ∈ todo → rule ≠ p.names.idxOf name) →
        done.state rule = store.state rule := by
  induction todo generalizing store with
  | nil => exact ⟨store, rfl, by simp, fun _ _ => rfl⟩
  | cons first todo ih =>
    rcases first with ⟨name, body⟩
    rw [List.map_cons, List.nodup_cons] at hnodup
    rcases htodo name body List.mem_cons_self with ⟨hname, hdeclared⟩
    let next : Store := ⟨store.states.set (p.names.idxOf name) (.defined (p.close body))⟩
    have hdefine : store.define (.strong (p.names.idxOf name)) (p.close body) = .ok next :=
      Store.define_eq_ok_iff.2 ⟨hdeclared, rfl⟩
    -- the rules to come are other rules, which are still only declared
    have hlater : ∀ later body, (later, body) ∈ todo → p.names.idxOf later ≠ p.names.idxOf name := by
      intro later body' hmem heq
      have hsame : later = name :=
        (List.idxOf_inj (htodo later body' (List.mem_cons_of_mem _ hmem)).1).1 heq
      exact hnodup.1 (List.mem_map.2 ⟨_, hmem, hsame⟩)
    have hnext : ∀ rule, rule ≠ p.names.idxOf name → next.state rule = store.state rule :=
      fun rule hne => Store.state_define_of_ne hdefine hne
    have hstill : ∀ later body, (later, body) ∈ todo → later ∈ p.names ∧
        next.state (p.names.idxOf later) = .declared := by
      intro later body' hmem
      rcases htodo later body' (List.mem_cons_of_mem _ hmem) with ⟨hknown, hstate⟩
      exact ⟨hknown, (hnext _ (hlater later body' hmem)).trans hstate⟩
    rcases ih hnodup.2 hstill with ⟨done, hdone, hdefined, hothers⟩
    refine ⟨done, ?_, ?_, ?_⟩
    · rw [List.map_cons, defineAll_cons_of_ok hname hdefine, ending_prepend, hdone]
    · intro name' body' hmem
      rcases List.mem_cons.1 hmem with heq | hmem
      · cases heq
        rw [hothers _ fun later body' hmem => (hlater later body' hmem).symm]
        exact Store.state_define_self hdefine
      · exact hdefined name' body' hmem
    · intro rule hrule
      rw [hothers rule fun later body' hmem => hrule later body' (List.mem_cons_of_mem _ hmem)]
      exact hnext rule (hrule name body List.mem_cons_self)

end Program

/-! ### Rules as programs -/

namespace Rules

/-- Declare all rules, then define them through copies of their handles. -/
def byHandles (rules : Rules) (g : Grammar) : Program :=
  ⟨rules.map fun (name, body) => (name, some body), [], g⟩

/-- Build the body of a rule anew wherever it is referred to. -/
def byCalls (rules : Rules) (g : Grammar) : Program := ⟨[], rules.library, g.withCalls⟩

/-- Declare and define the rules, but call them in some places: in the bodies of the rules, and in the
grammar that is applied. -/
def byBoth (rules : Rules) (called : String → List Grammar.Turn → String → Bool) (g : Grammar)
    (calledHere : List Grammar.Turn → String → Bool) : Program :=
  ⟨rules.map fun (name, body) => (name, some (body.withSomeCalls (called name))), rules.library,
    g.withSomeCalls calledHere⟩

variable {rules : Rules} {g : Grammar} {name : String}

/-- A program that defines every rule once is built, its rules are held by the handles of its table,
and all of them are in scope. -/
theorem Closed.held_of_program (hrules : rules.Closed) {p : Program}
    (stored : String → Grammar → Grammar)
    (hp : p.rules = rules.map fun (name, body) => (name, some (stored name body))) :
    ∃ store handles, p.build.ending = .value ((System.mk store p.library).parser (p.close p.grammar)) ∧
      rules.HeldBy stored ⟨store, p.library⟩ handles ∧
      ∀ family, ∀ name ∈ rules.map Prod.fst,
        (System.scopeOf family p.table.entries).parser name = family (.rule (handles name)) := by
  have hnames : ∀ name ∈ rules.map Prod.fst, name ∈ p.names := by
    intro name hname
    unfold Program.names
    rw [List.mem_eraseDups, hp]
    simpa [Function.comp_def] using hname
  let todo : Rules := rules.map fun (name, body) => (name, stored name body)
  have htodo : todo.map Prod.fst = rules.map Prod.fst := by simp [todo, Function.comp_def]
  have hnodup : (todo.map Prod.fst).Nodup := htodo ▸ hrules.nodup
  -- every rule is declared before any is written, so that each name is bound
  have hdeclared : ∀ name body, (name, body) ∈ todo → name ∈ p.names ∧
      p.declared.state (p.names.idxOf name) = .declared := by
    intro name body hbody
    have hname := hnames name (htodo ▸ List.mem_map_of_mem hbody)
    exact ⟨hname, Program.state_declared hname⟩
  rcases Program.ending_defineAll_of_nodup hnodup hdeclared with ⟨store, hstore, hdefined, _⟩
  refine ⟨store, fun name => .strong (p.names.idxOf name), ?_, ?_, ?_⟩
  · have hdone : (p.defineAll p.rules p.declared).ending = .value store := by
      have hmap : p.rules = todo.map fun (name, body) => (name, some body) := by
        simp [hp, todo, Function.comp_def]
      rw [hmap, hstore]
    exact ending_bind_eq_value_iff.2 ⟨store, hdone, rfl⟩
  · intro name body hbody
    have hstored : (name, stored name body) ∈ todo := List.mem_map_of_mem hbody
    refine ⟨p.table.entries, Store.resolve_eq_ok_iff.2 (hdefined name _ hstored), ?_⟩
    intro free hfree
    exact ⟨_, Program.find?_table (hnames free (hrules.cover _ hbody free hfree)), rfl⟩
  · exact fun family name hname => System.parser_scopeOf (Program.find?_table (hnames name hname))

/-- The program is built over rules that are tied, whose handles are in scope. -/
theorem Closed.build_byHandles (hrules : rules.Closed) (hcover : rules.Cover g) :
    ∃ p family, (rules.byHandles g).build.ending = .value p ∧ rules.Ties id family ∧
      g.Over id family p := by
  have hprogram : (rules.byHandles g).rules = rules.map fun (name, body) => (name, some body) := rfl
  rcases hrules.held_of_program (fun _ body => body) hprogram with
    ⟨store, handles, hbuilt, hheld, hscope⟩
  refine ⟨_, _, hbuilt, hheld.ties, Grammar.Over.of_scope ?_⟩
  exact fun free hfree => ⟨free, rfl, hscope _ free (hcover free hfree)⟩

/-- The program is built over rules that are tied, some of whose handles are in scope, while calls
come to the library. -/
theorem Closed.build_byBoth (hrules : rules.Closed) (hcover : rules.Cover g)
    (called : String → List Grammar.Turn → String → Bool) (calledHere : List Grammar.Turn → String → Bool) :
    ∃ p, ∃ family : String ⊕ String × Scope → Parser Value,
      (rules.byBoth called g calledHere).build.ending = .value p ∧
        rules.Ties (Sum.elim id Prod.fst) family ∧ g.Over (Sum.elim id Prod.fst) family p := by
  have hprogram : (rules.byBoth called g calledHere).rules =
      rules.map fun (name, body) => (name, some (body.withSomeCalls (called name))) := rfl
  rcases hrules.held_of_program (fun name body => body.withSomeCalls (called name)) hprogram with
    ⟨store, handles, hbuilt, hheld, hscope⟩
  refine ⟨_, _, hbuilt, hheld.ties_with_calls hrules rfl, Grammar.Over.of_someCalls ?_ ?_⟩
  · exact fun free hfree => ⟨.inl free, rfl, hscope _ free (hcover free hfree)⟩
  · exact fun free _ inner => ⟨.inr (free, inner), rfl, rfl⟩

/-- There is nothing to define if the rules are called. -/
theorem Closed.build_byCalls (hrules : rules.Closed) (g : Grammar) :
    ∃ q, ∃ family : String × Scope → Parser Value, (rules.byCalls g).build.ending = .value q ∧
      rules.Ties Prod.fst family ∧ g.Over Prod.fst family q := by
  let s : System := ⟨⟨[]⟩, rules.library⟩
  have hties : rules.Ties Prod.fst fun i : String × Scope => s.target (.call i.1 i.2) :=
    hrules.ties_calls rfl
  refine ⟨s.parser ⟨g.withCalls, []⟩, _, rfl, hties, ?_⟩
  exact Grammar.Over.of_calls fun free _ inner => ⟨(free, inner), rfl, rfl⟩

section Agreement

variable {ι κ : Type} {nameOf : ι → String} {nameOf' : κ → String} {family : ι → Parser Value}
  {family' : κ → Parser Value}

/-- Members of the same name agree. -/
theorem Ties.agrees (hrules : rules.Closed) (h : rules.Ties nameOf family)
    (h' : rules.Ties nameOf' family') {i : ι} {j : κ} (hname : nameOf i ∈ rules.map Prod.fst)
    (hsame : nameOf i = nameOf' j) : (family i).Agrees (family' j) :=
  .of_larger (h.mirrored hrules h' hname hsame) (h'.mirrored hrules h (hsame ▸ hname) hsame.symm)

/-- Over rules that are tied, in whatever way, a grammar comes to the same. -/
theorem Ties.agrees_over (hrules : rules.Closed) (h : rules.Ties nameOf family)
    (h' : rules.Ties nameOf' family') (hg : g.Everywhere Grammar.IsCallFree) (hcover : rules.Cover g)
    {p q : Parser Value} (hp : g.Over nameOf family p) (hq : g.Over nameOf' family' q) :
    p.Agrees q := by
  apply Parser.Agrees.of_larger
  · exact hp.mirrored hg hq fun i j hfree => h.mirrored hrules h' (hcover _ hfree)
  · exact hq.mirrored hg hp fun j i hfree => h'.mirrored hrules h (hcover _ hfree)

end Agreement

/-- Declared and defined through copies of their handles, or calling one another, or both: a grammar
over the rules comes to the same. -/
theorem Closed.programs_agree (hrules : rules.Closed) (hg : g.Everywhere Grammar.IsCallFree)
    (hcover : rules.Cover g) :
    ∃ p q, (rules.byHandles g).build.ending = .value p ∧
      (rules.byCalls g).build.ending = .value q ∧ p.Agrees q ∧
      ∀ called calledHere, ∃ r, (rules.byBoth called g calledHere).build.ending = .value r ∧
        r.Agrees q := by
  rcases hrules.build_byHandles hcover with ⟨p, _, hp, hties, hover⟩
  rcases hrules.build_byCalls g with ⟨q, _, hq, hties', hover'⟩
  refine ⟨p, q, hp, hq, hties.agrees_over hrules hties' hg hcover hover hover', ?_⟩
  intro called calledHere
  rcases hrules.build_byBoth hcover called calledHere with ⟨r, _, hr, hboth, hmixed⟩
  exact ⟨r, hr, hboth.agrees_over hrules hties' hg hcover hmixed hover'⟩

end Rules

/-! ## A rule tied by itself -/

section Single

variable {x : String} {body : Grammar}

namespace Rules

/-- A recursive grammar ties its own name. -/
theorem Closed.ties_parser (hrule : Closed [(x, body)]) :
    Ties [(x, body)] (fun _ : Unit => x) fun _ => (Grammar.recursive x body).parser :=
  hrule.ties_recursive _ _

/-- A reference to the rule comes to what the rule comes to, in whatever way it is tied. -/
theorem Closed.recursive_agrees (hrule : Closed [(x, body)]) {ι : Type} {nameOf : ι → String}
    {family : ι → Parser Value} (hties : Ties [(x, body)] nameOf family) {p : Parser Value}
    (hp : (Grammar.reference x).Over nameOf family p) :
    (Grammar.recursive x body).parser.Agrees p := by
  let whole := (Grammar.recursive x body).parser
  have hreference : (Grammar.reference x).Everywhere Grammar.IsCallFree := .intro trivial (by simp)
  have hcover : Cover [(x, body)] (.reference x) := by simp [Cover]
  have hwhole : (Grammar.reference x).Over (fun _ : Unit => x) (fun _ => whole)
      ((Grammar.reference x).denote (fun _ _ => whole) [(x, whole)]) := by
    refine Grammar.Over.of_scope ?_
    intro free hfree
    have hname : free = x := by simpa using hfree
    rw [hname]
    exact ⟨(), rfl, Scope.parser_cons_self x whole []⟩
  rw [Grammar.denote, Scope.parser_cons_self] at hwhole
  exact hrule.ties_parser.agrees_over hrule hties hreference hcover hwhole hp

/-- Recursion agrees with one rule in the store that refers to itself. -/
theorem Closed.recursive_agrees_with_handles (hrule : Closed [(x, body)]) :
    ∃ p, (byHandles [(x, body)] (.reference x)).build.ending = .value p ∧
      (Grammar.recursive x body).parser.Agrees p := by
  have hcover : Cover [(x, body)] (.reference x) := by simp [Cover]
  rcases hrule.build_byHandles hcover with ⟨p, _, hp, hties, hover⟩
  exact ⟨p, hp, hrule.recursive_agrees hties hover⟩

/-- Recursion agrees with a function that calls itself. -/
theorem Closed.recursive_agrees_with_calls (hrule : Closed [(x, body)]) :
    ∃ q, (byCalls [(x, body)] (.reference x)).build.ending = .value q ∧
      (Grammar.recursive x body).parser.Agrees q := by
  rcases hrule.build_byCalls (.reference x) with ⟨q, _, hq, hties, hover⟩
  exact ⟨q, hq, hrule.recursive_agrees hties hover⟩

/-- Recursion agrees with itself unrolled once, wherever it is unrolled. -/
theorem Closed.recursive_agrees_with_unrolled (hrule : Closed [(x, body)]) (here : List Grammar.Turn → Bool) :
    (Grammar.recursive x body).parser.Agrees
      (Grammar.recursive x (body.unrolled x body here)).parser := by
  apply Parser.Agrees.of_mirrored
  · exact fun n => ⟨n + n, hrule.mirrored_by_unrolled (Nat.le_refl _)⟩
  · exact fun n => ⟨n, hrule.mirrors_unrolled (Nat.le_refl _)⟩

end Rules

namespace Session

variable {s built : Session} {build : List Step} {last : Option (Run (Result Value))}

/-- A rule that was tied by itself is held by every handle of it, and its forwarder leads there. -/
theorem heldBy_of_complete {rule : Nat} {outer : List Nat} (hrule : Rules.Closed [(x, body)])
    (hbody : body.Everywhere Grammar.Captures) (hdeclared : s.store.state rule = .declared)
    (hforwarder : s.table.find? x = some (.weak rule)) (name : String) {h : Handle}
    (hh : h.rule = rule) :
    Rules.HeldBy [(x, body)] (fun _ body => body) (s.complete rule outer name body).system
      fun _ => h := by
  subst hh
  have hstate := state_complete hdeclared outer name body
  intro name' body' hmem
  cases List.mem_singleton.1 hmem
  refine ⟨_, Store.resolve_eq_ok_iff.2 hstate, ?_⟩
  intro free hfree
  have hname := hrule.eq_of_free hfree
  rw [hname] at hfree ⊢
  have hfound := Table.find?_close s.table (hfree.mem_freeNames hbody)
  exact ⟨.weak h.rule, hfound.trans hforwarder, rfl⟩

/-- Whatever its build has done, if the rule is not written and the forwarder still under its name. -/
theorem recursive_agrees_with_tied (hrule : Rules.Closed [(x, body)])
    (hbody : body.Everywhere Grammar.Captures)
    (hbuilt : (s.beginRule x).build none build = (.ok last, built))
    (hdeclared : built.store.state s.store.size = .declared)
    (hforwarder : built.table.find? x = some (.weak s.store.size)) (name : String) :
    ∃ t, s.step (.tie name x body build) = (.tied last, t) ∧
      t.table.find? name = some (.strong s.store.size) ∧
      ∀ h : Handle, h.rule = s.store.size →
        (Grammar.recursive x body).parser.Agrees (t.system.rule h) := by
  refine ⟨_, step_tie_of_declared hbuilt hdeclared name body, Table.find?_insert_self _ _ _, ?_⟩
  intro h hh
  have hheld : Rules.HeldBy [(x, body)] (fun _ body => body)
      (built.complete s.store.size s.inProgress name body).system fun _ => h :=
    heldBy_of_complete hrule hbody hdeclared hforwarder name hh
  exact Rules.Ties.agrees (i := ()) (j := x) hrule hrule.ties_parser hheld.ties List.mem_cons_self rfl

end Session

end Single

/-! ## All ways -/

namespace Rules

/-- A rule that refers only to itself, tied by itself, does what it does when it is tied in any other
way. -/
structure AgreeWithRecursive (x : String) (body : Grammar) : Prop where
  /-- It may be declared and be defined through copies of its handle, -/
  handles : ∃ p, (byHandles [(x, body)] (.reference x)).build.ending = .value p ∧
    (Grammar.recursive x body).parser.Agrees p
  /-- or call itself, -/
  calls : ∃ q, (byCalls [(x, body)] (.reference x)).build.ending = .value q ∧
    (Grammar.recursive x body).parser.Agrees q
  /-- or have the whole rule in the places of some of its references to itself, -/
  unrolled (here : List Grammar.Turn → Bool) : (Grammar.recursive x body).parser.Agrees
    (Grammar.recursive x (body.unrolled x body here)).parser
  /-- or be tied in a session, where its forwarder and all its other handles do what it does, whatever its
  build has done, if it has not written the rule and the forwarder is still under its name. -/
  tied (hbody : body.Everywhere Grammar.Captures) (s : Session) (name : String) (build : List Step)
    (last : Option (Run (Result Value))) (built : Session)
    (hbuilt : (s.beginRule x).build none build = (.ok last, built))
    (hunwritten : built.store.state s.store.size = .declared)
    (hforwarder : built.table.find? x = some (.weak s.store.size)) :
    ∃ t, s.step (.tie name x body build) = (.tied last, t) ∧
      t.table.find? name = some (.strong s.store.size) ∧
      ∀ h : Handle, h.rule = s.store.size →
        (Grammar.recursive x body).parser.Agrees (t.system.rule h)
  /-- In particular if its build does nothing, or runs the forwarder. -/
  tied_undisturbed (hbody : body.Everywhere Grammar.Captures) (s : Session) (name : String)
    (during : During) (hduring : during = .nothing ∨ ∃ text, during = .run text) :
    ∃ last t, s.step (.recursive name x body during) = (.tied last, t) ∧
      t.table.find? name = some (.strong s.store.size) ∧
      ∀ h : Handle, h.rule = s.store.size →
        (Grammar.recursive x body).parser.Agrees (t.system.rule h)

/-- Rules that refer only to one another come to the same whether they are tied by handles, by calls,
or by handles in some places and by calls in others; and so does a single rule that is tied by itself,
also with copies of itself in it. -/
theorem ways_of_tying_agree {rules : Rules} (hrules : rules.Closed) :
    (∀ g : Grammar, g.Everywhere Grammar.IsCallFree → rules.Cover g →
      ∃ p q, (rules.byHandles g).build.ending = .value p ∧
        (rules.byCalls g).build.ending = .value q ∧ p.Agrees q ∧
        ∀ called calledHere, ∃ r, (rules.byBoth called g calledHere).build.ending = .value r ∧
          r.Agrees q) ∧
    ∀ x body, rules = [(x, body)] → AgreeWithRecursive x body := by
  -- programs of many rules first; then recursion, against each way of tying one rule
  constructor
  · exact fun g hg hcover => hrules.programs_agree hg hcover
  · intro x body hsingle
    rw [hsingle] at hrules
    constructor
    · exact hrules.recursive_agrees_with_handles
    · exact hrules.recursive_agrees_with_calls
    · exact hrules.recursive_agrees_with_unrolled
    · intro hbody s name build last built hbuilt hunwritten hforwarder
      exact Session.recursive_agrees_with_tied hrules hbody hbuilt hunwritten hforwarder name
    · intro hbody s name during hduring
      obtain ⟨last, hbuilt⟩ := s.build_undisturbed x hduring
      exact ⟨last, Session.recursive_agrees_with_tied hrules hbody hbuilt (Session.state_beginRule s x)
        (Session.find?_beginRule s x) name⟩

end Rules

/-- Two rules that refer to each other, the first of which ties a rule of its own under the name of the
second; and a rule that refers to itself twice. -/
theorem mutual_rules_agree :
    let last : Value → Value → Value := fun _ v => v
    let stars : Grammar := .recursive "b" (.or (.seq2 (.text "*") (.reference "b") last) (.text "!"))
    let a : Grammar := .or (.seq2 (.text "a") (.reference "b") last) stars
    let b : Grammar := .seq2 (.text "b") (.reference "a") last
    let rules : Rules := [("a", a), ("b", b)]
    let pair : Grammar :=
      .or (.seq3 (.text "(") (.reference "x") (.reference "x") fun _ _ v => v) (.text ".")
    let c := Cursor.start (Source.ofString 0 "ab*!")
    (rules.Closed ∧ (Grammar.reference "a").Everywhere Grammar.IsCallFree ∧
      rules.Cover (.reference "a") ∧
      ∃ p q, (rules.byHandles (.reference "a")).build.ending = .value p ∧
        (rules.byCalls (.reference "a")).build.ending = .value q ∧ p.Agrees q ∧
        (∃ n, (p n c).ending = .value (.success (.string "!") (c.skip c.rest []))) ∧
        ∀ called calledHere, ∃ r,
          (rules.byBoth called (.reference "a") calledHere).build.ending = .value r ∧ r.Agrees q) ∧
    Rules.Closed [("x", pair)] ∧ Rules.AgreeWithRecursive "x" pair := by
  intro last stars a b rules pair c
  have htext : ∀ text, (Grammar.text text).Everywhere Grammar.IsCallFree :=
    fun text => .intro trivial (by simp)
  have hreference : ∀ name, (Grammar.reference name).Everywhere Grammar.IsCallFree :=
    fun name => .intro trivial (by simp)
  have hseq2 : ∀ text name, (Grammar.seq2 (.text text) (.reference name) last).Everywhere
      Grammar.IsCallFree := fun text name => .intro trivial (by simp [htext, hreference])
  have hstars : stars.Everywhere Grammar.IsCallFree := by
    have hbody : (Grammar.or (.seq2 (.text "*") (.reference "b") last) (.text "!")).Everywhere
        Grammar.IsCallFree := .intro trivial (by simp [htext, hseq2])
    exact .intro trivial (by simp [stars, hbody])
  have ha : a.Everywhere Grammar.IsCallFree := .intro trivial (by simp [a, hseq2, hstars])
  have hrules : rules.Closed := by
    constructor
    · decide
    · simp [rules, ha, b, hseq2]
    · simp [rules, Rules.Cover, a, b, stars, Grammar.refersTo_iff_parts]
  have hpair : pair.Everywhere Grammar.IsCallFree := by
    have hboth : (Grammar.seq3 (.text "(") (.reference "x") (.reference "x")
        fun _ _ v => v).Everywhere Grammar.IsCallFree := .intro trivial (by simp [htext, hreference])
    exact .intro trivial (by simp [pair, htext, hboth])
  have hrule : Rules.Closed [("x", pair)] := by
    constructor
    · decide
    · simp [hpair]
    · simp [Rules.Cover, pair, Grammar.refersTo_iff_parts]
  have hcover : rules.Cover (.reference "a") := by simp [rules, Rules.Cover]
  rcases (Rules.ways_of_tying_agree hrules).1 (.reference "a") (hreference "a") hcover with
    ⟨p, q, hp, hq, hagree, hboth⟩
  have hends : ∃ n, (p n c).ending = .value (.success (.string "!") (c.skip c.rest [])) := by
    -- by what the calls come to
    rw [hagree _ _ (by simp)]
    cases hq
    exact ⟨6, rfl⟩
  exact ⟨⟨hrules, hreference "a", hcover, p, q, hp, hq, hagree, hends, hboth⟩, hrule,
    (Rules.ways_of_tying_agree hrule).2 "x" pair rfl⟩

end CommittedParsing
