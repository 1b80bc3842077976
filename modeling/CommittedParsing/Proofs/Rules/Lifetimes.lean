import CommittedParsing.Grammar.Forms
import CommittedParsing.Proofs.Faults
import CommittedParsing.Proofs.Rules.Actions

/-!
# Lifetimes of rules

A rule of a session is alive exactly as long as a strong handle of it is held: under a name of the
table, by a rule that is being tied, or by the definition of a rule that is alive. This is what every
action keeps. Weak handles are held as well, but keep nothing alive; rules whose definitions hold strong
handles of one another in a circle are never freed.

A handle whose rule has been freed faults, whether it is run or defined through. Running a handle of
a living rule faults in this way only inside: where the run comes, through definitions of living
rules, to a weak handle whose rule has been freed.

Main statements:
* `Session.Balanced.moves`, `Session.Balanced.acts` — exactly the rules are alive of which a strong
  handle is held, after one action and after any list of them;
* `Session.Unshared.moves`, `Session.Unshared.acts` — a rule that is being tied is kept by its tying only;
* `System.dropped_only_through` — where the fault for a freed rule comes from;
* `Session.lifetimes` — the lifetimes of the rules of every session.
-/

namespace CommittedParsing

open Relation (ReflTransGen TransGen)

/-! ## Strong handles -/

/-- A strong handle of the rule is held. -/
inductive Session.Held (s : Session) (rule : Nat) : Prop where
  /-- Under a name of the table. -/
  | named (name : String) (h : (name, Handle.strong rule) ∈ s.table.entries)
  /-- By the tying of the rule, as long as that is in progress. -/
  | inProgress (h : rule ∈ s.inProgress)
  /-- By the definition of a living rule. -/
  | inDefinition (owner : Nat) (d : Definition) (name : String)
    (howner : s.store.state owner = .defined d) (h : (name, Handle.strong rule) ∈ d.bindings)

/-- Exactly those rules are alive of which a strong handle is held. -/
def Session.Balanced (s : Session) : Prop :=
  ∀ rule, s.store.state rule ≠ .freed ↔ s.Held rule

/-- The tyings in progress hold the only strong handles of their rules, one of each. -/
structure Session.Unshared (s : Session) : Prop where
  nodup : s.inProgress.Nodup
  not_kept : ∀ rule ∈ s.inProgress, ¬ s.store.Kept s.table.kept rule

namespace Store

variable {s : Store} {roots roots' : List Nat}

theorem Balanced.noneDangles (h : s.Balanced roots) : s.NoneDangles roots :=
  fun rule => (h rule).2

/-- More roots keep no less. -/
theorem Kept.of_roots {rule : Nat} (h : s.Kept roots rule) (hroots : rule ∈ roots → rule ∈ roots') :
    s.Kept roots' rule :=
  h.imp_left hroots

/-- A new rule keeps nothing. -/
theorem Kept.of_declare {rule : Nat} (h : s.declare.Kept roots rule) : s.Kept roots rule := by
  rcases h with hroot | ⟨owner, d, howner, hkept⟩
  · exact .inl hroot
  · have hold : owner ≠ s.size := by
      rintro rfl
      rw [state_declare_self] at howner
      cases howner
    rw [state_declare_of_ne _ hold] at howner
    exact .inr ⟨owner, d, howner, hkept⟩

/-- Roots that are alive may be added, and roots may be dropped. -/
theorem NoneDangles.of_roots (h : s.NoneDangles roots)
    (hroots : ∀ r ∈ roots', r ∈ roots ∨ s.state r ≠ .freed) : s.NoneDangles roots' := by
  rintro rule (hroot | hkept)
  · rcases hroots rule hroot with hroot | hliving
    · exact h rule (.inl hroot)
    · exact hliving
  · exact h rule (.inr hkept)

/-- A rule that has just been declared lives, so its name may be a root. -/
theorem NoneDangles.declare (h : s.NoneDangles roots)
    (hroots : ∀ r ∈ roots', r ∈ roots ∨ r = s.size) : s.declare.NoneDangles roots' := by
  have hliving : ∀ rule, rule = s.size ∨ s.state rule ≠ .freed → s.declare.state rule ≠ .freed := by
    intro rule hrule
    by_cases hnew : rule = s.size
    · rw [hnew, state_declare_self]
      simp
    · rw [state_declare_of_ne _ hnew]
      exact hrule.resolve_left hnew
  intro rule hkept
  rcases hkept.of_declare with hroot | hinside
  · rcases hroots rule hroot with hroot | hnew
    · exact hliving rule (.inr (h rule (.inl hroot)))
    · exact hliving rule (.inl hnew)
  · exact hliving rule (.inr (h rule (.inr hinside)))

end Store

namespace Session

variable {s t : Session} {rule : Nat} {outer : List Nat} {written : List (Nat × Definition)}

/-- What a session holds is what its store keeps from the names and the rules in progress. -/
theorem held_iff_kept : s.Held rule ↔ s.store.Kept (s.table.kept ++ s.inProgress) rule := by
  constructor
  · intro h
    cases h with
    | named name h => exact .inl (List.mem_append_left _ (Table.mem_kept_iff.2 ⟨name, h⟩))
    | inProgress h => exact .inl (List.mem_append_right _ h)
    | inDefinition owner d name howner h =>
      exact .inr ⟨owner, d, howner, Definition.mem_kept_iff.2 ⟨name, h⟩⟩
  · rintro (hroot | ⟨owner, d, howner, hkept⟩)
    · rcases List.mem_append.1 hroot with hnamed | hprogress
      · rcases Table.mem_kept_iff.1 hnamed with ⟨name, h⟩
        exact .named name h
      · exact .inProgress hprogress
    · rcases Definition.mem_kept_iff.1 hkept with ⟨name, h⟩
      exact .inDefinition owner d name howner h

/-- A session is balanced exactly if its store is, from those roots. -/
theorem balanced_iff_store : s.Balanced ↔ s.store.Balanced (s.table.kept ++ s.inProgress) := by
  constructor
  · exact fun h rule => (h rule).trans held_iff_kept
  · exact fun h rule => (h rule).trans held_iff_kept.symm

/-! ## What each action keeps -/

/-- Freeing restores the balance, if all that is held is alive. -/
theorem balanced_settle (h : s.store.NoneDangles (s.table.kept ++ s.inProgress)) :
    s.settle.Balanced :=
  balanced_iff_store.2 h.balanced_sweep

theorem Balanced.noneDangles (h : s.Balanced) : s.store.NoneDangles (s.table.kept ++ s.inProgress) :=
  (balanced_iff_store.1 h).noneDangles

/-- Without rules everything is balanced. -/
theorem balanced_empty : Session.empty.Balanced := by
  intro rule
  have hfreed : Session.empty.store.state rule = .freed := by
    simp [Session.empty, Store.empty, Store.state]
  constructor
  · exact fun hliving => absurd hfreed hliving
  · intro h
    cases h with
    | named name h => simp [Session.empty, Table.empty] at h
    | inProgress h => cases h
    | inDefinition owner d name howner h =>
      simp [Session.empty, Store.empty, Store.state] at howner

/-- The handles of a definition are copies of handles in the table, so that it keeps what the table
keeps. -/
theorem kept_of_fill {roots : List Nat} (hroots : ∀ r ∈ s.table.kept, r ∈ roots) {body : Grammar}
    {kept : Nat} (hdeclared : s.store.state rule = .declared)
    (h : (s.fill rule body).store.Kept roots kept) : s.store.Kept roots kept := by
  rcases h with hroot | ⟨owner, d, howner, hkept⟩
  · exact .inl hroot
  · by_cases heq : owner = rule
    · rw [heq, state_fill_self hdeclared] at howner
      cases howner
      obtain ⟨name, hmem⟩ := Definition.mem_kept_iff.1 hkept
      exact .inl (hroots _ (Table.mem_kept_iff.2 ⟨name, (List.mem_filter.1 hmem).1⟩))
    · rw [state_fill_of_ne heq] at howner
      exact .inr ⟨owner, d, howner, hkept⟩

/-- It held nothing before. -/
theorem kept_fill {roots : List Nat} {kept : Nat} (hdeclared : s.store.state rule = .declared)
    (body : Grammar) (h : s.store.Kept roots kept) : (s.fill rule body).store.Kept roots kept := by
  rcases h with hroot | ⟨owner, d, howner, hkept⟩
  · exact .inl hroot
  · have hne : owner ≠ rule := by
      rintro rfl
      rw [hdeclared] at howner
      cases howner
    exact .inr ⟨owner, d, (state_fill_of_ne hne body).trans howner, hkept⟩

/-- The same rules are held once a definition has been filled in. -/
theorem held_fill_iff {held : Nat} (hdeclared : s.store.state rule = .declared) (body : Grammar) :
    (s.fill rule body).Held held ↔ s.Held held := by
  rw [held_iff_kept, held_iff_kept]
  constructor
  · exact kept_of_fill (fun r => List.mem_append_left _) hdeclared
  · exact kept_fill hdeclared body

/-- Writing a rule that lives keeps the balance, since it names only what is held. -/
theorem Balanced.fill (h : s.Balanced) (hdeclared : s.store.state rule = .declared)
    (body : Grammar) : (s.fill rule body).Balanced := by
  intro r
  rw [held_fill_iff hdeclared, ← h r]
  by_cases heq : r = rule
  · rw [heq, state_fill_self hdeclared, hdeclared]
    simp
  · rw [state_fill_of_ne heq]

/-- Every action keeps the balance. -/
theorem Balanced.moves (h : s.Balanced) (hmoves : s.Moves written t) : t.Balanced := by
  cases hmoves with
  | stay => exact h
  | declare name =>
    refine balanced_settle (h.noneDangles.declare ?_)
    intro r hroot
    rcases List.mem_append.1 hroot with hnamed | hprogress
    · rcases Table.mem_kept_insert hnamed with hnew | hold
      · cases hnew
        exact .inr rfl
      · exact .inl (List.mem_append_left _ hold)
    · exact .inl (List.mem_append_right _ hprogress)
  | define handle body hdeclared => exact h.fill hdeclared body
  | @clone name handle copy hfind =>
    refine balanced_settle (h.noneDangles.of_roots ?_)
    intro r hroot
    rcases List.mem_append.1 hroot with hnamed | hprogress
    · rcases Table.mem_kept_insert hnamed with hnew | hold
      · rw [Handle.kept?_eq_some_iff] at hnew
        rw [hnew] at hfind
        exact .inl (List.mem_append_left _ (Table.mem_kept_iff.2 ⟨name, Table.mem_of_find? hfind⟩))
      · exact .inl (List.mem_append_left _ hold)
    · exact .inl (List.mem_append_right _ hprogress)
  | drop name =>
    refine balanced_settle (h.noneDangles.of_roots ?_)
    intro r hroot
    rcases List.mem_append.1 hroot with hnamed | hprogress
    · exact .inl (List.mem_append_left _ (Table.mem_kept_erase hnamed))
    · exact .inl (List.mem_append_right _ hprogress)
  | beginRule forwarder =>
    refine balanced_settle (h.noneDangles.declare ?_)
    intro r hroot
    rcases List.mem_append.1 hroot with hnamed | hprogress
    · rcases Table.mem_kept_insert hnamed with hweak | hold
      · cases hweak
      · exact .inl (List.mem_append_left _ hold)
    · rcases List.mem_cons.1 hprogress with hnew | hold
      · exact .inr hnew
      · exact .inl (List.mem_append_right _ hold)
  | @complete rule outer name body hprogress hdeclared =>
    -- until now the rule was alive for being in progress, from now on for its handle in the table
    refine balanced_settle ((h.fill hdeclared body).noneDangles.of_roots ?_)
    intro r hroot
    have hmem : ∀ {r}, r ∈ rule :: outer → r ∈ s.table.kept ++ s.inProgress :=
      fun hr => List.mem_append_right _ (hprogress ▸ hr)
    rcases List.mem_append.1 hroot with hnamed | hold
    · rcases Table.mem_kept_insert hnamed with hnew | hold
      · cases hnew
        exact .inl (hmem List.mem_cons_self)
      · exact .inl (List.mem_append_left _ hold)
    · exact .inl (hmem (List.mem_cons_of_mem _ hold))
  | giveUp =>
    refine balanced_settle (h.noneDangles.of_roots ?_)
    intro r hroot
    rcases List.mem_append.1 hroot with hnamed | hprogress
    · exact .inl (List.mem_append_left _ hnamed)
    · exact .inl (List.mem_append_right _ (List.mem_of_mem_tail hprogress))

/-- Every run of actions keeps the balance, by induction on the actions. -/
theorem Balanced.acts (h : s.Balanced) (actions : List Action) : (s.acts actions).Balanced := by
  induction actions generalizing s with
  | nil => exact h
  | cons first rest ih => exact ih (h.moves (act_moves s first))

/-! ### Rules in progress -/

/-- What is held is a rule of the store. -/
theorem Balanced.lt_size (h : s.Balanced) (hheld : s.Held rule) : rule < s.store.size :=
  Store.lt_size_of_state_ne_freed ((h rule).2 hheld)

/-- No handle is held of a rule that has not been declared. -/
theorem Balanced.not_kept_new (h : s.Balanced) : ¬ s.store.Kept s.table.kept s.store.size := by
  intro hkept
  have hheld : s.Held s.store.size :=
    held_iff_kept.2 (hkept.of_roots fun hroot => List.mem_append_left _ hroot)
  exact absurd (h.lt_size hheld) (Nat.lt_irrefl _)

theorem unshared_empty : Session.empty.Unshared := ⟨List.nodup_nil, by simp [Session.empty]⟩

/-- Settling takes no name and no rule in progress. -/
theorem unshared_settle (h : s.Unshared) : s.settle.Unshared where
  nodup := h.nodup
  not_kept r hr hkept := h.not_kept r hr ((Store.frees_sweep _ _).kept hkept)

/-- Strong handles go into the table by declaring rules, which are new, and when a tying ends, and what is
in the table goes into definitions. -/
theorem Unshared.moves (h : s.Unshared) (hbalanced : s.Balanced) (hmoves : s.Moves written t) :
    t.Unshared := by
  -- the rules in progress were there before, so a new one is none of them
  have hold : ∀ r ∈ s.inProgress, r ≠ s.store.size :=
    fun r hr => Nat.ne_of_lt (hbalanced.lt_size (.inProgress hr))
  cases hmoves with
  | stay => exact h
  | declare name =>
    refine unshared_settle ⟨h.nodup, ?_⟩
    intro r hr hkept
    refine h.not_kept r hr (hkept.of_declare.of_roots ?_)
    intro hroot
    rcases Table.mem_kept_insert hroot with hnew | hmem
    · exact absurd (Option.some.inj hnew).symm (hold r hr)
    · exact hmem
  | define handle body hdeclared =>
    exact ⟨h.nodup, fun r hr hkept => h.not_kept r hr (kept_of_fill (fun _ => id) hdeclared hkept)⟩
  | @clone name handle copy hfind =>
    refine unshared_settle ⟨h.nodup, ?_⟩
    intro r hr hkept
    refine h.not_kept r hr (hkept.of_roots ?_)
    intro hroot
    rcases Table.mem_kept_insert hroot with hnew | hmem
    · rw [Handle.kept?_eq_some_iff] at hnew
      rw [hnew] at hfind
      exact Table.mem_kept_iff.2 ⟨name, Table.mem_of_find? hfind⟩
    · exact hmem
  | drop name =>
    refine unshared_settle ⟨h.nodup, ?_⟩
    exact fun r hr hkept => h.not_kept r hr (hkept.of_roots Table.mem_kept_erase)
  | beginRule forwarder =>
    have hkept : ∀ {r}, s.store.declare.Kept (s.table.insert forwarder (.weak s.store.size)).kept r →
        s.store.Kept s.table.kept r := by
      intro r hkept
      refine hkept.of_declare.of_roots ?_
      intro hroot
      rcases Table.mem_kept_insert hroot with hweak | hmem
      · cases hweak
      · exact hmem
    refine unshared_settle ⟨List.nodup_cons.2 ⟨fun hr => hold _ hr rfl, h.nodup⟩, ?_⟩
    rintro r hr hnew
    rcases List.mem_cons.1 hr with rfl | hr
    · exact hbalanced.not_kept_new (hkept hnew)
    · exact h.not_kept r hr (hkept hnew)
  | @complete rule outer name body hprogress hdeclared =>
    have hnodup := h.nodup
    rw [hprogress] at hnodup
    refine unshared_settle ⟨(List.nodup_cons.1 hnodup).2, ?_⟩
    intro r hr hkept
    have hne : r ≠ rule := by
      rintro rfl
      exact (List.nodup_cons.1 hnodup).1 hr
    have hbefore : (s.fill rule body).store.Kept s.table.kept r := by
      refine hkept.of_roots ?_
      intro hroot
      rcases Table.mem_kept_insert hroot with hnew | hmem
      · exact absurd (Option.some.inj hnew).symm hne
      · exact hmem
    exact h.not_kept r (hprogress ▸ List.mem_cons_of_mem _ hr)
      (kept_of_fill (fun _ => id) hdeclared hbefore)
  | giveUp =>
    refine unshared_settle ⟨h.nodup.sublist (List.tail_sublist _), ?_⟩
    exact fun r hr => h.not_kept r (List.mem_of_mem_tail hr)

/-- Every run of actions keeps the rules in progress apart from each other and from the names. -/
theorem Unshared.acts (h : s.Unshared) (hbalanced : s.Balanced) (actions : List Action) :
    (s.acts actions).Unshared := by
  induction actions generalizing s with
  | nil => exact h
  | cons first rest ih =>
    have hmoves := act_moves s first
    exact ih (h.moves hbalanced hmoves) (hbalanced.moves hmoves)

/-- A rule that is given up is freed, since its tying held the only strong handle of it. -/
theorem state_giveUp (hbalanced : s.Balanced) (h : s.Unshared) (hprogress : s.inProgress = rule :: outer) :
    s.giveUp.store.state rule = .freed := by
  by_contra hliving
  have hheld := ((hbalanced.moves .giveUp) rule).1 hliving
  have hnodup := h.nodup
  rw [hprogress] at hnodup
  rcases held_iff_kept.1 hheld with hroot | hinside
  · rcases List.mem_append.1 hroot with hnamed | houter
    · exact h.not_kept rule (hprogress ▸ List.mem_cons_self) (.inl hnamed)
    · have hmem : rule ∈ s.inProgress.tail := houter
      rw [hprogress] at hmem
      exact (List.nodup_cons.1 hnodup).1 hmem
  · have hbefore : s.store.Kept s.table.kept rule := (Store.frees_sweep _ _).kept (.inr hinside)
    exact h.not_kept rule (hprogress ▸ List.mem_cons_self) hbefore

end Session

/-! ## Where the fault for a freed rule comes from -/

/-- The definition that a handle leads to has the other handle: a run of the one may come to the
other. -/
def Store.LeadsTo (s : Store) (h next : Handle) : Prop :=
  ∃ d name, s.resolve h = .ok d ∧ (name, next) ∈ d.bindings

/-- The functions of the grammar itself do not raise the fault for a freed rule. -/
def Grammar.NeverDrops : Grammar → Prop := Grammar.Raises fun e => e ≠ .ruleDropped

/-- From a handle, a run may come to a handle of a freed rule, or to a definition with functions that
raise the same fault. -/
def Store.MayDrop (s : Store) (h : Handle) : Prop :=
  ∃ reached, ReflTransGen s.LeadsTo h reached ∧
    (s.state reached.rule = .freed ∨
      ∃ d, s.resolve reached = .ok d ∧ ¬ d.body.Everywhere Grammar.NeverDrops)

/-- Every way of ending without a value but the fault for a freed rule. -/
def Run.unlessDropped : Option Fault → Prop
  | some e => e ≠ .ruleDropped
  | none => True

/-- Without a library, every name that is called has no grammar. -/
theorem System.call_within {s : System} (hlibrary : s.library = []) {abort : Option Fault → Prop}
    (hfuel : abort none) (hname : abort (some .ruleUndefined)) (name : String) (scope : Scope)
    (n : Nat) (c : Cursor) : (s.target (.call name scope) n c).Within abort := by
  cases n with
  | zero => exact hfuel
  | succ n =>
    have hnone : s.library.lookup name = none := by simp [hlibrary]
    rw [System.call_eq_fault hnone]
    exact hname

/-- A run of a handle faults for a freed rule only if it may come to one. -/
theorem System.dropped_only_through {s : System} (hlibrary : s.library = []) {start : Handle}
    {n : Nat} {c : Cursor} (hdropped : (s.rule start n c).ending = .fault .ruleDropped) :
    s.store.MayDrop start := by
  by_contra hnone
  have hname : Run.unlessDropped (some .ruleUndefined) := by simp [Run.unlessDropped]
  -- by the fuel: no handle that the run may come to faults in this way
  have hwithin : ∀ n h, ReflTransGen s.store.LeadsTo start h →
      ∀ c, (s.target (.rule h) n c).Within Run.unlessDropped := by
    intro n
    induction n with
    | zero => exact fun _ _ _ => trivial
    | succ n ih =>
      intro h hreached c
      cases hresolve : s.store.resolve h with
      | error e =>
        have hrun : s.target (.rule h) (n + 1) c = Run.fault e := System.rule_eq_fault hresolve n c
        rw [hrun]
        rintro rfl
        exact hnone ⟨h, hreached, .inl (Store.resolve_eq_dropped_iff.1 hresolve)⟩
      | ok d =>
        have hrun := System.rule_succ hresolve n c
        change s.target (.rule h) (n + 1) c = _ at hrun
        rw [hrun]
        have hbody : d.body.Everywhere (Grammar.Raises fun e => Run.unlessDropped (some e)) := by
          by_contra hraises
          exact hnone ⟨h, hreached, .inr ⟨d, hresolve, hraises⟩⟩
        refine Grammar.ends_within trivial hname hbody ?_ ?_ n c
        · exact fun name scope _ c' => System.call_within hlibrary trivial hname name scope n c'
        · intro entry hentry _ c'
          rcases List.mem_map.1 hentry with ⟨⟨name, next⟩, hbinding, rfl⟩
          exact ih next (hreached.tail ⟨d, name, hresolve, hbinding⟩) c'
  have hstart : (s.rule start n c).Within Run.unlessDropped := hwithin n start .refl c
  unfold Run.Within Run.Ensures at hstart
  rw [hdropped] at hstart
  exact hstart rfl

/-! ## Circles -/

/-- The definition of a rule holds a strong handle of the other. -/
def Store.Owns (s : Store) (owner rule : Nat) : Prop :=
  ∃ d, s.state owner = .defined d ∧ rule ∈ d.kept

/-- Rules that own one another in a circle keep themselves, without any root. -/
theorem Store.selfKept_circles (s : Store) :
    s.SelfKept [] fun rule => TransGen s.Owns rule rule := by
  intro rule hcircle
  rcases TransGen.head'_iff.1 hcircle with ⟨_, ⟨d, hd, _⟩, _⟩
  rcases TransGen.tail'_iff.1 hcircle with ⟨owner, hpath, hlast⟩
  have howner : TransGen s.Owns owner owner := TransGen.head' hlast hpath
  rcases hlast with ⟨d', hd', hkept⟩
  exact ⟨by simp [hd], .inr ⟨owner, d', howner, hd', hkept⟩⟩

/-! ## The lifetimes of the rules of a session -/

/-- How long the rules of a session live, and what their handles do afterwards. -/
structure Session.Lifetimes (s : Session) : Prop where
  /-- A rule is alive exactly as long as a strong handle of it is held. -/
  balanced : s.Balanced
  /-- While a rule is being tied, nothing else holds a strong handle of it. -/
  unshared : s.Unshared
  /-- When handles have been dropped, rules are released one at a time, in whatever order, each when
  no strong handle of it is held any more, until there is no such rule. -/
  released (handles : Table) (inProgress : List Nat) (after : Store) :
    after = (settle ⟨handles, s.store, inProgress⟩).store ↔
      ReflTransGen (Store.Releases (handles.kept ++ inProgress)) s.store after ∧
        after.Settled (handles.kept ++ inProgress)
  /-- A rule that has been freed stays so. -/
  freed (rule : Nat) (hdeclared : rule < s.store.size) (hfreed : s.store.state rule = .freed)
    (more : List Action) : (s.acts more).store.state rule = .freed
  /-- A rule on a circle of strong handles is never freed, and its handles go on working. -/
  circle (h : Handle) (hcircle : TransGen s.store.Owns h.rule h.rule) :
    ∃ d, s.store.resolve h = .ok d ∧ ∀ more, (s.acts more).store.resolve h = .ok d
  /-- A strong handle in the table is one of a living rule. -/
  named (name : String) (rule : Nat) (h : (name, Handle.strong rule) ∈ s.table.entries) :
    s.store.state rule ≠ .freed
  /-- To define through a handle faults for a freed rule exactly if the rule has been freed. -/
  define_faults (h : Handle) (body : Grammar) :
    s.define h body = .error .ruleDropped ↔ s.store.state h.rule = .freed
  /-- To run a handle faults so if the rule has been freed. -/
  run_faults (h : Handle) (text : String) (mode : Mode) (hfreed : s.store.state h.rule = .freed) :
    (s.runHandle h text mode).ending = .fault .ruleDropped
  /-- If it has not been freed, the run faults so only inside: it may come, through the definitions
  of living rules, to a weak handle of a rule that has been freed, or to a definition with functions
  that raise this fault themselves. -/
  run_faults_inside (h : Handle) (text : String) (mode : Mode)
    (hliving : s.store.state h.rule ≠ .freed)
    (hfault : (s.runHandle h text mode).ending = .fault .ruleDropped) :
    ∃ reached, ReflTransGen s.store.LeadsTo h reached ∧
      ((∃ rule, reached = .weak rule ∧ s.store.state rule = .freed) ∨
        ∃ d, s.store.resolve reached = .ok d ∧ ¬ d.body.Everywhere Grammar.NeverDrops)

namespace Session

variable {s : Session}

/-- Writing is refused as dropped exactly if the rule is gone. -/
theorem define_eq_dropped_iff {h : Handle} {body : Grammar} :
    s.define h body = .error .ruleDropped ↔ s.store.state h.rule = .freed := by
  cases hstate : s.store.state h.rule with
  | declared => simp [define_of_declared hstate]
  | defined d => simp [define_of_defined hstate]
  | freed => simp [define_of_freed hstate]

/-- A handle of a freed rule, in the definition of a living rule, is weak. -/
theorem Balanced.weak_of_freed (h : s.Balanced) {holder reached : Handle}
    (hleads : s.store.LeadsTo holder reached) (hfreed : s.store.state reached.rule = .freed) :
    ∃ rule, reached = .weak rule ∧ s.store.state rule = .freed := by
  cases reached with
  | weak rule => exact ⟨rule, rfl, hfreed⟩
  | strong rule =>
    rcases hleads with ⟨d, name, hresolve, hbinding⟩
    have howner := Store.resolve_eq_ok_iff.1 hresolve
    exact absurd hfreed ((h rule).2 (.inDefinition _ d name howner hbinding))

/-- A run of a living rule that comes upon a dropped one has come there by what it refers to. -/
theorem Balanced.run_faults_inside (h : s.Balanced) {handle : Handle} {text : String}
    {mode : Mode} (hliving : s.store.state handle.rule ≠ .freed)
    (hfault : (s.runHandle handle text mode).ending = .fault .ruleDropped) :
    ∃ reached, ReflTransGen s.store.LeadsTo handle reached ∧
      ((∃ rule, reached = .weak rule ∧ s.store.state rule = .freed) ∨
        ∃ d, s.store.resolve reached = .ok d ∧ ¬ d.body.Everywhere Grammar.NeverDrops) := by
  unfold runHandle at hfault
  rw [Parser.ending_apply_eq_fault_iff] at hfault
  rcases System.dropped_only_through rfl hfault with ⟨reached, hreached, hfreed | hraises⟩
  · refine ⟨reached, hreached, .inl ?_⟩
    -- the living handle itself is not the freed one, so that there is a last step to it
    rcases ReflTransGen.cases_tail hreached with heq | ⟨last, _, hlast⟩
    · rw [heq] at hfreed
      exact absurd hfreed hliving
    · exact h.weak_of_freed hlast hfreed
  · exact ⟨reached, hreached, .inr hraises⟩

/-- The lifetimes of the rules of a session that is balanced. -/
theorem Balanced.lifetimes_of_unshared (h : s.Balanced) (hunshared : s.Unshared) : s.Lifetimes := by
  constructor
  · exact h
  · exact hunshared
  · exact fun handles inProgress after => Store.sweep_eq_iff
  · exact fun rule hdeclared hfreed more => (acts_develop s more).state_of_freed hdeclared hfreed
  · -- the rules on circles are kept by one another, whatever is dropped
    intro handle hcircle
    have hdefined : ∀ rule, TransGen s.store.Owns rule rule → ∃ d, s.store.state rule = .defined d := by
      intro rule hcircle
      rcases TransGen.head'_iff.1 hcircle with ⟨_, ⟨d, hd, _⟩, _⟩
      exact ⟨d, hd⟩
    rcases hdefined handle.rule hcircle with ⟨d, hd⟩
    refine ⟨d, Store.resolve_eq_ok_iff.2 hd, ?_⟩
    intro more
    have hstays := (acts_develop s more).state_of_selfKept s.store.selfKept_circles hdefined
    rw [Store.resolve_eq_ok_iff, hstays handle.rule hcircle, hd]
  · exact fun name rule hnamed => (h rule).2 (.named name hnamed)
  · exact fun handle body => define_eq_dropped_iff
  · exact fun handle text mode hfreed =>
      ending_runHandle_of_error (Store.resolve_eq_dropped_iff.2 hfreed) text mode
  · exact fun handle text mode hliving hfault => h.run_faults_inside hliving hfault

/-- In every session, at every moment, rules live as long as a strong handle of them is held, and a handle
faults for a freed rule exactly if its rule has been freed, other handles that a run comes to aside. This is
so after every list of actions, in the middle of builds, and so after every list of steps, when no build is
in progress. -/
theorem lifetimes :
    (∀ actions, (Session.empty.acts actions).Lifetimes) ∧
      ∀ steps, (Session.empty.steps steps).2.Lifetimes ∧
        (Session.empty.steps steps).2.inProgress = [] := by
  have hactions : ∀ actions, (Session.empty.acts actions).Lifetimes := by
    intro actions
    have hunshared := unshared_empty.acts balanced_empty actions
    exact (balanced_empty.acts actions).lifetimes_of_unshared hunshared
  refine ⟨hactions, fun steps => ⟨?_, inProgress_steps _ steps⟩⟩
  rw [steps_eq_acts]
  exact hactions _

/-- A rule may be alive, and a strong handle of it in the table, and to run it faults for a freed rule
all the same: its definition has a weak handle of another rule, which was dropped. -/
theorem living_rule_faults_inside :
    let s := (Session.empty.steps
      [.recursive "r" "f" (.literal 'a') .nothing, .recursive "g" "h" (.reference "f") .nothing,
        .drop "r"]).2
    s.table.find? "g" = some (.strong 1) ∧ s.table.find? "h" = some (.weak 1) ∧
      s.store.state 1 ≠ .freed ∧
      (s.runHandle (.strong 1) "a" .whole).ending = .fault .ruleDropped ∧
      (s.runHandle (.weak 1) "a" .whole).ending = .fault .ruleDropped := by
  refine ⟨rfl, rfl, ?_, rfl, rfl⟩
  intro h
  cases h

/-- A weak handle into a circle of strong ones: the rule is still there when the table is empty but
for the weak handle. -/
example :
    let s := (Session.empty.steps
      [.declare "d", .recursive "r" "f" (.or (.literal 'x') (.reference "d")) .nothing,
        .define "d" (.reference "r"), .drop "d", .drop "r"]).2
    s.table = ⟨[("f", .weak 1)]⟩ ∧
      ∃ rest, (s.runHandle (.weak 1) "x" .whole).ending = .value (.success (.char 'x') rest) :=
  ⟨rfl, _, rfl⟩

end Session

end CommittedParsing
