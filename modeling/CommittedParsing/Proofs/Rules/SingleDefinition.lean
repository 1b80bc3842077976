import CommittedParsing.Proofs.Fuel
import CommittedParsing.Proofs.Rules.Lifetimes

/-!
# One definition for each rule

A rule is written at most once, and as long as it lives every handle of it sees that one definition:
before it is written every handle faults for want of a definition, afterwards every handle runs what
was written, and an attempt to write it again is refused and leaves everything as it was.

What a session has written is kept in a list beside it, with one entry for each definition that was
accepted. A rule that is being tied may be written through its forwarder; then the tying itself is
the second attempt, and the rule is given up.

Main statements:
* `System.rule_eq_of_rule` — the handles of a rule cannot be told apart by running them;
* `Session.state_of_written`, `Session.state_of_not_written` — a living rule holds what was written to it,
  and is merely declared if nothing was;
* `Session.single_definition` — the writings of every session.
-/

namespace CommittedParsing

/-- All handles of a rule run alike. -/
theorem System.rule_eq_of_rule (s : System) {h h' : Handle} (hrule : h.rule = h'.rule) :
    s.rule h = s.rule h' := by
  have hresolve : s.store.resolve h = s.store.resolve h' := by
    unfold Store.resolve
    rw [hrule]
  funext n c
  cases n with
  | zero => rfl
  | succ n => simp only [System.rule, System.target, Parser.knot_succ, System.step, hresolve]

/-- What a session has written, against what its handles do. -/
structure Session.DefinesOnce (s : Session) (written : List (Nat × Definition)) : Prop where
  /-- A rule is written at most once. -/
  once : (written.map Prod.fst).Nodup
  /-- As long as nothing has been written to a living rule, every run of a handle of it faults. -/
  undefined (h : Handle) (hliving : s.store.state h.rule ≠ .freed)
    (hnone : ∀ d, (h.rule, d) ∉ written) (text : String) (mode : Mode) :
    (s.runHandle h text mode).ending = .fault .ruleUndefined
  /-- In particular, of the forwarder while the rule is being tied. -/
  undefined_begun (forwarder text : String) (mode : Mode) :
    ((s.beginRule forwarder).runHandle (.weak s.store.size) text mode).ending =
      .fault .ruleUndefined
  /-- All handles of a rule run alike. -/
  alike (h h' : Handle) (hrule : h.rule = h'.rule) (text : String) (mode : Mode) :
    s.runHandle h text mode = s.runHandle h' text mode
  /-- Once a definition has been written to a living rule, every handle of it leads there, -/
  resolves (h : Handle) (d : Definition) (hliving : s.store.state h.rule ≠ .freed)
    (hwritten : (h.rule, d) ∈ written) : s.store.resolve h = .ok d
  /-- and where a run of a handle ends, the definition run by itself comes to the same, with any fuel
  from some amount on. -/
  runs (h : Handle) (d : Definition) (hliving : s.store.state h.rule ≠ .freed)
    (hwritten : (h.rule, d) ∈ written) (text : String) (mode : Mode)
    (hended : (s.runHandle h text mode).ending ≠ .outOfFuel) :
    ∃ start, ∀ n ≥ start,
      (s.system.parser d).apply mode (Source.ofString 0 text) n = s.runHandle h text mode
  /-- In turn, a run of a handle comes to whatever the definition comes to with less than ample
  fuel. -/
  runs_as (h : Handle) (d : Definition) (hliving : s.store.state h.rule ≠ .freed)
    (hwritten : (h.rule, d) ∈ written) (text : String) (mode : Mode) (n : Nat)
    (hfuel : n < Parser.ampleFuel)
    (hended : ((s.system.parser d).apply mode (Source.ofString 0 text) n).ending ≠ .outOfFuel) :
    s.runHandle h text mode = (s.system.parser d).apply mode (Source.ofString 0 text) n
  /-- As long as nothing has been written to a living rule, to define it succeeds, through whatever
  handle, and every handle leads to what was written. -/
  defines (name : String) (h : Handle) (hfind : s.table.find? name = some h)
    (hliving : s.store.state h.rule ≠ .freed) (hnone : ∀ d, (h.rule, d) ∉ written) (body : Grammar) :
    s.written (.command (.define name body)) = [(h.rule, s.table.close body)] ∧
      ∃ t, s.act (.command (.define name body)) = (.defined, t) ∧ t.table = s.table ∧
        ∀ h' : Handle, h'.rule = h.rule → t.store.resolve h' = .ok (s.table.close body)
  /-- To define it again, through whatever handle, faults and changes nothing. -/
  refuses (name : String) (h : Handle) (d : Definition) (hfind : s.table.find? name = some h)
    (hliving : s.store.state h.rule ≠ .freed) (hwritten : (h.rule, d) ∈ written)
    (body : Grammar) : s.act (.command (.define name body)) = (.fault .ruleRedefined, s)
  /-- Whatever actions do, a rule that they do not write is as before, or has been freed. -/
  others (actions : List Action) (rule : Nat) (hdeclared : rule < s.store.size)
    (hnone : ∀ d, (rule, d) ∉ s.writtenBy actions) :
    (s.acts actions).store.state rule = s.store.state rule ∨
      (s.acts actions).store.state rule = .freed
  /-- If nothing has been written to a rule when its build ends, the tying makes its entry. -/
  enters (rule : Nat) (outer : List Nat) (hprogress : s.inProgress = rule :: outer)
    (hnone : ∀ d, (rule, d) ∉ written) (name : String) (body : Grammar) :
    s.written (.endRule name body) = [(rule, s.table.close body)] ∧
      ∃ t, s.act (.endRule name body) = (.tied none, t) ∧
        t.table = s.table.insert name (.strong rule) ∧
        ∀ h : Handle, h.rule = rule → t.store.resolve h = .ok (s.table.close body)
  /-- If the rule has been written by then, through whatever handle, the tying faults, no entry is made,
  and every handle of the rule is left without it. -/
  given_up (rule : Nat) (outer : List Nat) (d : Definition) (hprogress : s.inProgress = rule :: outer)
    (hwritten : (rule, d) ∈ written) (name : String) (body : Grammar) :
    s.written (.endRule name body) = [] ∧
      ∃ t, s.act (.endRule name body) = (.fault .ruleRedefined, t) ∧ t.table = s.table ∧
        t.store.state rule = .freed
  /-- So a rule that is tied by a build that does nothing, or that runs the forwarder, has an entry: its
  body with the forwarder at hand. -/
  tie_undisturbed (name forwarder : String) (body : Grammar) (during : During)
    (hduring : during = .nothing ∨ ∃ text, during = .run text) :
    ∃ last t, s.step (.recursive name forwarder body during) = (.tied last, t) ∧
      t.table.find? name = some (.strong s.store.size) ∧
      ∀ h : Handle, h.rule = s.store.size →
        t.store.resolve h = .ok ((s.beginRule forwarder).table.close body)
  /-- And if a rule is defined through its forwarder while it is being tied, the tying faults, there is
  no entry for the rule, and its forwarder is left without it. -/
  tie (name forwarder : String) (body other : Grammar) :
    s.writtenBy (s.actionsOf (.recursive name forwarder body (.define other))) =
        [(s.store.size, (s.beginRule forwarder).table.close other)] ∧
      (s.step (.recursive name forwarder body (.define other))).1 = .fault .ruleRedefined ∧
      (s.step (.recursive name forwarder body (.define other))).2.table =
        s.table.insert forwarder (.weak s.store.size) ∧
      (s.step (.recursive name forwarder body (.define other))).2.store.state s.store.size = .freed

namespace Session

variable {s : Session} {written : List (Nat × Definition)}

/-- A living rule that was written has what was written. -/
theorem state_of_written (hholds : s.store.Holds written) {rule : Nat} {d : Definition}
    (hliving : s.store.state rule ≠ .freed) (hwritten : (rule, d) ∈ written) :
    s.store.state rule = .defined d :=
  (hholds.held rule d hwritten).resolve_right hliving

/-- A living rule that was not written is only declared. -/
theorem state_of_not_written (hholds : s.store.Holds written) {rule : Nat}
    (hliving : s.store.state rule ≠ .freed) (hnone : ∀ d, (rule, d) ∉ written) :
    s.store.state rule = .declared := by
  cases hstate : s.store.state rule with
  | declared => rfl
  | defined d => exact absurd (hholds.of_defined rule d hstate) (hnone d)
  | freed => exact absurd hstate hliving

/-- A run of the session that has ended is the run of the definition, with that fuel and with more. -/
theorem apply_of_runHandle {h : Handle} {d : Definition} (hd : s.store.resolve h = .ok d)
    {text : String} {mode : Mode} (hended : (s.runHandle h text mode).ending ≠ .outOfFuel) :
    ∃ start, ∀ n ≥ start,
      (s.system.parser d).apply mode (Source.ofString 0 text) n = s.runHandle h text mode := by
  unfold runHandle at hended ⊢
  rw [ne_eq, Parser.ending_apply_eq_outOfFuel_iff] at hended
  -- rules inside have what was left of the fuel in the one run and all of it in the other
  have hrule := System.parser_of_rule rfl hd hended
  refine ⟨Parser.ampleFuel + Parser.ampleFuel, ?_⟩
  intro n hn
  apply Parser.apply_congr
  rw [← hrule] at hended ⊢
  exact System.parser_of_ended hn hended

/-- A run of the definition that has ended within the fuel of the session is what the session gives. -/
theorem runHandle_of_apply {h : Handle} {d : Definition} (hd : s.store.resolve h = .ok d)
    {text : String} {mode : Mode} {n : Nat} (hfuel : n < Parser.ampleFuel)
    (hended : ((s.system.parser d).apply mode (Source.ofString 0 text) n).ending ≠ .outOfFuel) :
    s.runHandle h text mode = (s.system.parser d).apply mode (Source.ofString 0 text) n := by
  rw [ne_eq, Parser.ending_apply_eq_outOfFuel_iff] at hended
  have hrule := System.rule_of_definition rfl hd hended
  apply Parser.apply_congr
  rw [← hrule] at hended ⊢
  exact System.rule_of_ended hfuel hended

/-! ## All sessions -/

/-- In every session, at every moment, a rule has been written at most once, and every handle of it sees what
was written. This is so after every list of actions, and so after every list of steps. -/
theorem single_definition :
    (∀ actions, (Session.empty.acts actions).DefinesOnce (Session.empty.writtenBy actions)) ∧
      ∀ steps, (Session.empty.steps steps).2.DefinesOnce
        (Session.empty.writtenBy (Session.empty.actionsOfSteps steps)) := by
  suffices hactions : ∀ actions,
      (Session.empty.acts actions).DefinesOnce (Session.empty.writtenBy actions) by
    refine ⟨hactions, fun steps => ?_⟩
    rw [steps_eq_acts]
    exact hactions _
  intro actions
  have hbalanced := balanced_empty.acts actions
  have hunshared := unshared_empty.acts balanced_empty actions
  have hholds : (Session.empty.acts actions).store.Holds (Session.empty.writtenBy actions) :=
    (acts_develop Session.empty actions).holds
  generalize Session.empty.acts actions = s at hbalanced hunshared hholds
  generalize Session.empty.writtenBy actions = written at hholds
  have hundefined : ∀ {s : Session} {h : Handle}, s.store.state h.rule = .declared →
      ∀ text mode, (s.runHandle h text mode).ending = .fault .ruleUndefined := by
    intro s h hdeclared text mode
    refine ending_runHandle_of_error ?_ text mode
    simp [Store.resolve, hdeclared]
  -- a rule in progress is alive, since its tying holds it
  have hliving : ∀ {rule outer}, s.inProgress = rule :: outer → s.store.state rule ≠ .freed :=
    fun hprogress => (hbalanced _).2 (.inProgress (hprogress ▸ List.mem_cons_self))
  have hresolves : ∀ {t : Session} {rule d}, t.store.state rule = .defined d →
      ∀ h : Handle, h.rule = rule → t.store.resolve h = .ok d := by
    rintro t rule d hstate h rfl
    exact Store.resolve_eq_ok_iff.2 hstate
  constructor
  · exact hholds.once
  · intro h hliving hnone
    exact hundefined (state_of_not_written hholds hliving hnone)
  · intro forwarder
    exact hundefined (h := .weak s.store.size) (state_beginRule s forwarder)
  · intro h h' hrule text mode
    unfold runHandle
    rw [s.system.rule_eq_of_rule hrule]
  · intro h d hliving hwritten
    exact hresolves (state_of_written hholds hliving hwritten) h rfl
  · intro h d hliving hwritten text mode hended
    exact apply_of_runHandle (hresolves (state_of_written hholds hliving hwritten) h rfl) hended
  · intro h d hliving hwritten text mode n hfuel hended
    exact runHandle_of_apply (hresolves (state_of_written hholds hliving hwritten) h rfl) hfuel hended
  · intro name h hfind hliving hnone body
    have hdeclared := state_of_not_written hholds hliving hnone
    exact ⟨written_define_of_declared hfind hdeclared body, _,
      carryOut_define_of_declared hfind hdeclared body, rfl,
      hresolves (state_fill_self hdeclared body)⟩
  · intro name h d hfind hliving hwritten body
    exact carryOut_define_of_defined hfind (state_of_written hholds hliving hwritten) body
  · intro actions rule hdeclared hnone
    exact (acts_develop s actions).state_of_not_written hdeclared hnone
  · intro rule outer hprogress hnone name body
    have hdeclared := state_of_not_written hholds (hliving hprogress) hnone
    exact ⟨written_endRule_of_declared hprogress hdeclared name body, _,
      endRule_of_declared hprogress hdeclared name body none, rfl,
      hresolves (state_complete hdeclared outer name body)⟩
  · intro rule outer d hprogress hwritten name body
    have hdefined := state_of_written hholds (hliving hprogress) hwritten
    exact ⟨written_endRule_of_defined hprogress hdefined name body, _,
      endRule_of_defined hprogress hdefined name body none, rfl,
      state_giveUp hbalanced hunshared hprogress⟩
  · intro name forwarder body during hduring
    obtain ⟨last, hbuilt⟩ := build_undisturbed s forwarder hduring
    have hdeclared := state_beginRule s forwarder
    refine ⟨last, _, step_tie_of_declared hbuilt hdeclared name body, ?_,
      hresolves (state_complete hdeclared s.inProgress name body)⟩
    exact Table.find?_insert_self _ _ _
  · intro name forwarder body other
    have hbuilt := build_define s forwarder other
    have hdeclared := state_beginRule s forwarder
    have hfilled := state_fill_self hdeclared other
    have hstep := step_tie_of_defined hbuilt hfilled name body
    have hbegun : s.Moves [] (s.beginRule forwarder) := .beginRule forwarder
    have hwrites := Moves.define (.weak s.store.size) other hdeclared
    have hprogress : ((s.beginRule forwarder).fill s.store.size other).inProgress =
        s.store.size :: s.inProgress := rfl
    have hfreed := state_giveUp ((hbalanced.moves hbegun).moves hwrites)
      ((hunshared.moves hbalanced hbegun).moves (hbalanced.moves hbegun) hwrites) hprogress
    rw [hstep]
    refine ⟨?_, rfl, rfl, hfreed⟩
    rw [actionsOf_define]
    exact writtenBy_define s name forwarder body other

/-- The second definition is refused and is not in the list, whether it comes through the handle that
was declared or through a copy. -/
example :
    Session.empty.writtenBy (Session.empty.actionsOfSteps
        [.declare "a", .clone "a" "b", .define "b" (.literal 'x'), .define "a" (.literal 'y')]) =
      [(0, ⟨.literal 'x', []⟩)] :=
  rfl

end Session

end CommittedParsing
