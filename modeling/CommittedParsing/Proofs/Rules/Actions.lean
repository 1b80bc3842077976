import CommittedParsing.Proofs.Rules.Histories
import CommittedParsing.Session

/-!
# Actions of sessions

What becomes of a session by one action is a matter of few cases: a command is refused and nothing changes,
or the table is changed, a rule is declared, defined, entered or given up. All that holds of sessions at
every moment is proved by these cases.

A step of a session comes down to the actions that it carries out, those of its build between the beginning
and the end of a tying. So what holds after every list of actions holds after every list of steps.

Main statements:
* `Session.act_moves` — what an action does and writes;
* `Session.acts_develop` — every session has a history, and its writings are those of its actions;
* `Session.steps_eq_acts` — a session of steps is one of actions;
* `Session.inProgress_steps` — when a step is over, so are the tyings that it has begun;
* `Session.step_tie_of_declared`, `Session.step_tie_of_defined` — what a tying comes to, by what its build
  has done to the rule.
-/

namespace CommittedParsing

/-! ## What actions do -/

/-- A handle that leads to no definition runs into the fault it leads to, whatever the text. -/
theorem Session.ending_runHandle_of_error {s : Session} {h : Handle} {e : Fault}
    (he : s.store.resolve h = .error e) (text : String) (mode : Mode) :
    (s.runHandle h text mode).ending = .fault e := by
  have hpos : 0 < Parser.ampleFuel := by decide
  rcases Nat.exists_eq_succ_of_ne_zero (Nat.ne_of_gt hpos) with ⟨fuel, hfuel⟩
  unfold runHandle
  rw [Parser.ending_apply_eq_fault_iff, hfuel, System.rule_eq_fault he]
  rfl

namespace Session

variable {s : Session} {rule : Nat} {outer : List Nat}

/-- A rule with its definition, which holds copies of the handles in the table. -/
def fill (s : Session) (rule : Nat) (body : Grammar) : Session :=
  { s with store := ⟨s.store.states.set rule (.defined (s.table.close body))⟩ }

/-- The rule is defined and is not in progress any more, and its strong handle goes under a name. -/
def complete (s : Session) (rule : Nat) (outer : List Nat) (name : String) (body : Grammar) : Session :=
  settle ⟨s.table.insert name (.strong rule), (s.fill rule body).store, outer⟩

/-- A rule that is declared and not written yet can be written. -/
theorem define_of_declared {h : Handle} (hdeclared : s.store.state h.rule = .declared)
    (body : Grammar) : s.define h body = .ok (s.fill h.rule body) := by
  simp [define, fill, Store.define, hdeclared, Except.map]

/-- One that is written cannot be written again. -/
theorem define_of_defined {h : Handle} {d : Definition} (hd : s.store.state h.rule = .defined d)
    (body : Grammar) : s.define h body = .error .ruleRedefined := by
  simp [define, Store.define, hd, Except.map]

theorem define_of_freed {h : Handle} (hfreed : s.store.state h.rule = .freed) (body : Grammar) :
    s.define h body = .error .ruleDropped := by
  simp [define, Store.define, hfreed, Except.map]

theorem state_fill_self (hdeclared : s.store.state rule = .declared) (body : Grammar) :
    (s.fill rule body).store.state rule = .defined (s.table.close body) := by
  have hlt : rule < s.store.states.length := Store.lt_size_of_state_ne_freed (by simp [hdeclared])
  simp [fill, Store.state, hlt]

theorem state_fill_of_ne {other : Nat} (hne : other ≠ rule) (body : Grammar) :
    (s.fill rule body).store.state other = s.store.state other := by
  simp [fill, Store.state, Ne.symm hne]

/-- The new rule is declared, and is kept although nothing in the table keeps it. -/
theorem state_beginRule (s : Session) (forwarder : String) :
    (s.beginRule forwarder).store.state s.store.size = .declared := by
  have hnew := Store.state_declare_self s.store
  have hself : s.store.declare.SelfKept
      ((s.table.insert forwarder (.weak s.store.size)).kept ++ s.store.size :: s.inProgress)
      fun r => r = s.store.size := by
    rintro r rfl
    exact ⟨by simp [hnew], .inl (by simp)⟩
  exact (hself.state_sweep _ rfl).trans hnew

/-- A rule that has been completed holds its definition. -/
theorem state_complete (hdeclared : s.store.state rule = .declared) (outer : List Nat) (name : String)
    (body : Grammar) :
    (s.complete rule outer name body).store.state rule = .defined (s.table.close body) := by
  have hfilled := state_fill_self hdeclared body
  have hself : (s.fill rule body).store.SelfKept
      ((s.table.insert name (.strong rule)).kept ++ outer) fun r => r = rule := by
    rintro r rfl
    refine ⟨by simp [hfilled], .inl (List.mem_append_left _ ?_)⟩
    -- its handle is in the table now
    exact Table.mem_kept_iff.2 ⟨name, List.mem_cons_self⟩
  exact (hself.state_sweep _ rfl).trans hfilled

/-- The rule that was begun last is completed if it has no definition yet. -/
theorem endRule_of_declared (hprogress : s.inProgress = rule :: outer)
    (hdeclared : s.store.state rule = .declared) (name : String) (body : Grammar)
    (last : Option (Run (Result Value))) :
    s.endRule name body last = (.tied last, s.complete rule outer name body) := by
  have hdefine : s.define (.strong rule) body = .ok (s.fill rule body) :=
    define_of_declared (h := .strong rule) hdeclared body
  simp only [endRule, hprogress, hdefine, complete]
  rfl

/-- If it has one by now, it is given up. -/
theorem endRule_of_defined {d : Definition} (hprogress : s.inProgress = rule :: outer)
    (hd : s.store.state rule = .defined d) (name : String) (body : Grammar)
    (last : Option (Run (Result Value))) :
    s.endRule name body last = (.fault .ruleRedefined, s.giveUp) := by
  have hdefine : s.define (.strong rule) body = .error .ruleRedefined :=
    define_of_defined (h := .strong rule) hd body
  simp only [endRule, hprogress, hdefine]

/-- What the last run came to is only for the answer. -/
theorem endRule_eq_act (s : Session) (name : String) (body : Grammar)
    (last : Option (Run (Result Value))) :
    (s.endRule name body last).2 = (s.act (.endRule name body)).2 := by
  cases hprogress : s.inProgress with
  | nil => simp only [act, endRule, hprogress]
  | cons rule outer =>
    simp only [act, endRule, hprogress]
    cases s.define (.strong rule) body <;> rfl

/-! ### What is written -/

/-- What is written if a rule is defined through a handle now: nothing if that is refused. -/
def writtenThrough (s : Session) (h : Handle) (body : Grammar) : List (Nat × Definition) :=
  match s.define h body with
  | .ok _ => [(h.rule, s.table.close body)]
  | .error _ => []

/-- The definitions that an action writes, each with the rule that it is written to. -/
def written (s : Session) : Action → List (Nat × Definition)
  | .command (.define name body) =>
    match s.table.find? name with
    | some h => s.writtenThrough h body
    | none => []
  | .endRule _ body =>
    match s.inProgress with
    | rule :: _ => s.writtenThrough (.strong rule) body
    | [] => []
  | .command (.declare _) | .command (.clone _ _) | .command (.drop _) | .command (.run _ _ _)
  | .beginRule _ | .giveUp => []

/-- The definitions that a session writes, in order. -/
def writtenBy (s : Session) : List Action → List (Nat × Definition)
  | [] => []
  | first :: rest => s.written first ++ (s.act first).2.writtenBy rest

section Written

variable {name : String} {h : Handle} {d : Definition}

theorem carryOut_define_of_declared (hfind : s.table.find? name = some h)
    (hdeclared : s.store.state h.rule = .declared) (body : Grammar) :
    s.carryOut (.define name body) = (.defined, s.fill h.rule body) := by
  simp only [carryOut, hfind, define_of_declared hdeclared]

/-- Writing a rule a second time is refused, and changes nothing. -/
theorem carryOut_define_of_defined (hfind : s.table.find? name = some h)
    (hd : s.store.state h.rule = .defined d) (body : Grammar) :
    s.carryOut (.define name body) = (.fault .ruleRedefined, s) := by
  simp only [carryOut, hfind, define_of_defined hd]

theorem written_define_of_declared (hfind : s.table.find? name = some h)
    (hdeclared : s.store.state h.rule = .declared) (body : Grammar) :
    s.written (.command (.define name body)) = [(h.rule, s.table.close body)] := by
  simp only [written, hfind, writtenThrough, define_of_declared hdeclared]

theorem written_endRule_of_declared (hprogress : s.inProgress = rule :: outer)
    (hdeclared : s.store.state rule = .declared) (name : String) (body : Grammar) :
    s.written (.endRule name body) = [(rule, s.table.close body)] := by
  have hdefine := define_of_declared (h := .strong rule) hdeclared body
  simp only [written, hprogress, writtenThrough, hdefine]
  rfl

/-- If the build has written the rule itself, nothing is written at its end. -/
theorem written_endRule_of_defined (hprogress : s.inProgress = rule :: outer)
    (hd : s.store.state rule = .defined d) (name : String) (body : Grammar) :
    s.written (.endRule name body) = [] := by
  have hrefused := define_of_defined (h := .strong rule) hd body
  simp only [written, hprogress, writtenThrough, hrefused]

end Written

/-! ### Moves -/

/-- All that can become of a session by one action, and what is written then. -/
inductive Moves (s : Session) : List (Nat × Definition) → Session → Prop where
  /-- An action that was refused, and a run. -/
  | stay : Moves s [] s
  | declare (name : String) : Moves s [] (s.declare name)
  | define (h : Handle) (body : Grammar) (hdeclared : s.store.state h.rule = .declared) :
      Moves s [(h.rule, s.table.close body)] (s.fill h.rule body)
  | clone {name : String} {h : Handle} (copy : String) (hfind : s.table.find? name = some h) :
      Moves s [] (settle { s with table := s.table.insert copy h })
  | drop (name : String) : Moves s [] (settle { s with table := s.table.erase name })
  | beginRule (forwarder : String) : Moves s [] (s.beginRule forwarder)
  | complete {rule : Nat} {outer : List Nat} (name : String) (body : Grammar)
      (hprogress : s.inProgress = rule :: outer) (hdeclared : s.store.state rule = .declared) :
      Moves s [(rule, s.table.close body)] (s.complete rule outer name body)
  | giveUp : Moves s [] s.giveUp

/-- Every action moves the session in one of the ways that there are. -/
theorem act_moves (s : Session) (action : Action) : s.Moves (s.written action) (s.act action).2 := by
  -- over the actions; one that is refused, or whose name is not known, leaves the session as it is
  cases action with
  | command command =>
    cases command with
    | declare name => exact .declare name
    | define name body =>
      cases hfind : s.table.find? name with
      | none =>
        simp only [act, carryOut, written, hfind]
        exact .stay
      | some h =>
        simp only [act, carryOut, written, hfind, writtenThrough]
        cases hstate : s.store.state h.rule with
        | declared =>
          rw [define_of_declared hstate]
          exact .define h body hstate
        | defined d =>
          rw [define_of_defined hstate]
          exact .stay
        | freed =>
          rw [define_of_freed hstate]
          exact .stay
    | clone name copy =>
      cases hfind : s.table.find? name with
      | none =>
        simp only [act, carryOut, written, hfind]
        exact .stay
      | some h =>
        simp only [act, carryOut, written, hfind]
        exact .clone copy hfind
    | drop name => exact .drop name
    | run name text mode =>
      cases hfind : s.table.find? name with
      | none =>
        simp only [act, carryOut, written, hfind]
        exact .stay
      | some h =>
        simp only [act, carryOut, written, hfind]
        exact .stay
  | beginRule forwarder => exact .beginRule forwarder
  | endRule name body =>
    cases hprogress : s.inProgress with
    | nil =>
      simp only [act, endRule, written, hprogress]
      exact .stay
    | cons rule outer =>
      simp only [act, written, hprogress, writtenThrough]
      cases hstate : s.store.state rule with
      | declared =>
        rw [endRule_of_declared hprogress hstate, define_of_declared (h := .strong rule) hstate]
        exact .complete name body hprogress hstate
      | defined d =>
        rw [endRule_of_defined hprogress hstate, define_of_defined (h := .strong rule) hstate]
        exact .giveUp
      | freed =>
        have hrefused := define_of_freed (h := .strong rule) hstate body
        simp only [endRule, hprogress, hrefused]
        exact .giveUp
  | giveUp => exact .giveUp

/-- Writing a declared rule develops the store by that rule. -/
theorem fill_develops (hdeclared : s.store.state rule = .declared) (body : Grammar) :
    s.store.Develops [(rule, s.table.close body)] (s.fill rule body).store := by
  have hdefine : s.store.define (.strong rule) (s.table.close body) = .ok (s.fill rule body).store := by
    simp [Store.define, Handle.rule, hdeclared, fill]
  exact Store.Develops.define (h := .strong rule) .refl hdefine

theorem Moves.develops {written : List (Nat × Definition)} {t : Session} (h : s.Moves written t) :
    s.store.Develops written t.store := by
  cases h with
  | stay => exact .refl
  | declare name => exact .sweep _ (.declare .refl)
  | define h body hdeclared => exact fill_develops hdeclared body
  | clone copy hfind => exact .sweep _ .refl
  | drop name => exact .sweep _ .refl
  | beginRule forwarder => exact .sweep _ (.declare .refl)
  | complete name body hprogress hdeclared => exact .sweep _ (fill_develops hdeclared body)
  | giveUp => exact .sweep _ .refl

/-- A run of actions develops the store by all that the actions write. -/
theorem acts_develop (s : Session) (actions : List Action) :
    s.store.Develops (s.writtenBy actions) (s.acts actions).store := by
  induction actions generalizing s with
  | nil => exact .refl
  | cons first rest ih => exact (act_moves s first).develops.trans (ih _)

theorem acts_append (s : Session) (actions more : List Action) :
    s.acts (actions ++ more) = (s.acts actions).acts more :=
  List.foldl_append

/-! ### Steps -/

mutual

/-- The actions that a step comes down to. -/
def actionsOf (s : Session) : Step → List Action
  | .command command => [.command command]
  | .caught attempted => s.actionsOf attempted
  | .tie name forwarder body build =>
    let begun := s.beginRule forwarder
    let ended : Action := match (begun.build none build).1 with
      | .ok _ => .endRule name body
      | .error _ => .giveUp
    .beginRule forwarder :: (begun.actionsOfBuild build ++ [ended])

/-- The actions that the steps of a build come down to. -/
def actionsOfBuild (s : Session) : List Step → List Action
  | [] => []
  | first :: rest =>
    let (answer, after) := s.step first
    s.actionsOf first ++
      match first.escaping answer with
      | some _ => []
      | none => after.actionsOfBuild rest

end

/-- The actions that the steps of a session come down to. -/
def actionsOfSteps (s : Session) : List Step → List Action
  | [] => []
  | first :: rest => s.actionsOf first ++ (s.step first).2.actionsOfSteps rest

mutual

/-- What a step does to the session is what its actions do, one after the other. -/
theorem step_eq_acts (s : Session) : (step : Step) → (s.step step).2 = s.acts (s.actionsOf step)
  | .command command => rfl
  | .caught attempted => by
    rw [Session.step, actionsOf]
    exact step_eq_acts s attempted
  | .tie name forwarder body build => by
    -- the build starts from the session in which the rule is in progress
    have hbuild := build_eq_acts (s.beginRule forwarder) none build
    rw [Session.step, actionsOf]
    show _ = (s.beginRule forwarder).acts _
    rw [acts_append, ← hbuild]
    cases hbuilt : (s.beginRule forwarder).build none build with
    | mk ended built =>
      cases ended with
      | error e => rfl
      | ok last => exact endRule_eq_act built name body last

/-- So is what a build does, step by step. -/
theorem build_eq_acts (s : Session) (last : Option (Run (Result Value))) :
    (build : List Step) → (s.build last build).2 = s.acts (s.actionsOfBuild build)
  | [] => rfl
  | first :: rest => by
    have hfirst := step_eq_acts s first
    rw [Session.build, actionsOfBuild, acts_append, ← hfirst]
    dsimp only
    cases first.escaping (s.step first).1 with
    | some e => rfl
    | none => exact build_eq_acts (s.step first).2 _ rest

end

/-- A session of steps is one of actions. -/
theorem steps_eq_acts (s : Session) (steps : List Step) :
    (s.steps steps).2 = s.acts (s.actionsOfSteps steps) := by
  induction steps generalizing s with
  | nil => rfl
  | cons first rest ih =>
    rw [actionsOfSteps, acts_append, ← step_eq_acts]
    exact ih _

/-- A command leaves the rules in progress as they are. -/
theorem inProgress_carryOut (s : Session) (command : Command) :
    (s.carryOut command).2.inProgress = s.inProgress := by
  cases command with
  | declare name => rfl
  | define name body =>
    cases hfind : s.table.find? name with
    | none => simp only [carryOut, hfind]
    | some h =>
      simp only [carryOut, hfind, define]
      cases s.store.define h (s.table.close body) <;> rfl
  | clone name copy =>
    cases hfind : s.table.find? name with
    | none => simp only [carryOut, hfind]
    | some h =>
      simp only [carryOut, hfind]
      rfl
  | drop name => rfl
  | run name text mode =>
    cases hfind : s.table.find? name <;> simp only [carryOut, hfind]

/-- The end of a rule takes it from the rules in progress. -/
theorem inProgress_endRule (hprogress : s.inProgress = rule :: outer) (name : String) (body : Grammar)
    (last : Option (Run (Result Value))) : (s.endRule name body last).2.inProgress = outer := by
  simp only [endRule, hprogress]
  cases s.define (.strong rule) body with
  | ok defined => rfl
  | error e =>
    show s.inProgress.tail = outer
    rw [hprogress]
    rfl

mutual

/-- When a step is over, all that it has begun has ended. -/
theorem inProgress_step (s : Session) : (step : Step) → (s.step step).2.inProgress = s.inProgress
  | .command command => inProgress_carryOut s command
  | .caught attempted => by
    rw [Session.step]
    exact inProgress_step s attempted
  | .tie name forwarder body build => by
    have hbuilt := inProgress_build (s.beginRule forwarder) none build
    rw [Session.step]
    cases hrun : (s.beginRule forwarder).build none build with
    | mk ended built =>
      rw [hrun] at hbuilt
      -- the build has put back what it put on top, so that the rule itself is on top again
      have hprogress : built.inProgress = s.store.size :: s.inProgress := hbuilt
      cases ended with
      | error e =>
        show built.inProgress.tail = s.inProgress
        rw [hprogress]
        rfl
      | ok last => exact inProgress_endRule hprogress name body last

/-- A build leaves the rules in progress that it found. -/
theorem inProgress_build (s : Session) (last : Option (Run (Result Value))) :
    (build : List Step) → (s.build last build).2.inProgress = s.inProgress
  | [] => rfl
  | first :: rest => by
    have hfirst := inProgress_step s first
    rw [Session.build]
    dsimp only
    cases first.escaping (s.step first).1 with
    | some e => exact hfirst
    | none => exact (inProgress_build (s.step first).2 _ rest).trans hfirst

end

theorem inProgress_steps (s : Session) (steps : List Step) :
    (s.steps steps).2.inProgress = s.inProgress := by
  induction steps generalizing s with
  | nil => rfl
  | cons first rest ih => exact (ih _).trans (inProgress_step s first)

/-! ### Builds -/

/-- While its build goes on, a rule is had by the name of its forwarder, weakly. -/
theorem find?_beginRule (s : Session) (forwarder : String) :
    (s.beginRule forwarder).table.find? forwarder = some (.weak s.store.size) :=
  Table.find?_insert_self _ _ _

/-- A build that does nothing, or that runs the forwarder, leaves the session as it is. -/
theorem build_undisturbed (s : Session) (forwarder : String) {during : During}
    (hduring : during = .nothing ∨ ∃ text, during = .run text) :
    ∃ last, (s.beginRule forwarder).build none (during forwarder) = (.ok last, s.beginRule forwarder) := by
  rcases hduring with rfl | ⟨text, rfl⟩
  · exact ⟨none, rfl⟩
  · refine ⟨some ((s.beginRule forwarder).runHandle (.weak s.store.size) text .whole), ?_⟩
    simp only [During.run, build, step, carryOut, find?_beginRule, Step.escaping]
    rfl

/-- A build that defines the rule through the forwarder comes to an end with that definition. -/
theorem build_define (s : Session) (forwarder : String) (other : Grammar) :
    (s.beginRule forwarder).build none (During.define other forwarder) =
      (.ok none, (s.beginRule forwarder).fill s.store.size other) := by
  have hdefine := carryOut_define_of_declared (find?_beginRule s forwarder)
    (state_beginRule s forwarder) other
  simp only [During.define, build, step, hdefine, Step.escaping, Answer.fault?]
  rfl

/-- The actions of a tying with such a build. -/
theorem actionsOf_define (s : Session) (name forwarder : String) (body other : Grammar) :
    s.actionsOf (.recursive name forwarder body (.define other)) =
      [.beginRule forwarder, .command (.define forwarder other), .endRule name body] := by
  have hdefine := carryOut_define_of_declared (find?_beginRule s forwarder)
    (state_beginRule s forwarder) other
  simp only [actionsOf, build_define]
  simp only [During.define, actionsOfBuild, actionsOf, step, hdefine, Step.escaping, Answer.fault?]
  rfl

/-- Of these actions only the second one writes: by the third the rule has its definition. -/
theorem writtenBy_define (s : Session) (name forwarder : String) (body other : Grammar) :
    s.writtenBy [.beginRule forwarder, .command (.define forwarder other), .endRule name body] =
      [(s.store.size, (s.beginRule forwarder).table.close other)] := by
  have hdeclared := state_beginRule s forwarder
  have hdefine := carryOut_define_of_declared (find?_beginRule s forwarder) hdeclared other
  have hfirst := written_define_of_declared (find?_beginRule s forwarder) hdeclared other
  have hprogress : ((s.beginRule forwarder).fill s.store.size other).inProgress =
      s.store.size :: s.inProgress := rfl
  have hsecond := written_endRule_of_defined hprogress (state_fill_self hdeclared other) name body
  simp only [writtenBy, act, hfirst, hdefine, Handle.rule, hsecond]
  rfl

section Built

variable {built : Session} {forwarder : String} {build : List Step} {last : Option (Run (Result Value))}

/-- When a build has come to an end, the rule that it is for is the one that was begun last. -/
theorem inProgress_built (hbuilt : (s.beginRule forwarder).build none build = (.ok last, built)) :
    built.inProgress = s.store.size :: s.inProgress := by
  have hrestored := inProgress_build (s.beginRule forwarder) none build
  rw [hbuilt] at hrestored
  exact hrestored

/-- A rule that its build has not written gets its entry. -/
theorem step_tie_of_declared (hbuilt : (s.beginRule forwarder).build none build = (.ok last, built))
    (hdeclared : built.store.state s.store.size = .declared) (name : String) (body : Grammar) :
    s.step (.tie name forwarder body build) =
      (.tied last, built.complete s.store.size s.inProgress name body) := by
  simp only [step, hbuilt]
  exact endRule_of_declared (inProgress_built hbuilt) hdeclared name body last

/-- A rule that its build has written is given up. -/
theorem step_tie_of_defined (hbuilt : (s.beginRule forwarder).build none build = (.ok last, built))
    {d : Definition} (hd : built.store.state s.store.size = .defined d) (name : String)
    (body : Grammar) :
    s.step (.tie name forwarder body build) = (.fault .ruleRedefined, built.giveUp) := by
  simp only [step, hbuilt]
  exact endRule_of_defined (inProgress_built hbuilt) hd name body last

end Built

end Session

end CommittedParsing
