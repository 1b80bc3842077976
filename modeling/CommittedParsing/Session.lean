import CommittedParsing.Application
import CommittedParsing.Rules.Lifetime
import CommittedParsing.Rules.System

/-!
# Sessions

A session works on a table of named handles: it declares and defines rules, copies and drops
handles, ties recursive rules and runs them. After every change of the table the rules that nothing
keeps alive are freed.

While a recursive rule is being tied, its build may do all of that as well, and tie rules in turn. So a
session is seen in two ways. As a list of actions it may be anywhere between the beginning of a tying and its
end, and what is said after every list of actions is said of the middle of builds, too. As a list of steps
it is what is written down: there a tying is one step with the steps of its build, which end at the first
fault that is not caught.

Main statements:
* `Session.settle_table` — freeing rules leaves the table as it is.
-/

namespace CommittedParsing

/-! ## Commands, actions and steps -/

/-- A command to the table of a session. -/
inductive Command where
  /-- Put a strong handle of a new rule under a name. -/
  | declare (name : String)
  /-- Define the rule under a name. -/
  | define (name : String) (body : Grammar)
  /-- Put a copy of a handle under another name. -/
  | clone (name copy : String)
  /-- Drop the handle under a name. -/
  | drop (name : String)
  /-- Run the rule under a name. -/
  | run (name : String) (text : String) (mode : Mode)

/-- A single action of a session. -/
inductive Action where
  | command (command : Command)
  /-- Begin to tie a new rule: its forwarder goes under a name, and its build begins. -/
  | beginRule (forwarder : String)
  /-- The build that was begun last comes to a body: the rule is defined and goes under a name. -/
  | endRule (name : String) (body : Grammar)
  /-- The build that was begun last is left by a fault, and its rule is given up. -/
  | giveUp

/-- A step of a session. -/
inductive Step where
  | command (command : Command)
  /-- A step of which a fault does not end the build that it is part of. -/
  | caught (step : Step)
  /-- Tie a new rule: its forwarder goes under one name, then the steps of its build are carried out, and
  then it is defined and goes under the other name. -/
  | tie (name forwarder : String) (body : Grammar) (build : List Step)

/-- What is done while the body of a recursive rule is being built, with its forwarder at hand. -/
abbrev During := String → List Step

namespace Step

abbrev declare (name : String) : Step := .command (.declare name)

abbrev define (name : String) (body : Grammar) : Step := .command (.define name body)

abbrev clone (name copy : String) : Step := .command (.clone name copy)

abbrev drop (name : String) : Step := .command (.drop name)

abbrev run (name : String) (text : String) (mode : Mode) : Step := .command (.run name text mode)

/-- Tie a new rule by a build that is handed the name of the forwarder. -/
abbrev recursive (name forwarder : String) (body : Grammar) (during : During) : Step :=
  .tie name forwarder body (during forwarder)

end Step

namespace During

def nothing : During := fun _ => []

/-- The forwarder is run, and the build goes on. -/
def run (text : String) : During := fun forwarder => [.caught (.run forwarder text .whole)]

/-- The forwarder is run, and a fault ends the build. -/
def runThrough (text : String) : During := fun forwarder => [.run forwarder text .whole]

/-- The rule is defined through the forwarder. -/
def define (body : Grammar) : During := fun forwarder => [.define forwarder body]

end During

/-! ## Answers -/

/-- The answer to a step. -/
inductive Answer where
  | declared
  | defined
  | cloned
  | dropped
  /-- A rule was tied; if rules were run by its build, what the last of these runs came to. -/
  | tied (during : Option (Run (Result Value)))
  | outcome (run : Run (Result Value))
  | fault (fault : Fault)
  /-- There is no handle under the name, or no rule that is being tied. -/
  | unknownName (name : String)

namespace Answer

/-- The fault that is answered, also by a run. -/
def fault? : Answer → Option Fault
  | fault e => some e
  | outcome run =>
    match run.ending with
    | .fault e => some e
    | .value _ | .outOfFuel => none
  | declared | defined | cloned | dropped | tied _ | unknownName _ => none

/-- The run of a rule. -/
def run? : Answer → Option (Run (Result Value))
  | outcome run => some run
  | declared | defined | cloned | dropped | tied _ | fault _ | unknownName _ => none

end Answer

/-- The fault that a step ends a build with, if it answers so. -/
def Step.escaping : Step → Answer → Option Fault
  | caught _, _ => none
  | command _, answer | tie _ _ _ _, answer => answer.fault?

/-! ## Sessions -/

/-- Handles under names, and the rules they refer to. -/
structure Session where
  table : Table
  store : Store
  /-- The rules that are being tied, the one that was begun last in front. Each of them has a strong
  handle that is not in the table yet. -/
  inProgress : List Nat

namespace Session

/-- No handles and no rules. -/
def empty : Session := ⟨Table.empty, Store.empty, []⟩

/-- Free what neither the table nor a rule in progress keeps alive. -/
def settle (s : Session) : Session :=
  { s with store := s.store.sweep (s.table.kept ++ s.inProgress) }

@[simp] theorem settle_table (s : Session) : s.settle.table = s.table := rfl

@[simp] theorem settle_inProgress (s : Session) : s.settle.inProgress = s.inProgress := rfl

/-! ### Commands -/

/-- The rules as a system; sessions have no library. -/
def system (s : Session) : System := ⟨s.store, []⟩

/-- Run a handle on a text. -/
def runHandle (s : Session) (h : Handle) (text : String) (mode : Mode) : Run (Result Value) :=
  (s.system.rule h).apply mode (Source.ofString 0 text) Parser.ampleFuel

/-- Put a strong handle of a new rule under a name. -/
def declare (s : Session) (name : String) : Session :=
  settle ⟨s.table.insert name (.strong s.store.size), s.store.declare, s.inProgress⟩

/-- Define the rule of a handle. If that is refused, the body is dropped and nothing changes. -/
def define (s : Session) (h : Handle) (body : Grammar) : Except Fault Session :=
  (s.store.define h (s.table.close body)).map fun store => { s with store := store }

/-- Carry out a command: the answer and the session after it. -/
def carryOut (s : Session) : Command → Answer × Session
  | .declare name => (.declared, s.declare name)
  | .define name body =>
    match s.table.find? name with
    | none => (.unknownName name, s)
    | some h =>
      match s.define h body with
      | .ok defined => (.defined, defined)
      | .error e => (.fault e, s)
  | .clone name copy =>
    match s.table.find? name with
    | none => (.unknownName name, s)
    | some h => (.cloned, settle { s with table := s.table.insert copy h })
  | .drop name => (.dropped, settle { s with table := s.table.erase name })
  | .run name text mode =>
    match s.table.find? name with
    | none => (.unknownName name, s)
    | some h => (.outcome (s.runHandle h text mode), s)

/-! ### Tying -/

/-- Begin to tie a new rule: it exists, undefined, and its forwarder is under a name. -/
def beginRule (s : Session) (forwarder : String) : Session :=
  settle ⟨s.table.insert forwarder (.weak s.store.size), s.store.declare, s.store.size :: s.inProgress⟩

/-- Give up the rule that was begun last. If nothing else keeps it, its forwarder is left dangling. -/
def giveUp (s : Session) : Session := settle { s with inProgress := s.inProgress.tail }

/-- Define the rule that was begun last and put its strong handle under a name. If it has a definition
already, it is given up. What the last run of its build came to is part of the answer. -/
def endRule (s : Session) (name : String) (body : Grammar) (last : Option (Run (Result Value))) :
    Answer × Session :=
  match s.inProgress with
  | [] => (.unknownName name, s)
  | rule :: outer =>
    match s.define (.strong rule) body with
    | .ok defined =>
      (.tied last, settle ⟨defined.table.insert name (.strong rule), defined.store, outer⟩)
    | .error e => (.fault e, s.giveUp)

/-- One action: its answer and the session after it. -/
def act (s : Session) : Action → Answer × Session
  | .command command => s.carryOut command
  | .beginRule forwarder => (.declared, s.beginRule forwarder)
  | .endRule name body => s.endRule name body none
  | .giveUp => (.dropped, s.giveUp)

/-- The session after several actions. -/
def acts (s : Session) (actions : List Action) : Session :=
  actions.foldl (fun s action => (s.act action).2) s

/-! ### Steps -/

mutual

/-- One step: its answer and the session after it. -/
def step (s : Session) : Step → Answer × Session
  | .command command => s.carryOut command
  | .caught attempted => s.step attempted
  | .tie name forwarder body build =>
    match (s.beginRule forwarder).build none build with
    | (.ok last, built) => built.endRule name body last
    | (.error e, built) => (.fault e, built.giveUp)

/-- The steps of a build, up to the first fault that is not caught: that fault, or else what the last
run came to; and the session after them. -/
def build (s : Session) (last : Option (Run (Result Value))) :
    List Step → Except Fault (Option (Run (Result Value))) × Session
  | [] => (.ok last, s)
  | first :: rest =>
    let (answer, after) := s.step first
    match first.escaping answer with
    | some e => (.error e, after)
    | none => after.build (answer.run? <|> last) rest

end

/-- Several steps: their answers and the session after them. A fault does not end them. -/
def steps (s : Session) : List Step → List Answer × Session
  | [] => ([], s)
  | first :: rest =>
    let (answer, s) := s.step first
    let (answers, s) := s.steps rest
    (answer :: answers, s)

end Session

end CommittedParsing
