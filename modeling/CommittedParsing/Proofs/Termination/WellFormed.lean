import CommittedParsing.Proofs.Fuel
import CommittedParsing.Proofs.Termination.Halting

/-!
# Termination

In a well-formed system every parse ends. It is a matter of two things, the first before the second:
the text that is left, and the rules and parts that a grammar may still begin with. What stands behind
something that advances has less text left; what a grammar begins with comes later on a way that ends.

Main statements:
* `WellFormed.halts` — with enough fuel, wherever a parse comes to, the grammar there ends with an
  outcome;
* `System.terminates` — every parse of a well-formed system ends, with one outcome for all larger
  fuels.
-/

namespace CommittedParsing

open CommittedParsing.Parser Run Outcome Filter

/-! ## Well-formed systems -/

/-- What holds everywhere in a system and in a definition holds everywhere in what a parse of the
definition comes to, and in the rules in scope there. -/
theorem Definition.Comes.everywhere {s : System} {d : Definition} {P : Grammar → Prop} {site : Site}
    (hs : s.Everywhere P) (hd : d.body.Everywhere P) (h : d.Comes s site) :
    site.names.Everywhere P ∧ site.grammar.Everywhere P := by
  have hstored : ∀ bindings : List (String × Handle), (Names.ofBindings bindings).Everywhere P := by
    intro bindings name body hmem
    simp [Names.ofBindings] at hmem
  have hrule : ∀ {site rule inside}, Enters s site rule inside →
      site.names.Everywhere P ∧ site.grammar.Everywhere P →
        inside.names.Everywhere P ∧ inside.grammar.Everywhere P := by
    intro site rule inside henters
    -- entering a rule brings its body, and for a recursive one its own name
    induction henters with
    | @recursive names name body =>
      rintro ⟨hnames, hg⟩
      have hbody : body.Everywhere P := hg.part (by simp)
      refine ⟨?_, hbody⟩
      intro bound body' hmem
      rcases List.mem_cons.1 hmem with heq | hmem
      · cases heq
        exact hbody
      · exact hnames bound body' hmem
    | @reference_tied names name body =>
      rintro ⟨hnames, -⟩
      exact ⟨hnames, hnames name body List.mem_cons_self⟩
    | reference_stored hresolve =>
      intro _
      exact ⟨hstored _, hs.rules _ _ (Store.resolve_eq_ok_iff.1 hresolve)⟩
    | reference_outer _ _ ih =>
      rintro ⟨hnames, hg⟩
      exact ih ⟨hnames.cons, hg⟩
    | call hlookup =>
      rintro ⟨hnames, -⟩
      exact ⟨hnames, hs.library _ _ hlookup⟩
  -- along the way of the parse: a part of the grammar, or a rule that it enters
  induction h with
  | refl => exact ⟨hstored _, hd⟩
  | tail _ hruns ih =>
    cases hruns with
    | part hpart => exact ⟨ih.1, ih.2.part (Grammar.children_of_parts hpart)⟩
    | rule henters => exact hrule henters ih

section WellFormed

variable {s : System} {d : Definition} {I : Value → Prop}

/-- By the length of the text that is left, and then by what the site may begin with: with enough
fuel, every site that a parse comes to ends with an outcome. -/
theorem WellFormed.halts (h : WellFormed s d) (hI : Value.Invariant I)
    (hs : s.Everywhere (Grammar.Keeps I)) (hd : d.body.Everywhere (Grammar.Keeps I))
    (length : Nat) : ∀ c : Cursor, c.rest.length = length → ∀ site, d.Comes s site →
      ∀ᶠ k in atTop, site.Halts s I c k := by
  have hcombined : ∀ g : Grammar, g.Keeps I → g.IsCombined := fun _ => Grammar.Keeps.isCombined
  induction length using Nat.strong_induction_on with
  | _ length ihLength =>
    intro c hlength site hcomes
    induction h.grounded hcomes with
    | intro site _ ihBegins =>
      rcases hcomes.everywhere hs hd with ⟨hnames, hg⟩
      have hreturns : ∀ᶠ k in atTop, site.Returns s I c k := by
        refine Grammar.eventually_returns hI hg.here (h.rounds_advance site hcomes) ?_
          (h.defined site hcomes) ?_
        · intro A part hmem hbegins
          have hnext : d.Comes s ⟨site.names, part⟩ := hcomes.tail (.part hmem)
          -- at the cursor itself the site comes later on the way, behind it less text is left
          refine Site.eventually_haltsAfter ?_ ?_
          · exact fun hA => ihBegins _ (.part (hbegins hA)) hnext
          · intro cs middle hread hcs
            have hshorter := hread.length_eq
            have hpos := List.length_pos_of_ne_nil hcs
            exact ihLength middle.rest.length (by omega) middle rfl _ hnext
        · intro rule inside henters
          exact ihBegins inside (.rule henters) (hcomes.tail (.rule henters))
      filter_upwards [hreturns] with k hk
      refine hk.halts (hs.imp hcombined) ?_ (hg.imp hcombined)
      exact fun name body hmem => (hnames name body hmem).imp hcombined

/-- In a well-formed system whose functions come to results, every parse from every cursor ends with an
outcome, and with the same one however much fuel there is beyond what it takes. -/
theorem System.terminates (h : WellFormed s d) (hI : Value.Invariant I)
    (hs : s.Everywhere (Grammar.Keeps I)) (hd : d.body.Everywhere (Grammar.Keeps I)) (c : Cursor) :
    ∃ start outcome, ∀ n ≥ start, (s.parser d n c).ending = .value outcome := by
  have hhalts : ∀ᶠ k in atTop, Site.Halts s I ⟨Names.ofBindings d.bindings, d.body⟩ c k :=
    h.halts hI hs hd c.rest.length c rfl _ .refl
  rcases eventually_atTop.1 hhalts with ⟨start, hstart⟩
  have hends := hstart start (Nat.le_refl _) (.whole s d start)
  rcases hends.exists_value with ⟨outcome, houtcome, -⟩
  refine ⟨start, outcome, ?_⟩
  intro n hn
  have hvalue : (s.parser d start c).ending = .value outcome := houtcome
  have hended : (s.parser d start c).ending ≠ .outOfFuel := by
    rw [hvalue]
    simp
  rw [System.parser_of_ended hn hended]
  exact hvalue

end WellFormed

/-! ## Brackets -/

namespace Brackets

/-- A list in brackets. -/
def list : Grammar :=
  .seq3 (.text "(") (.sepBy (.reference "brackets") (.text ",")) (.text ")") fun _ v _ => v

/-- Any number of lists, in each of which there are such texts again: repetitions within a list within
a repetition, all of which may be empty. -/
def body : Grammar := .many (.optional list)

/-- The rule of brackets. -/
def system : System := ⟨⟨[.defined ⟨body, [("brackets", .strong 0)]⟩]⟩, []⟩

/-- The number of bytes that brackets take. -/
def size : Grammar :=
  .map (.position (.reference "brackets")) fun v =>
    v.secondOfPair.spanLength.map Value.asNumber

/-- No function in either grammar faults on values whose spans are in order. -/
theorem everywhere : system.Everywhere (Grammar.Keeps Value.SpanInOrder) ∧
    size.Everywhere (Grammar.Keeps Value.SpanInOrder) := by
  have htext : ∀ text, (Grammar.text text).Everywhere (Grammar.Keeps Value.SpanInOrder) :=
    fun text => .intro trivial (by simp)
  have hreference : (Grammar.reference "brackets").Everywhere (Grammar.Keeps Value.SpanInOrder) :=
    .intro trivial (by simp)
  have hitems : (Grammar.sepBy (.reference "brackets") (.text ",")).Everywhere
      (Grammar.Keeps Value.SpanInOrder) :=
    .intro trivial (by simp [hreference, htext])
  have hlist : list.Everywhere (Grammar.Keeps Value.SpanInOrder) :=
    .intro (fun _ v _ _ hv _ => ⟨v, rfl, hv⟩) (by simp [list, htext, hitems])
  have hoptional : (Grammar.optional list).Everywhere (Grammar.Keeps Value.SpanInOrder) :=
    .intro trivial (by simpa using hlist)
  have hbody : body.Everywhere (Grammar.Keeps Value.SpanInOrder) :=
    .intro trivial (by simpa [body] using hoptional)
  have hposition : (Grammar.position (.reference "brackets")).Everywhere
      (Grammar.Keeps Value.SpanInOrder) :=
    .intro trivial (by simpa using hreference)
  constructor
  · exact System.Each.of_single hbody _
  · exact .intro (fun v hv => hv.length) (by simpa [size] using hposition)

/-- The names, which are the same everywhere. -/
def names : Names := [("brackets", .stored (.strong 0))]

/-- All that a parse comes to. -/
def grammars : List Grammar :=
  [size, .position (.reference "brackets"), .reference "brackets", body, .optional list, list,
    .text "(", .sepBy (.reference "brackets") (.text ","), .text ",", .text ")"]

/-- The only site that enters a rule is the reference to the brackets. -/
theorem eq_of_enters {site inside : Site} {rule : RuleName} (hnames : site.names = names)
    (hg : site.grammar ∈ grammars) (h : Enters system site rule inside) :
    site.grammar = .reference "brackets" ∧ rule = .stored 0 ∧ inside = ⟨names, body⟩ := by
  cases h with
  | recursive => simp [grammars, size, body, list] at hg
  | call => simp [grammars, size, body, list] at hg
  | reference_tied => simp [names] at hnames
  | reference_stored hresolve =>
    cases hnames
    cases hresolve
    exact ⟨rfl, rfl, rfl⟩
  | reference_outer hname _ =>
    cases hnames
    simp [grammars, size, body, list] at hg
    exact absurd hg.symm hname

/-- Every site that may be come to is one of those listed. -/
theorem comes {site : Site} (h : Definition.Comes system ⟨size, [("brackets", .strong 0)]⟩ site) :
    site.names = names ∧ site.grammar ∈ grammars := by
  have hclosed : ∀ g ∈ grammars, ∀ part ∈ g.parts, part ∈ grammars := by
    simp [grammars, size, body, list]
  induction h with
  | refl => exact ⟨rfl, List.mem_cons_self⟩
  | tail _ hruns ih =>
    rcases ih with ⟨hnames, hg⟩
    cases hruns with
    | part hpart => exact ⟨hnames, hclosed _ hg _ hpart⟩
    | rule henters =>
      rcases eq_of_enters hnames hg henters with ⟨-, -, rfl⟩
      exact ⟨rfl, by simp [grammars]⟩

/-- Up to the first bracket, which advances, the rule does not come to a reference. -/
theorem not_leftReaches {rule : RuleName} : ¬ Site.LeftReaches system ⟨names, body⟩ rule := by
  -- all that the rule may begin with
  let before : List Grammar := [body, .optional list, list, .text "("]
  have hbracket : Advances system names (.text "(") := .text (by simp)
  have hclosed : ∀ g ∈ before, ∀ part, g.BeginsWith (Advances system names) part →
      part ∈ before := by
    simp [before, body, list, Grammar.BeginsWith, hbracket]
  have hmem : ∀ g ∈ before, g ∈ grammars ∧ g ≠ .reference "brackets" := by
    simp [before, grammars, body, list]
  have hbefore : ∀ via, Relation.ReflTransGen (Site.Begins system) ⟨names, body⟩ via →
      via.names = names ∧ via.grammar ∈ before := by
    intro via hpath
    induction hpath with
    | refl => exact ⟨rfl, List.mem_cons_self⟩
    | tail _ hbegins ih =>
      rcases ih with ⟨hnames, hg⟩
      cases hbegins with
      | part hpart =>
        cases hnames
        exact ⟨rfl, hclosed _ hg _ hpart⟩
      | rule henters =>
        rcases hmem _ hg with ⟨hall, hne⟩
        exact absurd (eq_of_enters hnames hall henters).1 hne
  rintro ⟨via, inside, hpath, henters⟩
  rcases hbefore via hpath with ⟨hnames, hg⟩
  rcases hmem _ hg with ⟨hall, hne⟩
  exact hne (eq_of_enters hnames hall henters).1

/-- The brackets are not reached on the left of themselves, and every round of a list in them reads a
comma. -/
theorem wellFormed : WellFormed system ⟨size, [("brackets", .strong 0)]⟩ where
  defined site hcomes hrefers := by
    have hreference : ∀ g ∈ grammars, g.Refers → g = .reference "brackets" := by
      simp [grammars, size, body, list, Grammar.Refers]
    rcases site with ⟨_, g⟩
    rcases comes hcomes with ⟨rfl, hg⟩
    rw [show g = .reference "brackets" from hreference g hg hrefers]
    exact ⟨_, _, .reference_stored rfl⟩
  rounds_advance site hcomes := by
    have hcomma : Advances system names (.text ",") := .text (by simp)
    have hrounds : ∀ g ∈ grammars, g.RoundsAdvance (Advances system names) := by
      simp [grammars, size, body, list, Grammar.RoundsAdvance, hcomma]
    rcases comes hcomes with ⟨hnames, hg⟩
    rw [hnames]
    exact hrounds _ hg
  not_left_recursive site rule inside hcomes henters := by
    rcases comes hcomes with ⟨hnames, hg⟩
    rcases eq_of_enters hnames hg henters with ⟨-, -, rfl⟩
    exact not_leftReaches

/-- The parse of some brackets, of which the last is not closed, from within the text. -/
theorem size_ends :
    let d : Definition := ⟨size, [("brackets", .strong 0)]⟩
    let c := (Cursor.start (Source.ofString 0 "é((),())(")).next
    WellFormed system d ∧ Value.Invariant Value.SpanInOrder ∧
      system.Everywhere (Grammar.Keeps Value.SpanInOrder) ∧
      d.body.Everywhere (Grammar.Keeps Value.SpanInOrder) ∧
      ∃ start outcome, ∀ n ≥ start, (system.parser d n c).ending = .value outcome := by
  intro d c
  have hwellFormed : WellFormed system d := wellFormed
  have hI : Value.Invariant Value.SpanInOrder := Value.spanInOrder_invariant
  rcases everywhere with ⟨hs, hd⟩
  exact ⟨hwellFormed, hI, hs, hd, System.terminates hwellFormed hI hs hd c⟩

end Brackets

end CommittedParsing
