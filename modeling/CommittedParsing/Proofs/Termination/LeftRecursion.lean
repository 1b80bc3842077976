import CommittedParsing.Proofs.Advancing
import Mathlib.Logic.Relation
import Mathlib.Data.Finset.Card

/-!
# Left recursion

What a grammar may run where it begins: its parts up to the first that advances, and the bodies of
the rules that it stands for. A rule left-reaches another if its body may come to it in this way. In
a system there are only finitely many rules, so where none left-reaches itself, nothing is run for
ever without an advance.

Main statements:
* `Enters.tied_or_mem` — a rule that is entered is tied by a grammar, or belongs to the system;
* `WellFormed.grounded` — in a well-formed system every way of running without an advance ends.
-/

namespace CommittedParsing

open Relation

/-! ## Parts to begin with -/

namespace Grammar

/-- The parts that may be run where a grammar begins. A later part is one of them as long as no part
before it has to advance; behind a second round of a chain stands what stood behind the first. -/
def BeginsWith (advances : Grammar → Prop) : Grammar → Grammar → Prop
  | map body _, part | filter body _ _, part | many body, part | many1 body, part
  | attempt body, part | optional body, part | not body _, part | label body _, part
  | position body, part | delayed body, part => part = body
  | bind first _ next, part => part = first ∨ ¬ advances first ∧ ∃ v, next v = .ok part
  | or first second, part => part = first ∨ part = second
  | choice _ alternatives, part => ∃ i, part = alternatives i
  | seq2 first second _, part => part = first ∨ ¬ advances first ∧ part = second
  | seq3 first second third _, part =>
    part = first ∨ ¬ advances first ∧ (part = second ∨ ¬ advances second ∧ part = third)
  | sepBy first second, part | chainLeft first second _, part | chainRight first second _, part =>
    part = first ∨ ¬ advances first ∧ part = second
  | satisfy _ _, _ | text _, _ | endOfInput, _ | pure _, _ | custom _, _ | call _, _
  | recursive _ _, _ | reference _, _ => False

/-- What a grammar begins with is one of its parts. -/
theorem BeginsWith.mem_parts {advances : Grammar → Prop} {g part : Grammar}
    (h : g.BeginsWith advances part) : part ∈ g.parts := by
  cases g <;> simp only [BeginsWith] at h <;> simp only [parts, children] <;> grind

/-- Each round of a chain or of a list has a part that advances. -/
def RoundsAdvance (advances : Grammar → Prop) : Grammar → Prop
  | sepBy first second | chainLeft first second _ | chainRight first second _ =>
    advances first ∨ advances second
  | _ => True

/-- The grammar refers to a rule. -/
def Refers : Grammar → Prop
  | reference _ | call _ => True
  | _ => False

end Grammar

/-! ## Sites that are run -/

/-- What may be run where a site begins, before anything has advanced. -/
inductive Site.Begins (s : System) : Site → Site → Prop where
  | part {names : Names} {g part : Grammar} :
      g.BeginsWith (Advances s names) part → Begins s ⟨names, g⟩ ⟨names, part⟩
  | rule {site inside : Site} {rule : RuleName} : Enters s site rule inside → Begins s site inside

/-- What may be run within a site, anywhere. -/
inductive Site.Runs (s : System) : Site → Site → Prop where
  | part {names : Names} {g part : Grammar} : part ∈ g.parts → Runs s ⟨names, g⟩ ⟨names, part⟩
  | rule {site inside : Site} {rule : RuleName} : Enters s site rule inside → Runs s site inside

/-- A site may come to a rule before anything has advanced, by itself or through other rules. -/
def Site.LeftReaches (s : System) (site : Site) (rule : RuleName) : Prop :=
  ∃ via inside, ReflTransGen (Site.Begins s) site via ∧ Enters s via rule inside

/-- A parse of a definition may come to a site. -/
def Definition.Comes (s : System) (d : Definition) (site : Site) : Prop :=
  ReflTransGen (Site.Runs s) ⟨Names.ofBindings d.bindings, d.body⟩ site

/-- Wherever a parse may come to, what is referred to is defined, every round of a chain or a list has
a part that advances, and no rule left-reaches itself. -/
structure WellFormed (s : System) (d : Definition) : Prop where
  defined : ∀ site, d.Comes s site → site.grammar.Refers → ∃ rule inside, Enters s site rule inside
  rounds_advance : ∀ site, d.Comes s site → site.grammar.RoundsAdvance (Advances s site.names)
  not_left_recursive : ∀ site rule inside, d.Comes s site → Enters s site rule inside →
    ¬ inside.LeftReaches s rule

variable {s : System} {d : Definition} {site inside : Site} {rule : RuleName}

namespace Site

/-- A rule that is entered on the spot is reached on the left. -/
theorem LeftReaches.of_enters (h : Enters s site rule inside) : site.LeftReaches s rule :=
  ⟨site, inside, .refl, h⟩

/-- What a part in front reaches is reached. -/
theorem LeftReaches.of_begins (hbegins : Begins s site inside) (h : inside.LeftReaches s rule) :
    site.LeftReaches s rule := by
  rcases h with ⟨via, body, hpath, henters⟩
  exact ⟨via, body, .head hbegins hpath, henters⟩

theorem Begins.runs (h : Begins s site inside) : Runs s site inside := by
  cases h with
  | part hpart => exact .part hpart.mem_parts
  | rule henters => exact .rule henters

end Site

/-! ## Rules that can be entered -/

/-- A tied rule is in scope: its names are the names of the site from some name on outwards. -/
def Site.Ties (site : Site) (name : String) (body : Grammar) (outer : Names) : Prop :=
  (name, Referent.tied body) :: outer <:+ site.names

/-- The rules of a system that are not tied by a grammar. -/
def System.ruleNames (s : System) : List RuleName :=
  (List.range s.store.size).map .stored ++ s.library.map fun entry => .named entry.1

theorem Names.not_tied_ofBindings {bindings : List (String × Handle)} {name : String}
    {body : Grammar} {outer : Names} :
    ¬ (name, Referent.tied body) :: outer <:+ Names.ofBindings bindings := by
  intro hsuffix
  have hmem : (name, Referent.tied body) ∈ Names.ofBindings bindings :=
    hsuffix.subset List.mem_cons_self
  simp [Names.ofBindings] at hmem

/-- Either a tied rule is entered, which the grammar ties or which is in scope, or another rule of
the system, and then no tied rule comes into scope. -/
theorem Enters.tied_or_mem (h : Enters s site rule inside) :
    (∃ name body outer, rule = .tied ((name, .tied body) :: outer) ∧
      inside = ⟨(name, .tied body) :: outer, body⟩ ∧
      (site = ⟨outer, .recursive name body⟩ ∨ site.Ties name body outer)) ∨
    rule ∈ s.ruleNames ∧
      ∀ name body outer, inside.Ties name body outer → site.Ties name body outer := by
  -- a name is looked up through the names before it, which is what the induction goes over
  induction h with
  | @recursive names name body => exact .inl ⟨name, body, names, rfl, rfl, .inl rfl⟩
  | @reference_tied names name body =>
    exact .inl ⟨name, body, names, rfl, rfl, .inr (List.suffix_refl _)⟩
  | @reference_stored names name handle d hresolve =>
    right
    have hdefined := Store.resolve_eq_ok_iff.1 hresolve
    have hlt : handle.rule < s.store.size :=
      Store.lt_size_of_state_ne_freed (by simp [hdefined])
    constructor
    · simp [System.ruleNames, hlt]
    · intro name body outer hties
      exact absurd hties Names.not_tied_ofBindings
  | @reference_outer names bound name referent rule inside hname henters ih =>
    have hweaken : ∀ name body outer, Site.Ties ⟨names, .reference name⟩ name body outer →
        Site.Ties ⟨(bound, referent) :: names, .reference name⟩ name body outer :=
      fun _ _ _ hties => hties.trans (List.suffix_cons _ _)
    rcases ih with ⟨name', body, outer, hrule, hinside, hsite | hties⟩ | ⟨hmem, hties⟩
    · cases hsite
    · exact .inl ⟨name', body, outer, hrule, hinside, .inr (hties.trans (List.suffix_cons _ _))⟩
    · refine .inr ⟨hmem, ?_⟩
      intro name' body outer hinside
      exact (hties name' body outer hinside).trans (List.suffix_cons _ _)
  | @call names name body hlookup =>
    right
    constructor
    · rcases List.lookup_eq_some_iff.1 hlookup with ⟨before, after, hlibrary, _⟩
      simp [System.ruleNames, hlibrary]
    · exact fun _ _ _ hties => hties

/-- A tied rule that is in scope somewhere has been entered on the way there. -/
theorem Definition.Comes.entered (hcomes : d.Comes s site) {name : String} {body : Grammar}
    {outer : Names} (hties : site.Ties name body outer) :
    ∃ via, d.Comes s via ∧
      Enters s via (.tied ((name, .tied body) :: outer)) ⟨(name, .tied body) :: outer, body⟩ := by
  -- along the way of the parse, back to where the recursive name was bound
  induction hcomes with
  | refl => exact absurd hties Names.not_tied_ofBindings
  | @tail site inside hsite hruns ih =>
    cases hruns with
    | part _ => exact ih hties
    | rule henters =>
      rcases henters.tied_or_mem with ⟨name', body', outer', rfl, rfl, hfrom⟩ | ⟨_, hinside⟩
      · rcases List.suffix_cons_iff.1 hties with heq | houter
        · cases heq
          exact ⟨site, hsite, henters⟩
        · rcases hfrom with rfl | hscope
          · exact ih houter
          · exact ih (houter.trans ((List.suffix_cons _ _).trans hscope))
      · exact ih (hinside name body outer hties)

/-! ## No endless way without an advance -/

/-- Where the site begins, every way of running on without an advance ends. -/
def Site.IsGrounded (s : System) (site : Site) : Prop :=
  Acc (fun inside site => Site.Begins s site inside) site

namespace WellFormed

/-- By the rules of the system that can still be reached, and then by the parts of the grammar: a
rule that has been entered is not reached again, and a tied rule in scope is grounded if it is. -/
theorem grounded_of_rules (h : WellFormed s d) (rules : Finset RuleName) (g : Grammar) :
    ∀ names, d.Comes s ⟨names, g⟩ →
      (∀ rule ∈ s.ruleNames, Site.LeftReaches s ⟨names, g⟩ rule → rule ∈ rules) →
      (∀ name body outer, Site.Ties ⟨names, g⟩ name body outer →
        Site.LeftReaches s ⟨names, g⟩ (.tied ((name, .tied body) :: outer)) →
        Site.IsGrounded s ⟨(name, .tied body) :: outer, body⟩) →
      Site.IsGrounded s ⟨names, g⟩ := by
  classical
  induction rules using Finset.strongInduction generalizing g with
  | H rules ihRules =>
    induction g using Grammar.children_induction with
    | h g ihParts =>
      intro names hcomes hrules hties
      constructor
      intro inside hbegins
      -- what is reached from the next site is reached from here, so the conditions are handed on
      have hnext : d.Comes s inside := hcomes.tail hbegins.runs
      have hreaches : ∀ rule, inside.LeftReaches s rule → Site.LeftReaches s ⟨names, g⟩ rule :=
        fun rule hreach => hreach.of_begins hbegins
      cases hbegins with
      | part hpart =>
        refine ihParts _ (Grammar.children_of_parts hpart.mem_parts) names hnext ?_ ?_
        · exact fun rule hmem hreach => hrules rule hmem (hreaches rule hreach)
        · exact fun name body outer hscope hreach => hties name body outer hscope (hreaches _ hreach)
      | @rule _ _ rule henters =>
        -- from its body the rule is not reached again
        have hself := h.not_left_recursive _ _ _ hcomes henters
        rcases henters.tied_or_mem with ⟨name, body, outer, rfl, rfl, hsite | hscope⟩ | ⟨hmem, hinside⟩
        · cases hsite
          refine ihParts body (by simp) _ hnext ?_ ?_
          · exact fun rule hmem hreach => hrules rule hmem (hreaches rule hreach)
          · intro name' body' outer' hscope hreach
            rcases List.suffix_cons_iff.1 hscope with heq | houter
            · cases heq
              exact absurd hreach hself
            · exact hties name' body' outer' houter (hreaches _ hreach)
        · exact hties name body outer hscope (.of_enters henters)
        · -- so one rule less can be reached
          have hrule : rule ∈ rules := hrules rule hmem (.of_enters henters)
          refine ihRules (rules.erase rule) (Finset.erase_ssubset hrule) inside.grammar inside.names
            hnext ?_ ?_
          · intro rule' hmem' hreach
            have hne : rule' ≠ rule := by
              rintro rfl
              exact hself hreach
            exact Finset.mem_erase.2 ⟨hne, hrules rule' hmem' (hreaches rule' hreach)⟩
          · intro name body outer hscope hreach
            exact hties name body outer (hinside name body outer hscope) (hreaches _ hreach)

/-- The bodies of the tied rules in scope are grounded, from the outermost to the innermost. -/
theorem grounded_of_ties (h : WellFormed s d) (names : Names) :
    (∀ name body outer, (name, Referent.tied body) :: outer <:+ names → ∃ via, d.Comes s via ∧
      Enters s via (.tied ((name, .tied body) :: outer)) ⟨(name, .tied body) :: outer, body⟩) →
    ∀ name body outer, (name, Referent.tied body) :: outer <:+ names →
      Site.IsGrounded s ⟨(name, .tied body) :: outer, body⟩ := by
  classical
  -- over the names, from the outermost: inside a recursive rule only outer ones are left
  induction names with
  | nil =>
    intro _ name body outer hsuffix
    simp at hsuffix
  | cons entry names ih =>
    intro hentered name body outer hsuffix
    have houter := ih fun name body outer hsuffix =>
      hentered name body outer (hsuffix.trans (List.suffix_cons _ _))
    rcases List.suffix_cons_iff.1 hsuffix with heq | hsuffix'
    · cases heq
      rcases hentered name body names (List.suffix_refl _) with ⟨via, hvia, henters⟩
      refine h.grounded_of_rules s.ruleNames.toFinset body _ (hvia.tail (.rule henters)) ?_ ?_
      · exact fun rule hmem _ => List.mem_toFinset.2 hmem
      · intro name' body' outer' hscope hreach
        rcases List.suffix_cons_iff.1 hscope with heq | houter'
        · cases heq
          exact absurd hreach (h.not_left_recursive _ _ _ hvia henters)
        · exact houter name' body' outer' houter'
    · exact houter name body outer hsuffix'

/-- In a well-formed system every way of running without an advance ends, wherever a parse comes to. -/
theorem grounded (h : WellFormed s d) (hcomes : d.Comes s site) : site.IsGrounded s := by
  classical
  refine h.grounded_of_rules s.ruleNames.toFinset site.grammar site.names hcomes ?_ ?_
  · exact fun rule hmem _ => List.mem_toFinset.2 hmem
  · intro name body outer hscope _
    exact h.grounded_of_ties site.names (fun _ _ _ hties => hcomes.entered hties) name body outer hscope

end WellFormed

end CommittedParsing
