import CommittedParsing.Proofs.Termination.LeftRecursion
import Mathlib.Order.Filter.Finite

/-!
# Grammars that halt

A site halts at a cursor if, with enough fuel, its grammar ends there with an outcome. What stands
behind something that advances is run where less text is left, and a round of a loop that leaves the
cursor where it was is the last one, or does not occur. So a grammar ends if its parts halt at all
places behind the cursor, and at the cursor itself as far as it may begin with them.

The functions of a grammar have to come to a result on the values that they get. Which values these
are is told by an invariant that the functions themselves keep.

Main statements:
* `ensures_repeatFrom_finds`, `ensures_chain_finds` — the loops end by the text that is left;
* `Site.Returns.bind` — a binder ends if what it goes on with after the one value that it gets does;
* `Grammar.eventually_returns` — a grammar ends if its parts halt, one case for each construct.
-/

namespace CommittedParsing

open CommittedParsing.Parser Run Outcome Filter

/-! ## Functions that come to a result -/

/-- A condition on values that the combinators keep by themselves. -/
structure Value.Invariant (I : Value → Prop) : Prop where
  unit : I .unit
  char : ∀ ch, I (.char ch)
  string : ∀ text, I (.string text)
  list : ∀ items, (∀ v ∈ items, I v) → I (.list items)
  none : I .none
  some : ∀ v, I v → I (.some v)
  /-- No span of a parse is inverted. -/
  withSpan : ∀ v start stop, I v → start ≤ stop → I (.pair v (.span ⟨start, stop⟩))

/-- On values with the invariant the functions of the grammar come to a result, which has it again;
none of them is a function of the cursor. -/
def Grammar.Keeps (I : Value → Prop) : Grammar → Prop
  | pure v => I v
  | custom _ => False
  | map _ change => ∀ v, I v → ∃ w, change v = .ok w ∧ I w
  | filter _ accepts _ => ∀ v, I v → ∃ accepted, accepts v = .ok accepted
  | bind _ _ next => ∀ v, I v → ∃ g, next v = .ok g
  | seq2 _ _ combine => ∀ v w, I v → I w → ∃ result, combine v w = .ok result ∧ I result
  | seq3 _ _ _ combine => ∀ u v w, I u → I v → I w → ∃ result, combine u v w = .ok result ∧ I result
  | chainLeft _ _ fold | chainRight _ _ fold =>
    ∀ operator left right, I operator → I left → I right →
      ∃ result, fold operator left right = .ok result ∧ I result
  | _ => True

/-- The span that comes with the value, if there is one, is not inverted. -/
def Value.SpanInOrder (v : Value) : Prop :=
  ∀ span, v.secondOfPair = .span span → span.start ≤ span.stop

theorem Value.spanInOrder_invariant : Value.Invariant Value.SpanInOrder where
  unit := nofun
  char _ := nofun
  string _ := nofun
  list _ _ := nofun
  none := nofun
  some _ _ := nofun
  withSpan v start stop _ hle := by
    intro span heq
    cases heq
    exact hle

/-- So its length can be asked for. -/
theorem Value.SpanInOrder.length {v : Value} (h : v.SpanInOrder) :
    ∃ w, v.secondOfPair.spanLength.map Value.asNumber = .ok w ∧ w.SpanInOrder := by
  unfold Value.spanLength
  split
  next span heq =>
    have hlength : span.length = .ok (span.stop - span.start) :=
      Span.length_eq_ok_iff.2 (Nat.add_sub_cancel' (h span heq))
    rw [hlength]
    exact ⟨_, rfl, nofun⟩
  next => exact ⟨_, rfl, nofun⟩

theorem Grammar.Keeps.isCombined {I : Value → Prop} {g : Grammar} (h : g.Keeps I) :
    g.IsCombined := by
  cases g with
  | custom parse => exact h
  | _ => exact trivial

/-- From the last pair on, each operator takes an operand and what is to the right of it. -/
theorem foldRightChecked_keeps {I : Value → Prop} {fold : Value → Value → Value → Except Fault Value}
    (hfold : ∀ operator left right, I operator → I left → I right →
      ∃ result, fold operator left right = .ok result ∧ I result)
    {first : Value} {pairs : List (Value × Value)} (hfirst : I first)
    (hpairs : ∀ pair ∈ pairs, I pair.1 ∧ I pair.2) :
    ∃ result, foldRightChecked fold first pairs = .ok result ∧ I result := by
  induction pairs generalizing first with
  | nil => exact ⟨first, foldRightChecked_nil fold first, hfirst⟩
  | cons pair pairs ih =>
    have hpair := hpairs pair List.mem_cons_self
    have hlater : ∀ later ∈ pairs, I later.1 ∧ I later.2 :=
      fun later hmem => hpairs later (List.mem_cons_of_mem _ hmem)
    rcases ih hpair.2 hlater with ⟨right, hright, hkept⟩
    rcases hfold _ _ _ hpair.1 hfirst hkept with ⟨result, hresult, hI⟩
    refine ⟨result, ?_, hI⟩
    rw [foldRightChecked_cons, hright]
    exact hresult

/-! ## Loops -/

section Loops

variable {α β σ : Type} {I : α → Prop} {J : β → Prop} {p : Parser α} {q : Parser β} {n : Nat}
  {c : Cursor}

/-- The condition on outcomes: a success has a value with the invariant, and has read on from the
cursor, by at least a character if the parser advances. -/
def Outcome.Finds (I : α → Prop) (advances : Prop) (c : Cursor) : Outcome α → Prop :=
  Meets (fun a rest => I a ∧ ∃ cs, c.Reads cs rest ∧ (advances → cs ≠ [])) fun _ => True

/-- A round that moves the cursor leaves less text, and one that does not is the last. -/
theorem ensures_repeatFrom_finds {A : Prop}
    (hp : ∀ cs middle, c.Reads cs middle → (p n middle).Ensures noAbort (Finds I A middle))
    (hn : c.rest.length < n) {past : List α} (hpast : ∀ a ∈ past, I a) :
    (repeatFrom p past n c).Ensures noAbort
      (Meets (fun items _ => ∀ a ∈ items, I a) fun _ => True) := by
  -- the invariant: there are more rounds to go than characters are left
  refine ensures_repeatFrom (I := fun k past middle =>
    (∀ a ∈ past, I a) ∧ (∃ cs, c.Reads cs middle) ∧ middle.rest.length < k) ?_ ?_
    ⟨hpast, ⟨[], .refl c⟩, hn⟩
  · rintro past middle ⟨-, -, hlength⟩
    exact absurd hlength (Nat.not_lt_zero _)
  · rintro k past middle ⟨hpast, ⟨cs, hread⟩, hlength⟩
    refine (hp cs middle hread).mono ?_ ?_
    · rintro a rest ⟨ha, ds, hread', -⟩
      have hvalues : ∀ b ∈ a :: past, I b := by
        simpa [ha] using hpast
      constructor
      · intro _ b hb
        exact hvalues b (List.mem_reverse.1 hb)
      · intro hmoved
        have hds : ds ≠ [] := by
          rintro rfl
          exact hmoved (by simp [hread'.position_eq, Text.byteLength])
        have hshorter := hread'.length_eq
        have hpos := List.length_pos_of_ne_nil hds
        exact ⟨hvalues, ⟨_, hread.trans hread'⟩, by omega⟩
    · exact fun _ _ => ⟨fun _ => trivial, fun _ b hb => hpast b (List.mem_reverse.1 hb)⟩

section Chains

/-! What is made of the operands has a condition of its own, which taking in a pair keeps. -/

variable {S : σ → Prop} {start : α → σ} {take : σ → β → α → Except Fault σ}
  (hstart : ∀ a, I a → S (start a))
  (htake : ∀ s b a, S s → J b → I a → ∃ t, take s b a = .ok t ∧ S t)

include htake in
/-- Every round of a chain advances. -/
theorem ensures_chainFrom_finds {A B : Prop} (hadvances : A ∨ B)
    (hq : ∀ cs middle, c.Reads cs middle → (q n middle).Ensures noAbort (Finds J B middle))
    (hp : ∀ cs middle, c.Reads cs middle → (p n middle).Ensures noAbort (Finds I A middle))
    (hn : c.rest.length < n) {s : σ} (hs : S s) :
    (chainFrom q p take s n c).Ensures noAbort (Meets (fun s _ => S s) fun _ => True) := by
  refine ensures_chainFrom (I := fun k s middle =>
    S s ∧ (∃ cs, c.Reads cs middle) ∧ middle.rest.length < k) ?_ ?_ ⟨hs, ⟨[], .refl c⟩, hn⟩
  · rintro s middle ⟨-, -, hlength⟩
    exact absurd hlength (Nat.not_lt_zero _)
  · rintro k s middle ⟨hs, ⟨cs, hread⟩, hlength⟩
    refine (hq cs middle hread).mono ?_ ?_
    · rintro b afterOperator ⟨hb, ds, hread', hds⟩
      have hoperator := hread.trans hread'
      refine (hp _ afterOperator hoperator).mono ?_ fun _ _ => trivial
      rintro a rest ⟨ha, es, hread'', hes⟩
      -- whichever of the two it is that advances, the round has read a character
      have hround : 0 < ds.length + es.length := by
        rcases hadvances with hA | hB
        · have := List.length_pos_of_ne_nil (hes hA)
          omega
        · have := List.length_pos_of_ne_nil (hds hB)
          omega
      have hshorter := hread'.length_eq
      have hshorter' := hread''.length_eq
      rcases htake s b a hs hb ha with ⟨t, ht, hkept⟩
      rw [ht]
      exact ⟨hkept, ⟨_, hoperator.trans hread''⟩, by omega⟩
    · exact fun _ _ => ⟨fun _ => trivial, fun _ => hs⟩

include hstart htake in
/-- A chain halts if an operand and an operator together advance: each round leaves fewer characters. -/
theorem ensures_chain_finds {A B : Prop} (hadvances : A ∨ B)
    (hp : ∀ cs middle, c.Reads cs middle → (p n middle).Ensures noAbort (Finds I A middle))
    (hq : ∀ cs middle, c.Reads cs middle → (A → cs ≠ []) →
      (q n middle).Ensures noAbort (Finds J B middle))
    (hn : c.rest.length < n) :
    (chain p q start take n c).Ensures noAbort (Meets (fun s _ => S s) fun _ => True) := by
  refine ensures_chain (hp [] c (.refl c)) (fun _ _ => trivial) ?_
  rintro a afterFirst ⟨ha, cs, hread, hcs⟩
  have hlength := hread.length_eq
  refine ensures_chainFrom_finds htake hadvances ?_ ?_ (by omega) (hstart a ha)
  · intro ds middle hread'
    refine hq _ middle (hread.trans hread') ?_
    intro hA
    simp [hcs hA]
  · exact fun ds middle hread' => hp _ middle (hread.trans hread')

end Chains

end Loops

/-! ## Sites that halt -/

/-- With every supply of at least `k`, the grammar of the site ends with an outcome, and its value has
the invariant. -/
def Site.Returns (s : System) (I : Value → Prop) (site : Site) (c : Cursor) (k : Nat) : Prop :=
  site.grammar.EnsuresWith s site.names c noAbort (Meets (fun v _ => I v) fun _ => True) k

/-- The same, together with what is known of the cursor after a success. -/
def Site.Halts (s : System) (I : Value → Prop) (site : Site) (c : Cursor) (k : Nat) : Prop :=
  site.grammar.EnsuresWith s site.names c noAbort
    (Finds I (Advances s site.names site.grammar) c) k

/-- The site halts wherever it is come to after a text; not where it begins, if something before it
has to advance. -/
def Site.HaltsAfter (s : System) (I : Value → Prop) (advances : Prop) (site : Site) (c : Cursor)
    (k : Nat) : Prop :=
  ∀ cs middle, c.Reads cs middle → (advances → cs ≠ []) → site.Halts s I middle k

section Halting

variable {s : System} {I : Value → Prop} {site : Site} {names : Names} {c : Cursor} {k : Nat}

theorem Site.Halts.returns (h : site.Halts s I c k) : site.Returns s I c k := by
  intro supply
  exact (h supply).mono (fun _ _ hv => hv.1) fun _ _ => trivial

/-- If nothing has to advance before, the place where the site begins is one that it is come to. -/
theorem Site.HaltsAfter.here (h : site.HaltsAfter s I False c k) : site.Halts s I c k :=
  h [] c (.refl c) False.elim

/-- The condition on the value and the one on the cursor hold together. -/
theorem Site.Returns.halts (hs : s.Everywhere Grammar.IsCombined)
    (hnames : site.names.Everywhere Grammar.IsCombined)
    (hg : site.grammar.Everywhere Grammar.IsCombined) (h : site.Returns s I c k) :
    site.Halts s I c k := by
  intro supply
  have hreturns := h supply
  have hreads := supply.reads_on hs hnames hg c
  revert hreturns hreads
  generalize supply.run site.grammar c = r
  rcases r with ⟨records, ⟨v, rest⟩ | e⟩
  · exact fun hv hread => ⟨hv, hread⟩
  · exact fun _ _ => trivial
  all_goals exact fun hnever _ => hnever

/-- There are only finitely many places behind a cursor. -/
theorem Site.eventually_haltsAfter {advances : Prop}
    (hhere : ¬ advances → ∀ᶠ k in atTop, site.Halts s I c k)
    (hlater : ∀ cs middle, c.Reads cs middle → cs ≠ [] → ∀ᶠ k in atTop, site.Halts s I middle k) :
    ∀ᶠ k in atTop, site.HaltsAfter s I advances c k := by
  -- a place behind the cursor is told by the number of characters before it
  have hplaces : ∀ᶠ k in atTop, ∀ length ∈ {length | length ≤ c.rest.length},
      (advances → length ≠ 0) →
        site.Halts s I (c.skip (c.rest.take length) (c.rest.drop length)) k := by
    refine (eventually_all_finite (Set.finite_le_nat _)).2 ?_
    intro length hlength
    by_cases hcome : advances → length ≠ 0
    · have hread : c.Reads (c.rest.take length) (c.skip (c.rest.take length) (c.rest.drop length)) :=
        .skip (List.take_append_drop length c.rest).symm
      refine Eventually.mono ?_ fun _ h _ => h
      by_cases hzero : length = 0
      · subst hzero
        exact hhere fun h => hcome h rfl
      · refine hlater _ _ hread ?_
        intro hnil
        have hlen : (c.rest.take length).length = 0 := by rw [hnil, List.length_nil]
        rw [List.length_take, Nat.min_eq_left hlength] at hlen
        exact hzero hlen
    · exact .of_forall fun _ h => absurd h hcome
  filter_upwards [hplaces] with k hk
  intro cs middle hread hcs
  have hlength : cs.length ≤ c.rest.length := by
    rw [hread.length_eq]
    exact Nat.le_add_right _ _
  have hmiddle : c.skip (c.rest.take cs.length) (c.rest.drop cs.length) = middle := by
    rw [hread.1, List.take_left, List.drop_left]
    exact hread.2.symm
  rw [← hmiddle]
  refine hk cs.length hlength ?_
  intro hadvances hzero
  exact hcs hadvances (List.length_eq_zero_iff.1 hzero)

end Halting

/-! ## The parts of a grammar -/

namespace Site.Returns

variable {s : System} {I : Value → Prop} {names : Names} {body first second third : Grammar}
  {c : Cursor} {k : Nat}

/-- A change that returns on every value of the invariant keeps the site returning. -/
theorem map {change : Value → Except Fault Value} (h : Halts s I ⟨names, body⟩ c k)
    (hchange : ∀ v, I v → ∃ w, change v = .ok w ∧ I w) :
    Returns s I ⟨names, .map body change⟩ c k := by
  intro supply
  refine (h supply).andThen ?_ fun _ _ => trivial
  rintro v rest ⟨hv, -⟩
  rcases hchange v hv with ⟨w, hw, hIw⟩
  rw [hw]
  exact hIw

theorem filter {accepts : Value → Except Fault Bool} {description : String}
    (h : Halts s I ⟨names, body⟩ c k) (haccepts : ∀ v, I v → ∃ accepted, accepts v = .ok accepted) :
    Returns s I ⟨names, .filter body accepts description⟩ c k := by
  intro supply
  refine ensures_filterChecked (h.returns supply) ?_ trivial
  intro v _ hv
  rcases haccepts v hv with ⟨accepted, haccepted⟩
  rw [haccepted]
  exact trivial

/-- With every supply the first grammar ends with one outcome, so there is only one grammar that the binder
goes on with. -/
theorem bind {captured : List String} {next : Value → Except Fault Grammar}
    (h : Halts s I ⟨names, first⟩ c k) (hnext : ∀ v, I v → ∃ g, next v = .ok g)
    (hmade : ∀ v g, next v = .ok g →
      ∀ᶠ k in atTop, HaltsAfter s I (Advances s names first) ⟨names, g⟩ c k) :
    ∀ᶠ k in atTop, Returns s I ⟨names, .bind first captured next⟩ c k := by
  -- the value is the same for every supply, and so is the grammar that is made of it
  rcases Grammar.EnsuresWith.exists_outcome h with ⟨⟨v, rest⟩ | e, houtcome, hfirst⟩
  · rcases houtcome with ⟨hv, cs, hread, hcs⟩
    rcases hnext v hv with ⟨g, hg⟩
    filter_upwards [hmade v g hg, eventually_ge_atTop k] with k' hk' hle supply
    refine (hfirst.of_le hle supply).bind ?_
    rintro _ rfl
    have hrun : (Grammar.denoteMade supply.call (next v) supply.scope supply.fuel rest).Ensures noAbort
        (Meets (fun v _ => I v) fun _ => True) := by
      rw [hg]
      exact (Site.Halts.returns (hk' cs rest hread hcs) supply).prepend _
    exact hrun.mapFailure fun _ _ => trivial
  · filter_upwards [eventually_ge_atTop k] with k' hle supply
    refine (hfirst.of_le hle supply).bind ?_
    rintro _ rfl
    exact trivial

/-- A repetition returns if its body halts wherever a round may start. -/
theorem many (hI : Value.Invariant I) (h : HaltsAfter s I False ⟨names, body⟩ c k)
    (hk : c.rest.length < k) : Returns s I ⟨names, .many body⟩ c k := by
  intro supply
  have hrounds : c.rest.length < supply.fuel := Nat.lt_of_lt_of_le hk supply.enough
  have hbody : ∀ cs middle, c.Reads cs middle →
      (supply.run body middle).Ensures noAbort (Finds I (Advances s names body) middle) :=
    fun cs middle hread => h cs middle hread False.elim supply
  exact ensures_map (ensures_repeatFrom_finds hbody hrounds (by simp)) fun items _ => hI.list items

theorem many1 (hI : Value.Invariant I) (h : HaltsAfter s I False ⟨names, body⟩ c k)
    (hk : c.rest.length < k) : Returns s I ⟨names, .many1 body⟩ c k := by
  intro supply
  have hitems : (Parser.many1 (body.denote supply.call supply.scope) supply.fuel c).Ensures noAbort
      (Meets (fun items _ => ∀ v ∈ items, I v) fun _ => True) := by
    refine ensures_many1 (h.here supply) (fun _ _ => trivial) ?_ ?_
    · rintro v rest ⟨hv, -⟩ -
      simpa using hv
    · rintro v rest ⟨hv, cs, hread, -⟩ -
      have hlength := hread.length_eq
      have hrounds : c.rest.length < supply.fuel := Nat.lt_of_lt_of_le hk supply.enough
      have hbody : ∀ ds middle, rest.Reads ds middle →
          (supply.run body middle).Ensures noAbort (Finds I (Advances s names body) middle) :=
        fun ds middle hread' => h _ middle (hread.trans hread') False.elim supply
      exact ensures_repeatFrom_finds hbody (by omega) (by simpa using hv)
  exact ensures_map hitems fun items _ => hI.list items

/-- A choice returns if both of its alternatives halt here. -/
theorem or (h : Halts s I ⟨names, first⟩ c k) (h' : Halts s I ⟨names, second⟩ c k) :
    Returns s I ⟨names, .or first second⟩ c k := by
  intro supply
  refine ensures_or (h.returns supply) (fun _ _ _ => trivial) ?_
  intro e _ _
  exact h'.returns supply

theorem choice {count : Nat} {alternatives : Fin count → Grammar}
    (h : ∀ i, Halts s I ⟨names, alternatives i⟩ c k) :
    Returns s I ⟨names, .choice count alternatives⟩ c k := by
  intro supply
  have hall : ∀ p ∈ List.ofFn fun i => (alternatives i).denote supply.call supply.scope,
      (p supply.fuel c).Ensures noAbort (Meets (fun v _ => I v) fun _ => True) := by
    intro p hp
    rcases List.mem_ofFn.1 hp with ⟨i, rfl⟩
    exact (h i).returns supply
  exact ensures_choiceAfter (G := fun _ => True) hall (fun _ _ _ _ _ => trivial)
    (fun _ _ _ _ _ => trivial) (fun _ _ => trivial) trivial

theorem attempt (h : Halts s I ⟨names, body⟩ c k) : Returns s I ⟨names, .attempt body⟩ c k := by
  intro supply
  exact ensures_attempt (h.returns supply) fun _ _ => trivial

theorem label {description : String} (h : Halts s I ⟨names, body⟩ c k) :
    Returns s I ⟨names, .label body description⟩ c k := by
  intro supply
  exact ensures_label (h.returns supply) (fun _ _ _ => trivial) trivial

theorem delayed (h : Halts s I ⟨names, body⟩ c k) : Returns s I ⟨names, .delayed body⟩ c k := by
  intro supply
  exact (h.returns supply).prepend _

/-- A sequence returns if its second part halts where the first leaves off. -/
theorem seq2 {combine : Value → Value → Except Fault Value} (h : Halts s I ⟨names, first⟩ c k)
    (h' : HaltsAfter s I (Advances s names first) ⟨names, second⟩ c k)
    (hcombine : ∀ v w, I v → I w → ∃ result, combine v w = .ok result ∧ I result) :
    Returns s I ⟨names, .seq2 first second combine⟩ c k := by
  intro supply
  have hpair : (Parser.and (first.denote supply.call supply.scope)
      (second.denote supply.call supply.scope) supply.fuel c).Ensures noAbort
        (Meets (fun pair _ => I pair.1 ∧ I pair.2) fun _ => True) := by
    refine ensures_seq2 (h supply) (fun _ _ => trivial) ?_
    rintro v middle ⟨hv, cs, hread, hcs⟩
    refine (h' cs middle hread hcs supply).mono ?_ fun _ _ => trivial
    exact fun w _ hw => ⟨hv, hw.1⟩
  refine ensures_mapChecked hpair ?_
  rintro ⟨v, w⟩ _ ⟨hv, hw⟩
  rcases hcombine v w hv hw with ⟨result, hresult, hI⟩
  dsimp only
  rw [hresult]
  exact hI

/-- So does one of three, whose third part halts behind what the first two have read. -/
theorem seq3 {combine : Value → Value → Value → Except Fault Value} (h : Halts s I ⟨names, first⟩ c k)
    (h' : HaltsAfter s I (Advances s names first) ⟨names, second⟩ c k)
    (h'' : HaltsAfter s I (Advances s names first ∨ Advances s names second) ⟨names, third⟩ c k)
    (hcombine : ∀ u v w, I u → I v → I w → ∃ result, combine u v w = .ok result ∧ I result) :
    Returns s I ⟨names, .seq3 first second third combine⟩ c k := by
  intro supply
  have htriple : (Parser.seq3 (first.denote supply.call supply.scope)
      (second.denote supply.call supply.scope) (third.denote supply.call supply.scope)
      (fun a b d => (a, b, d)) supply.fuel c).Ensures noAbort
        (Meets (fun triple _ => I triple.1 ∧ I triple.2.1 ∧ I triple.2.2) fun _ => True) := by
    refine ensures_seq3 (h supply) (fun _ _ => trivial) ?_
    rintro u afterFirst ⟨hu, cs, hread, hcs⟩
    refine (h' cs afterFirst hread hcs supply).mono ?_ fun _ _ => trivial
    rintro v afterSecond ⟨hv, ds, hread', hds⟩
    -- the third part is shorter of text if one of the first two has read something
    have hboth : Advances s names first ∨ Advances s names second → cs ++ ds ≠ [] := by
      rintro (hfirst | hsecond)
      · simp [hcs hfirst]
      · simp [hds hsecond]
    refine (h'' _ afterSecond (hread.trans hread') hboth supply).mono ?_ fun _ _ => trivial
    exact fun w _ hw => ⟨hu, hv, hw.1⟩
  refine ensures_mapChecked htriple ?_
  rintro ⟨u, v, w⟩ _ ⟨hu, hv, hw⟩
  rcases hcombine u v w hu hv hw with ⟨result, hresult, hI⟩
  dsimp only
  rw [hresult]
  exact hI

theorem optional (hI : Value.Invariant I) (h : Halts s I ⟨names, body⟩ c k) :
    Returns s I ⟨names, .optional body⟩ c k := by
  intro supply
  have hvalue : (Parser.optional (body.denote supply.call supply.scope) supply.fuel c).Ensures
      noAbort (Meets (fun v _ => I (Value.ofOption v)) fun _ => True) :=
    ensures_optional (h.returns supply) (fun v _ hv => hI.some v hv) (fun _ _ _ => trivial) hI.none
  exact ensures_map hvalue fun _ _ hv => hv

theorem not (hI : Value.Invariant I) {description : String} (h : Halts s I ⟨names, body⟩ c k) :
    Returns s I ⟨names, .not body description⟩ c k := by
  intro supply
  have hvalue : (Parser.not description (body.denote supply.call supply.scope) supply.fuel
      c).Ensures noAbort (Meets (fun _ _ => True) fun _ => True) :=
    ensures_not (h.returns supply) trivial trivial
  exact ensures_map hvalue fun _ _ _ => hI.unit

theorem position (hI : Value.Invariant I) (h : Halts s I ⟨names, body⟩ c k) :
    Returns s I ⟨names, .position body⟩ c k := by
  intro supply
  have hvalue : (Parser.position (body.denote supply.call supply.scope) supply.fuel c).Ensures
      noAbort (Meets (fun result _ => I (Value.withSpan result)) fun _ => True) := by
    refine ensures_position (h supply) ?_
    rintro v rest ⟨hv, cs, hread, -⟩
    have hforward : c.position ≤ rest.position := by
      rw [hread.position_eq]
      exact Nat.le_add_right _ _
    exact hI.withSpan v _ _ hv hforward
  exact ensures_map hvalue fun _ _ hv => hv

section Chains

variable (hadvances : Advances s names first ∨ Advances s names second)
  (h : HaltsAfter s I False ⟨names, first⟩ c k)
  (h' : HaltsAfter s I (Advances s names first) ⟨names, second⟩ c k) (hk : c.rest.length < k)
include hadvances h h' hk

/-- The rule of the three kinds of chains. -/
theorem chain {σ : Type} {S : σ → Prop} {start : Value → σ}
    {take : σ → Value → Value → Except Fault σ} (hstart : ∀ v, I v → S (start v))
    (htake : ∀ s v w, S s → I v → I w → ∃ t, take s v w = .ok t ∧ S t) (supply : Supply s k names) :
    (Parser.chain (first.denote supply.call supply.scope) (second.denote supply.call supply.scope)
      start take supply.fuel c).Ensures noAbort (Meets (fun s _ => S s) fun _ => True) := by
  refine ensures_chain_finds hstart htake hadvances ?_ ?_ (Nat.lt_of_lt_of_le hk supply.enough)
  · exact fun cs middle hread => h cs middle hread False.elim supply
  · exact fun cs middle hread hcs => h' cs middle hread hcs supply

/-- Items with separators return as their first item and the rounds behind it do. -/
theorem sepBy (hI : Value.Invariant I) : Returns s I ⟨names, .sepBy first second⟩ c k := by
  intro supply
  have hread : (Parser.chain (first.denote supply.call supply.scope)
      (second.denote supply.call supply.scope) (fun item => [item]) Parser.takeItem supply.fuel
      c).Ensures noAbort (Meets (fun items _ => ∀ v ∈ items, I v) fun _ => True) := by
    refine chain hadvances h h' hk (by simp) ?_ supply
    exact fun items _ w hitems _ hw => ⟨w :: items, rfl, by simpa [hw] using hitems⟩
  refine ensures_map (ensures_map hread ?_) fun items _ => hI.list items
  exact fun items _ hitems v hv => hitems v (List.mem_reverse.1 hv)

theorem chainLeft {fold : Value → Value → Value → Except Fault Value}
    (hfold : ∀ operator left right, I operator → I left → I right →
      ∃ result, fold operator left right = .ok result ∧ I result) :
    Returns s I ⟨names, .chainLeft first second fold⟩ c k :=
  chain hadvances h h' hk (fun _ hv => hv) fun left operator right hleft hoperator hright =>
    hfold operator left right hoperator hleft hright

theorem chainRight {fold : Value → Value → Value → Except Fault Value}
    (hfold : ∀ operator left right, I operator → I left → I right →
      ∃ result, fold operator left right = .ok result ∧ I result) :
    Returns s I ⟨names, .chainRight first second fold⟩ c k := by
  intro supply
  have hread : (Parser.chain (first.denote supply.call supply.scope)
      (second.denote supply.call supply.scope) (fun v => (v, [])) Parser.takePair supply.fuel
      c).Ensures noAbort
        (Meets (fun read _ => I read.1 ∧ ∀ pair ∈ read.2, I pair.1 ∧ I pair.2) fun _ => True) := by
    refine chain hadvances h h' hk (by simp) ?_ supply
    exact fun read _ _ hread hv hw => ⟨_, rfl, hread.1, by simpa [hv, hw] using hread.2⟩
  have hoperands : (Parser.operands (first.denote supply.call supply.scope)
      (second.denote supply.call supply.scope) supply.fuel c).Ensures noAbort
        (Meets (fun read _ => I read.1 ∧ ∀ pair ∈ read.2, I pair.1 ∧ I pair.2) fun _ => True) :=
    ensures_map hread fun read _ hread => ⟨hread.1, by simpa using hread.2⟩
  refine ensures_mapChecked hoperands ?_
  rintro ⟨v, pairs⟩ _ ⟨hv, hpairs⟩
  rcases foldRightChecked_keeps hfold hv hpairs with ⟨result, hresult, hI⟩
  dsimp only
  rw [hresult]
  exact hI

end Chains

/-- A site that stands for a rule takes one unit more than the body of the rule. -/
theorem enters {site inside : Site} {rule : RuleName} (henters : Enters s site rule inside)
    (h : Halts s I inside c k) : Returns s I site c (k + 1) :=
  henters.ensures h.returns

end Site.Returns

/-- One step of the argument: a grammar ends with an outcome if its parts halt wherever they are come
to, as far as something before them has advanced or it begins with them, and if so does the rule that
it stands for. -/
theorem Grammar.eventually_returns {s : System} {I : Value → Prop} (hI : Value.Invariant I)
    {names : Names} {g : Grammar} {c : Cursor} (hkeeps : g.Keeps I)
    (hrounds : g.RoundsAdvance (Advances s names))
    (hpart : ∀ {A : Prop} {part : Grammar}, part ∈ g.parts →
      (¬ A → g.BeginsWith (Advances s names) part) →
        ∀ᶠ k in atTop, Site.HaltsAfter s I A ⟨names, part⟩ c k)
    (hdefined : g.Refers → ∃ rule inside, Enters s ⟨names, g⟩ rule inside)
    (hrule : ∀ rule inside, Enters s ⟨names, g⟩ rule inside →
      ∀ᶠ k in atTop, Site.Halts s I inside c k) :
    ∀ᶠ k in atTop, Site.Returns s I ⟨names, g⟩ c k := by
  -- what is enough for all parts is enough for the grammar; a loop needs a round for each character
  have hlong := eventually_gt_atTop c.rest.length
  cases g with
  | satisfy accepts description =>
    refine .of_forall fun k supply => ?_
    have hchar : (Parser.satisfy accepts description supply.fuel c).Ensures noAbort
        (Meets (fun _ _ => True) fun _ => True) :=
      ensures_satisfy (fun _ _ _ _ => trivial) trivial
    exact ensures_map hchar fun ch _ _ => hI.char ch
  | text expected =>
    refine .of_forall fun k supply => ?_
    have htext : (Parser.text expected supply.fuel c).Ensures noAbort
        (Meets (fun _ _ => True) fun _ => True) :=
      ensures_text (fun _ _ => trivial) trivial
    exact ensures_map htext fun text _ _ => hI.string text
  | endOfInput =>
    refine .of_forall fun k supply => ?_
    have hend : (Parser.endOfInput supply.fuel c).Ensures noAbort
        (Meets (fun _ _ => True) fun _ => True) :=
      ensures_endOfInput (fun _ => trivial) trivial
    exact ensures_map hend fun _ _ _ => hI.unit
  | pure v => exact .of_forall fun k supply => Ensures.of_succeed hkeeps
  | custom parse => exact hkeeps.elim
  | map body change =>
    filter_upwards [hpart (by simp) fun _ => rfl] with k hbody
    exact .map hbody.here hkeeps
  | filter body accepts description =>
    filter_upwards [hpart (by simp) fun _ => rfl] with k hbody
    exact .filter hbody.here hkeeps
  | bind first captured next =>
    have hfirst : ∀ᶠ k in atTop, Site.HaltsAfter s I False ⟨names, first⟩ c k :=
      hpart (by simp) fun _ => .inl rfl
    rcases hfirst.exists with ⟨k, hk⟩
    refine Site.Returns.bind hk.here hkeeps ?_
    intro v g hg
    exact hpart (.inr ⟨v, hg⟩) fun hA => .inr ⟨hA, v, hg⟩
  | many body =>
    filter_upwards [hpart (by simp) fun _ => rfl, hlong] with k hbody hk
    exact .many hI hbody hk
  | many1 body =>
    filter_upwards [hpart (by simp) fun _ => rfl, hlong] with k hbody hk
    exact .many1 hI hbody hk
  | or first second =>
    filter_upwards [hpart (by simp) fun _ => .inl rfl,
      hpart (by simp) fun _ => .inr rfl] with k hfirst hsecond
    exact .or hfirst.here hsecond.here
  | choice count alternatives =>
    have halternative : ∀ i, ∀ᶠ k in atTop, Site.HaltsAfter s I False ⟨names, alternatives i⟩ c k :=
      fun i => hpart (by simp) fun _ => ⟨i, rfl⟩
    filter_upwards [eventually_all.2 halternative] with k hall
    exact .choice fun i => (hall i).here
  | attempt body =>
    filter_upwards [hpart (by simp) fun _ => rfl] with k hbody
    exact .attempt hbody.here
  | seq2 first second combine =>
    filter_upwards [hpart (by simp) fun _ => .inl rfl,
      hpart (by simp) fun hA => .inr ⟨hA, rfl⟩] with k hfirst hsecond
    exact .seq2 hfirst.here hsecond hkeeps
  | seq3 first second third combine =>
    filter_upwards [hpart (by simp) fun _ => .inl rfl,
      hpart (by simp) fun hA => .inr ⟨hA, .inl rfl⟩,
      hpart (A := Advances s names first ∨ Advances s names second) (by simp) fun hA =>
        .inr ⟨fun h => hA (.inl h), .inr ⟨fun h => hA (.inr h), rfl⟩⟩]
      with k hfirst hsecond hthird
    exact .seq3 hfirst.here hsecond hthird hkeeps
  | optional body =>
    filter_upwards [hpart (by simp) fun _ => rfl] with k hbody
    exact .optional hI hbody.here
  | not body description =>
    filter_upwards [hpart (by simp) fun _ => rfl] with k hbody
    exact .not hI hbody.here
  | sepBy item separator =>
    filter_upwards [hpart (by simp) fun _ => .inl rfl,
      hpart (by simp) fun hA => .inr ⟨hA, rfl⟩, hlong]
      with k hitem hseparator hk
    exact .sepBy hrounds hitem hseparator hk hI
  | label body description =>
    filter_upwards [hpart (by simp) fun _ => rfl] with k hbody
    exact .label hbody.here
  | position body =>
    filter_upwards [hpart (by simp) fun _ => rfl] with k hbody
    exact .position hI hbody.here
  | chainLeft operand operator fold =>
    filter_upwards [hpart (by simp) fun _ => .inl rfl,
      hpart (by simp) fun hA => .inr ⟨hA, rfl⟩, hlong]
      with k hoperand hoperator hk
    exact .chainLeft hrounds hoperand hoperator hk hkeeps
  | chainRight operand operator fold =>
    filter_upwards [hpart (by simp) fun _ => .inl rfl,
      hpart (by simp) fun hA => .inr ⟨hA, rfl⟩, hlong]
      with k hoperand hoperator hk
    exact .chainRight hrounds hoperand hoperator hk hkeeps
  | delayed body =>
    filter_upwards [hpart (by simp) fun _ => rfl] with k hbody
    exact .delayed hbody.here
  | recursive name body =>
    exact eventually_succ (hrule _ _ .recursive) fun k hk => .enters .recursive hk
  | call name | reference name =>
    rcases hdefined trivial with ⟨rule, inside, henters⟩
    exact eventually_succ (hrule rule inside henters) fun k hk => .enters henters hk

end CommittedParsing
