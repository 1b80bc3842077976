import CommittedParsing.Proofs.KeptText
import CommittedParsing.Proofs.Spans

/-!
# Spans delimit what was parsed

A span is written down at one place only: where a grammar is asked for the span of its success. All else
passes spans on, drops them, or puts them beside others. So a span in a value was written down somewhere on
the way from the cursor at the start to the cursor behind the value, and it lies between them. It is the
stretch that was read there, so it begins and ends between two characters.

What a binder goes on with is made of a value, and may have the spans of that value in its constants and
functions. So the law for a grammar is relative to the spans that are known where the grammar is made: a
span in a value is one of these, or it was written down while the grammar was run.

In a repetition the spans of the items lie one behind the other without a gap, since each round begins where
the round before it has ended. Only the last of them may be empty, since a round that does not move is the
last one.

Main statements:
* `Cursor.Covers.trans` — spans on two stretches, one behind the other;
* `Grammar.MakesNoSpans` — which spans a grammar may have in its functions;
* `Grammar.covers_its_spans` — the law for one grammar, from the law for what it refers to;
* `Parser.tiles_repeatFrom`, `Parser.tiles_many1` — the spans of the items of a repetition;
* `System.spans_delimit_what_was_parsed` — all that is known of the spans in a value.
-/

namespace CommittedParsing

open CommittedParsing.Parser Run Outcome Text

/-! ## Spans between two cursors -/

/-- On the way from one cursor to another, the stretch of the span has been read. -/
def Span.Between (s : Span) (c d : Cursor) : Prop :=
  ∃ start stop before cs behind, c.Reads before start ∧ start.Reads cs stop ∧ stop.Reads behind d ∧
    s = ⟨start.position, stop.position⟩

namespace Span.Between

variable {s : Span} {c d e : Cursor} {cs : List Char}

/-- The span from one cursor to the other is between the two. -/
theorem whole (h : c.Reads cs d) : Span.Between ⟨c.position, d.position⟩ c d :=
  ⟨c, d, [], cs, [], .refl c, h, .refl d, rfl⟩

/-- A span stays between two cursors when the text goes on behind the second. -/
theorem before (h : s.Between c d) (hread : d.Reads cs e) : s.Between c e := by
  rcases h with ⟨start, stop, _, _, _, hstart, hstop, hbehind, heq⟩
  exact ⟨start, stop, _, _, _, hstart, hstop, hbehind.trans hread, heq⟩

/-- A span stays between two cursors when text is read ahead of the first. -/
theorem behind (hread : c.Reads cs d) (h : s.Between d e) : s.Between c e := by
  rcases h with ⟨start, stop, _, _, _, hstart, hstop, hbehind, heq⟩
  exact ⟨start, stop, _, _, _, hread.trans hstart, hstop, hbehind, heq⟩

/-- A span between two cursors is in order, and within the positions of both. -/
theorem bounds (h : s.Between c d) :
    c.position ≤ s.start ∧ s.start ≤ s.stop ∧ s.stop ≤ d.position := by
  rcases h with ⟨start, stop, _, _, _, hstart, hstop, hbehind, rfl⟩
  rw [hbehind.position_eq, hstop.position_eq, hstart.position_eq]
  simp only
  omega

/-- The text of a span that lies between two cursors can be cut out. -/
theorem isSome_slice (h : s.Between c d) (hc : c.Valid) : (s.slice? c.source.text).isSome := by
  rcases h with ⟨start, stop, _, cs, _, hstart, hstop, _, rfl⟩
  have hslice := hstop.slice? (hstart.valid hc)
  rw [hstart.source_eq] at hslice
  rw [hslice]
  rfl

end Span.Between

/-- The second cursor is reached from the first by reading, and the spans lie between the two, but for those
that were known before. -/
structure Cursor.Covers (known : List Span) (c : Cursor) (spans : List Span) (d : Cursor) : Prop where
  reads : ∃ cs, c.Reads cs d
  between : ∀ s ∈ spans, s ∈ known ∨ s.Between c d

namespace Cursor.Covers

variable {c d e : Cursor} {cs : List Char} {known ss ts : List Span}

/-- Reading text without making a span covers no span at all. -/
theorem of_reads (h : c.Reads cs d) : Covers known c [] d := ⟨⟨cs, h⟩, by simp⟩

theorem refl (c : Cursor) : Covers known c [] c := .of_reads (.refl c)

/-- What covers some spans covers any of them, known ones included. -/
theorem subset (h : Covers known c ss d) (hsubset : ts ⊆ known ++ ss) : Covers known c ts d := by
  refine ⟨h.reads, ?_⟩
  intro s hs
  rcases List.mem_append.1 (hsubset hs) with hs | hs
  · exact .inl hs
  · exact h.between s hs

/-- Two readings one behind the other cover the spans of both. -/
theorem trans (h : Covers known c ss d) (h' : Covers known d ts e) : Covers known c (ss ++ ts) e := by
  rcases h.reads with ⟨cs, hread⟩
  rcases h'.reads with ⟨cs', hread'⟩
  constructor
  · exact ⟨cs ++ cs', hread.trans hread'⟩
  · intro s hs
    rcases List.mem_append.1 hs with hs | hs
    · exact (h.between s hs).imp_right fun hbetween => hbetween.before hread'
    · exact (h'.between s hs).imp_right fun hbetween => hbetween.behind hread

/-- What is made of a value knows its spans, and these have been written down before it is run. -/
theorem made (h : Covers known c ss d) (h' : Covers (known ++ ss) d ts e) : Covers known c ts e := by
  rcases h.reads with ⟨cs, hread⟩
  rcases h'.reads with ⟨cs', hread'⟩
  constructor
  · exact ⟨cs ++ cs', hread.trans hread'⟩
  · intro s hs
    rcases h'.between s hs with hs | hbetween
    · rcases List.mem_append.1 hs with hs | hs
      · exact .inl hs
      · exact (h.between s hs).imp_right fun hbetween => hbetween.before hread'
    · exact .inr (hbetween.behind hread)

/-- More may be known. -/
theorem mono {known' : List Span} (hknown : known ⊆ known') (h : Covers known c ss d) :
    Covers known' c ss d :=
  ⟨h.reads, fun s hs => (h.between s hs).imp_left fun hmem => hknown hmem⟩

/-- The span of the whole stretch may be added. -/
theorem withWhole (h : Covers known c ss d) :
    Covers known c (ss ++ [⟨c.position, d.position⟩]) d := by
  rcases h.reads with ⟨cs, hread⟩
  constructor
  · exact ⟨cs, hread⟩
  · intro s hs
    rcases List.mem_append.1 hs with hs | hs
    · exact h.between s hs
    · rw [List.mem_singleton.1 hs]
      exact .inr (.whole hread)

/-- Covering is a condition that repetitions and chains gather up. -/
theorem gathers (known : List Span) : Gathers (Cursor.Covers known) := ⟨refl, trans⟩

end Cursor.Covers

/-! ## Grammars that make up no spans -/

/-- Constants and functions on values have no spans but the known ones and those of the values they are
given. -/
def Grammar.AddsNoSpans (known : List Span) : Grammar → Prop
  | .pure v => v.spans ⊆ known
  | .map _ change => ∀ v w, change v = .ok w → w.spans ⊆ known ++ v.spans
  | .seq2 _ _ combine => ∀ a b w, combine a b = .ok w → w.spans ⊆ known ++ (a.spans ++ b.spans)
  | .seq3 _ _ _ combine => ∀ a b d w, combine a b d = .ok w →
      w.spans ⊆ known ++ (a.spans ++ (b.spans ++ d.spans))
  | .chainLeft _ _ fold | .chainRight _ _ fold => ∀ operator left right w,
      fold operator left right = .ok w →
        w.spans ⊆ known ++ (operator.spans ++ (left.spans ++ right.spans))
  | .custom _ => False
  | _ => True

/-- Nothing in the grammar makes up spans. Where a binder goes on with what it has made of a value, the
spans of that value are known as well. -/
inductive Grammar.MakesNoSpans : List Span → Grammar → Prop where
  | intro {known : List Span} {g : Grammar} : g.AddsNoSpans known →
      (∀ part ∈ g.written, MakesNoSpans known part) →
      (∀ first captured next, g = .bind first captured next →
        ∀ v made, next v = .ok made → MakesNoSpans (known ++ v.spans) made) →
      MakesNoSpans known g

namespace Grammar.MakesNoSpans

variable {known known' : List Span} {g : Grammar}

/-- A grammar that makes no span adds none. -/
theorem adds (h : g.MakesNoSpans known) : g.AddsNoSpans known := by
  cases h with
  | intro hadds _ _ => exact hadds

/-- A part that is written in a grammar makes no more spans than the grammar does. -/
theorem part (h : g.MakesNoSpans known) {part : Grammar} (hpart : part ∈ g.written) :
    part.MakesNoSpans known := by
  cases h with
  | intro _ hparts _ => exact hparts part hpart

/-- What a binder goes on with makes no spans either, once those of the bound value are known. -/
theorem next {first : Grammar} {captured : List String} {next : Value → Except Fault Grammar}
    (h : (bind first captured next).MakesNoSpans known) {v : Value} (hv : next v = .ok g) :
    g.MakesNoSpans (known ++ v.spans) := by
  cases h with
  | intro _ _ hmade => exact hmade first captured next rfl v g hv

/-- A grammar that is no binder and does not make up spans itself does not if its parts do not. -/
theorem of_children (hadds : g.AddsNoSpans known) (hparts : ∀ part ∈ g.written, part.MakesNoSpans known)
    (hbinder : ∀ first captured next, g ≠ .bind first captured next) : g.MakesNoSpans known :=
  .intro hadds hparts fun first captured next heq => absurd heq (hbinder first captured next)

/-- With more spans known there may be more of them in the grammar. -/
theorem mono (hknown : known ⊆ known') (h : g.MakesNoSpans known) : g.MakesNoSpans known' := by
  have hmore : ∀ {known known' : List Span}, known ⊆ known' → ∀ ss : List Span, known ++ ss ⊆ known' ++ ss :=
    fun h ss => List.append_subset.2
      ⟨List.Subset.trans h (List.subset_append_left _ ss), List.subset_append_right _ ss⟩
  induction h generalizing known' with
  | @intro known g hadds _ _ ihParts ihMade =>
    refine .intro ?_ (fun part hpart => ihParts part hpart hknown) ?_
    · cases g with
      | pure v => exact List.Subset.trans hadds hknown
      | map _ _ => exact fun v w hw => List.Subset.trans (hadds v w hw) (hmore hknown _)
      | seq2 _ _ _ => exact fun a b w hw => List.Subset.trans (hadds a b w hw) (hmore hknown _)
      | seq3 _ _ _ _ => exact fun a b d w hw => List.Subset.trans (hadds a b d w hw) (hmore hknown _)
      | chainLeft _ _ _ | chainRight _ _ _ =>
        exact fun operator left right w hw =>
          List.Subset.trans (hadds operator left right w hw) (hmore hknown _)
      | custom _ => exact hadds
      | _ => trivial
    · exact fun first captured next heq v made hmade =>
        ihMade first captured next heq v made hmade (hmore hknown _)

end Grammar.MakesNoSpans

/-- The spans of a chain: those of its first operand and those of its pairs. -/
def Value.chainSpans : Value × List (Value × Value) → List Span
  | (first, pairs) => first.spans ++ pairsGathered Value.spans Value.spans pairs

/-- Gathering values into one invents no span. -/
theorem Value.spans_gather_subset (items : List Value) :
    (gather items).spans ⊆ items.flatMap Value.spans := by
  rw [gather, spans_list]
  exact List.Subset.refl _

/-- From the last pair on, each result has no spans but known ones and those to its right. -/
theorem Value.spans_foldRight_subset {fold : Value → Value → Value → Except Fault Value}
    {known : List Span}
    (hfold : ∀ operator left right w, fold operator left right = .ok w →
      w.spans ⊆ known ++ (operator.spans ++ (left.spans ++ right.spans)))
    (first : Value) (pairs : List (Value × Value)) {v : Value}
    (hv : foldRightChecked fold first pairs = .ok v) :
    v.spans ⊆ known ++ Value.chainSpans (first, pairs) := by
  have hensures : (Run.ofExcept (foldRightChecked fold first pairs)).Ensures anyAbort
      fun v => v.spans ⊆ known ++ Value.chainSpans (first, pairs) := by
    refine ensures_foldRightChecked
      (V := fun first pairs v => v.spans ⊆ known ++ chainSpans (first, pairs)) ?_ ?_ first pairs
    · intro first
      simp [chainSpans, pairsGathered]
    · intro first operator operand pairs right hright
      refine .ofExcept_anyAbort fun w hw s hs => ?_
      have hone := hfold operator first right w hw hs
      have hmem := @hright s
      simp only [chainSpans, pairsGathered, List.flatMap_cons, List.mem_append] at hmem hone ⊢
      grind
  rw [hv] at hensures
  exact hensures

namespace Parser

variable {α β : Type} {S : α → List Span} {known : List Span} {n : Nat} {c : Cursor}

/-- Changing the value keeps what is covered, as long as the change adds no span. -/
theorem covers_change {p : Parser α} {f : α → β} {S' : β → List Span}
    (hp : (p n c).Ensures anyAbort (Carries (Cursor.Covers known) S c)) (hf : ∀ a, S' (f a) ⊆ S a) :
    (map f p n c).Ensures anyAbort (Carries (Cursor.Covers known) S' c) := by
  refine ensures_map hp ?_
  intro a rest h
  exact h.subset (List.Subset.trans (hf a) (List.subset_append_right known (S a)))

/-- The same for a change that may hit a fault, and may have known spans. -/
theorem covers_mapChecked {p : Parser α} {f : α → Except Fault Value}
    (hp : (p n c).Ensures anyAbort (Carries (Cursor.Covers known) S c))
    (hf : ∀ a w, f a = .ok w → w.spans ⊆ known ++ S a) :
    (mapChecked f p n c).Ensures anyAbort (Carries (Cursor.Covers known) Value.spans c) := by
  refine ensures_mapChecked hp ?_
  intro a rest h
  exact .ofExcept_anyAbort fun w hw => Cursor.Covers.subset h (hf a w hw)

section Chains

variable {operand operator : Parser Value}
  (hoperand : ∀ c, (operand n c).Ensures anyAbort (Carries (Cursor.Covers known) Value.spans c))
  (hoperator : ∀ c, (operator n c).Ensures anyAbort (Carries (Cursor.Covers known) Value.spans c))
include hoperand hoperator

/-- The spans of the separators are dropped. -/
theorem covers_sepBy : (sepBy operand operator n c).Ensures anyAbort
    (Carries (Cursor.Covers known) (·.flatMap Value.spans) c) := by
  have hread : (chain operand operator (fun item => [item]) takeItem n c).Ensures anyAbort
      (Meets (fun items d => Cursor.Covers known c (items.reverse.flatMap Value.spans) d)
        fun _ => True) := by
    refine carries_chain (Cursor.Covers.gathers known) hoperand hoperator ?_ ?_
    · intro v d hv
      simpa using hv
    · rintro items d w v e _ hitems hpair ⟨⟩
      refine (Cursor.Covers.trans hitems hpair).subset ?_
      intro s hs
      simp only [List.reverse_cons, List.flatMap_append, List.flatMap_cons, List.flatMap_nil,
        List.mem_append] at hs ⊢
      grind
  exact ensures_map hread fun _ _ h => h

variable {fold : Value → Value → Value → Except Fault Value}
  (hfold : ∀ operator left right w, fold operator left right = .ok w →
    w.spans ⊆ known ++ (operator.spans ++ (left.spans ++ right.spans)))
include hfold

/-- What the operands have come to so far has its spans where the operands have been read. -/
theorem covers_chainLeft : (chainLeftChecked operand operator fold n c).Ensures anyAbort
    (Carries (Cursor.Covers known) Value.spans c) := by
  refine carries_chain (K := fun (v : Value) d => Cursor.Covers known c v.spans d)
    (Cursor.Covers.gathers known) hoperand hoperator (fun _ _ h => h) ?_
  intro left d operator right e w hleft hpair hw
  refine (Cursor.Covers.trans hleft hpair).subset ?_
  intro s hs
  have hone := hfold operator left right w hw hs
  simp only [List.mem_append] at hone ⊢
  grind

/-- A chain that folds from the right covers the spans of its value, as one that folds from the left
does. -/
theorem covers_chainRight : (chainRightChecked operand operator fold n c).Ensures anyAbort
    (Carries (Cursor.Covers known) Value.spans c) := by
  have hoperands : (operands operand operator n c).Ensures anyAbort
      (Carries (Cursor.Covers known) Value.chainSpans c) :=
    carries_operands (Cursor.Covers.gathers known) hoperand hoperator
  exact covers_mapChecked hoperands fun (first, pairs) _ hw =>
    Value.spans_foldRight_subset hfold first pairs hw

end Chains

end Parser

/-! ## The law for grammars -/

/-- The comparison for the law, where some spans are known: the condition is on the first grammar alone. -/
def coveringSpans (known : List Span) : Comparison :=
  Comparison.ensuring (Outcome.Carries (Cursor.Covers known) Value.spans)

/-- Whatever spans are known, a call follows the law if its scope does. -/
def CoveringCalls (call : String → Scope → Parser Value) : Prop :=
  ∀ known name scope, (coveringSpans known).Scopes scope scope →
    (coveringSpans known).Parsers (call name scope) (call name scope)

/-- A scope that follows the law follows it where more spans are known. -/
theorem covering_scopes_mono {known known' : List Span} (hknown : known ⊆ known') {scope : Scope}
    (h : (coveringSpans known).Scopes scope scope) : (coveringSpans known').Scopes scope scope := by
  intro name
  have hname := h name
  revert hname
  generalize scope.find? name = found
  rintro (hp | _)
  · exact .some fun n c => (hp n c).mono (fun _ _ h => Cursor.Covers.mono hknown h) fun _ _ => trivial
  · exact .none

/-- A grammar that makes up no spans follows the law if what it refers to does. -/
theorem Grammar.covers_its_spans {g : Grammar} {known : List Span} (hg : g.MakesNoSpans known)
    {call : String → Scope → Parser Value} (hcall : CoveringCalls call) {scope : Scope}
    (hscope : (coveringSpans known).Scopes scope scope) (n : Nat) (c : Cursor) :
    (g.denote call scope n c).Ensures anyAbort
      (Outcome.Carries (Cursor.Covers known) Value.spans c) := by
  have hgathers := Cursor.Covers.gathers known
  induction g generalizing known scope n c with
  | satisfy accepts description =>
    exact ensures_map (ensures_satisfy (fun _ _ hrest _ => .of_reads (.skip hrest)) trivial)
      fun _ _ h => h
  | text expected =>
    exact ensures_map (ensures_text (fun _ hrest => .of_reads (.skip hrest)) trivial) fun _ _ h => h
  | endOfInput =>
    exact ensures_map (ensures_endOfInput (fun _ => .refl c) trivial) fun _ _ h => h
  | pure v =>
    have hv : v.spans ⊆ known := hg.adds
    exact Cursor.Covers.subset (.refl c) (List.Subset.trans hv (List.subset_append_left known []))
  | custom parse => exact hg.adds.elim
  | map body change ih => exact covers_mapChecked (ih (hg.part (by simp)) hscope n c hgathers) hg.adds
  | filter body accepts description ih =>
    refine ensures_filterChecked (ih (hg.part (by simp)) hscope n c hgathers) ?_ trivial
    exact fun _ _ _ => .ofExcept_anyAbort fun _ _ => trivial
  | bind first captured next ihFirst ihNext =>
    refine ensures_bind (ihFirst (hg.part (by simp)) hscope n c hgathers) (fun _ he => he) ?_
    intro v middle hv
    cases hmade : next v with
    | error e => exact trivial
    | ok made =>
      -- what is made knows the spans of the value, and is run behind them
      have hinner := covering_scopes_mono (List.subset_append_left known v.spans) hscope
      have hrun := ihNext v made hmade (hg.next hmade) hinner n middle (Cursor.Covers.gathers _)
      exact (hrun.mono (fun _ _ h => Cursor.Covers.made hv h) fun _ h => h).prepend _
  | many body ih =>
    refine covers_change ?_ Value.spans_gather_subset
    exact carries_repeatFrom hgathers (fun c => ih (hg.part (by simp)) hscope n c hgathers) (.refl c)
  | many1 body ih =>
    refine covers_change ?_ Value.spans_gather_subset
    exact carries_many1 hgathers fun c => ih (hg.part (by simp)) hscope n c hgathers
  | or first second ihFirst ihSecond =>
    refine ensures_or (ihFirst (hg.part (by simp)) hscope n c hgathers) (fun _ he _ => he) ?_
    exact fun _ _ _ => ihSecond (hg.part (by simp)) hscope n c hgathers
  | choice count alternatives ih =>
    have halternatives : ∀ p ∈ List.ofFn fun i => (alternatives i).denote call scope,
        (p n c).Ensures anyAbort (Outcome.Carries (Cursor.Covers known) Value.spans c) := by
      intro p hp
      rcases List.mem_ofFn.1 hp with ⟨i, rfl⟩
      exact ih i (hg.part (by simp)) hscope n c hgathers
    exact ensures_choiceAfter (G := fun _ => True) halternatives (fun _ _ _ _ _ => trivial)
      (fun _ _ _ _ _ => trivial) (fun _ _ => trivial) trivial
  | attempt body ih =>
    exact ensures_attempt (ih (hg.part (by simp)) hscope n c hgathers) fun _ _ => trivial
  | seq2 first second combine ihFirst ihSecond =>
    refine covers_mapChecked (S := fun both => both.1.spans ++ both.2.spans) ?_
      fun both => hg.adds both.1 both.2
    refine ensures_seq2 (ihFirst (hg.part (by simp)) hscope n c hgathers) (fun _ he => he) ?_
    intro a afterFirst ha
    refine (ihSecond (hg.part (by simp)) hscope n afterFirst hgathers).mono ?_ fun _ _ => trivial
    exact fun b rest hb => Cursor.Covers.trans ha hb
  | seq3 first second third combine ihFirst ihSecond ihThird =>
    refine covers_mapChecked (S := fun all => all.1.spans ++ (all.2.1.spans ++ all.2.2.spans)) ?_
      fun all => hg.adds all.1 all.2.1 all.2.2
    refine ensures_seq3 (ihFirst (hg.part (by simp)) hscope n c hgathers) (fun _ he => he) ?_
    intro a afterFirst ha
    refine (ihSecond (hg.part (by simp)) hscope n afterFirst hgathers).mono ?_ fun _ _ => trivial
    intro b afterSecond hb
    refine (ihThird (hg.part (by simp)) hscope n afterSecond hgathers).mono ?_ fun _ _ => trivial
    exact fun d rest hd => Cursor.Covers.trans ha (Cursor.Covers.trans hb hd)
  | optional body ih =>
    refine covers_change (S := fun v => (Value.ofOption v).spans) ?_ fun _ => List.Subset.refl _
    refine ensures_optional (ih (hg.part (by simp)) hscope n c hgathers) ?_ (fun _ he _ => he) (.refl c)
    exact fun _ _ h => h
  | not body description ih =>
    -- spans in what was looked at are dropped
    refine ensures_map ?_ fun _ _ h => h
    exact ensures_not (ih (hg.part (by simp)) hscope n c hgathers) (.refl c) trivial
  | sepBy item separator ihItem ihSeparator =>
    refine covers_change ?_ Value.spans_gather_subset
    exact covers_sepBy (fun c => ihItem (hg.part (by simp)) hscope n c hgathers)
      fun c => ihSeparator (hg.part (by simp)) hscope n c hgathers
  | label body description ih =>
    exact ensures_label (ih (hg.part (by simp)) hscope n c hgathers) (fun _ he _ => he) trivial
  | position body ih =>
    refine ensures_map (ensures_position (ih (hg.part (by simp)) hscope n c hgathers) ?_) fun _ _ h => h
    exact fun _ _ h => Cursor.Covers.withWhole h
  | chainLeft operand operator fold ihOperand ihOperator =>
    exact covers_chainLeft (fun c => ihOperand (hg.part (by simp)) hscope n c hgathers)
      (fun c => ihOperator (hg.part (by simp)) hscope n c hgathers) hg.adds
  | chainRight operand operator fold ihOperand ihOperator =>
    exact covers_chainRight (fun c => ihOperand (hg.part (by simp)) hscope n c hgathers)
      (fun c => ihOperator (hg.part (by simp)) hscope n c hgathers) hg.adds
  | delayed body ih => exact (ih (hg.part (by simp)) hscope n c hgathers).prepend _
  | call name => exact hcall known name scope hscope n c
  | recursive name body ih =>
    -- in the body the name stands for the rule itself, of which the same spans are known
    have hrule : (coveringSpans known).Parsers ((recursive name body).denote call scope)
        ((recursive name body).denote call scope) := by
      refine Comparison.fix (K := coveringSpans known) ?_
      intro p q hp n c
      have hself : (coveringSpans known).Parsers p p := hp
      exact ih (hg.part (by simp)) (hscope.cons name hself) n c hgathers
    exact hrule n c
  | reference name => exact hscope.parser name n c

section Systems

variable {s : System} (hs : s.Each (Grammar.MakesNoSpans []))
include hs

/-- With any fuel, the rules of the system and the calls of its library follow the law. -/
theorem System.targets_cover (n : Nat) :
    (∀ handle c, (s.target (.rule handle) n c).Ensures anyAbort
      (Outcome.Carries (Cursor.Covers []) Value.spans c)) ∧
    CoveringCalls fun name scope _ => s.target (.call name scope) n := by
  -- by the fuel: what a rule or a called grammar refers to is run with a unit less
  induction n with
  | zero => exact ⟨fun _ _ => trivial, fun _ _ _ _ _ _ => trivial⟩
  | succ n ih =>
    rcases ih with ⟨ihRules, ihCalls⟩
    constructor
    · intro handle c
      cases hresolve : s.store.resolve handle with
      | error e =>
        have hrun : s.target (.rule handle) (n + 1) c = Run.fault e := rule_eq_fault hresolve n c
        rw [hrun]
        exact trivial
      | ok d =>
        have hrun : s.target (.rule handle) (n + 1) c = _ := rule_succ hresolve n c
        rw [hrun]
        refine Grammar.covers_its_spans (hs.rules _ _ (Store.resolve_eq_ok_iff.1 hresolve)) ihCalls ?_ n c
        exact Comparison.Scopes.of_bindings (fun handle _ => ihRules handle) d.bindings
    · intro known name scope hscope m c
      dsimp only
      cases hlookup : s.library.lookup name with
      | none =>
        rw [call_eq_fault hlookup]
        exact trivial
      | some body =>
        rw [call_succ hlookup]
        have hbody := (hs.library name body hlookup).mono (List.nil_subset known)
        exact (Grammar.covers_its_spans hbody ihCalls hscope n c).prepend _

/-- A definition in which nothing makes up spans has its spans between the cursors. -/
theorem System.parser_covers {d : Definition} (hd : d.body.MakesNoSpans []) (n : Nat) (c : Cursor) :
    (s.parser d n c).Ensures anyAbort (Outcome.Carries (Cursor.Covers []) Value.spans c) := by
  refine Grammar.covers_its_spans hd ?_ ?_ n c
  · exact fun known name scope hscope n => (s.targets_cover hs n).2 known name scope hscope n
  · exact Comparison.Scopes.of_bindings (fun handle n => (s.targets_cover hs n).1 handle) d.bindings

end Systems

/-! ## Spans without gaps -/

/-- The spans lie one behind the other from the first byte to the last, and only the last of them may be
empty. -/
structure Tiles (spans : List Span) (start stop : Nat) : Prop where
  first : ∀ s ∈ spans.head?, s.start = start
  next : spans.IsChain fun s t => s.stop = t.start
  last : ∀ s ∈ spans.getLast?, s.stop = stop
  nonempty : ∀ s ∈ spans.dropLast, s.start < s.stop

/-- The condition on outcomes of repetitions: the spans of the items tile what was read for them. -/
def Outcome.TilesFrom {α β : Type} (f : α × Span → β) (c : Cursor) : Outcome (List β) → Prop :=
  Meets (fun values rest => ∃ items : List (α × Span), values = items.map f ∧
    Tiles (items.map Prod.snd) c.position rest.position) fun _ => True

/-- None of the spans is empty, so another one may follow. -/
structure Paves (spans : List Span) (start stop : Nat) : Prop extends Tiles spans start stop where
  nil : spans = [] → start = stop
  all_nonempty : ∀ s ∈ spans, s.start < s.stop

namespace Paves

variable {spans : List Span} {start stop stop' : Nat}

/-- The empty list of spans paves the way from a place to itself. -/
theorem empty (start : Nat) : Paves [] start start := by
  refine ⟨⟨?_, .nil, ?_, ?_⟩, fun _ => rfl, ?_⟩ <;> simp

/-- The span that follows may be empty, but then it is the last one. -/
theorem tiles_concat (h : Paves spans start stop) (stop' : Nat) :
    Tiles (spans ++ [⟨stop, stop'⟩]) start stop' := by
  constructor
  · cases spans with
    | nil => simp [h.nil rfl]
    | cons s spans => simpa using h.first
  · refine List.isChain_append.2 ⟨h.next, by simp, ?_⟩
    simpa using h.last
  · simp
  · simpa using h.all_nonempty

/-- One more span behind the last paves the way on to where it stops. -/
theorem concat (h : Paves spans start stop) (hlt : stop < stop') :
    Paves (spans ++ [⟨stop, stop'⟩]) start stop' := by
  refine ⟨h.tiles_concat stop', by simp, ?_⟩
  intro s hs
  rcases List.mem_append.1 hs with hs | hs
  · exact h.all_nonempty s hs
  · rw [List.mem_singleton.1 hs]
    exact hlt

end Paves

namespace Parser

variable {α β : Type} {S : α → List Span} {known : List Span} {n : Nat} {c d : Cursor} {p : Parser α}

/-- Each round begins where the round before it has ended. -/
theorem tiles_repeatFrom (hp : ∀ c, (p n c).Ensures anyAbort (Carries (Cursor.Covers known) S c))
    (f : α × Span → β) {past : List (α × Span)}
    (hpast : Paves (past.reverse.map Prod.snd) c.position d.position) :
    (repeatFrom (map f (position p)) (past.map f) n d).Ensures anyAbort (TilesFrom f c) := by
  -- the invariant of a round: the spans so far pave the way from the start to here
  refine ensures_repeatFrom (I := fun _ values d => ∃ past : List (α × Span),
      values = past.map f ∧ Paves (past.reverse.map Prod.snd) c.position d.position)
    (fun _ _ _ => trivial) ?_ ⟨past, rfl, hpast⟩
  rintro k _ d ⟨past, rfl, hpast⟩
  refine ensures_map (ensures_position ((hp d).mono (fun _ _ h => h) fun _ _ => ?_) ?_) fun _ _ h => h
  · exact ⟨fun _ => trivial, fun _ => ⟨past.reverse, by simp, hpast.toTiles⟩⟩
  · intro a rest ha
    rcases ha.reads with ⟨cs, hread⟩
    have hposition := hread.position_eq
    constructor
    · intro hsame
      refine ⟨past.reverse ++ [(a, ⟨d.position, rest.position⟩)], by simp, ?_⟩
      simpa using hpast.tiles_concat rest.position
    · intro hmoved
      refine ⟨(a, ⟨d.position, rest.position⟩) :: past, by simp, ?_⟩
      simpa using hpast.concat (show d.position < rest.position by omega)

/-- The spans of the items of a repetition tile what the repetition has read. -/
theorem tiles_many (hp : ∀ c, (p n c).Ensures anyAbort (Carries (Cursor.Covers known) S c))
    (f : α × Span → β) (c : Cursor) :
    (many (map f (position p)) n c).Ensures anyAbort (TilesFrom f c) :=
  have hnone : Paves (([] : List (α × Span)).reverse.map Prod.snd) c.position c.position :=
    .empty c.position
  tiles_repeatFrom hp f hnone

theorem tiles_many1 (hp : ∀ c, (p n c).Ensures anyAbort (Carries (Cursor.Covers known) S c))
    (f : α × Span → β) (c : Cursor) :
    (many1 (map f (position p)) n c).Ensures anyAbort (TilesFrom f c) := by
  have hfirst : (map f (position p) n c).Ensures anyAbort (Meets
      (fun b rest => (∃ a, b = f (a, ⟨c.position, rest.position⟩)) ∧ c.position ≤ rest.position)
      fun _ => True) := by
    refine ensures_map (ensures_position (hp c) ?_) fun _ _ h => h
    intro a rest ha
    rcases ha.reads with ⟨cs, hread⟩
    exact ⟨⟨a, rfl⟩, by rw [hread.position_eq]; omega⟩
  refine ensures_many1 hfirst (fun _ _ => trivial) ?_ ?_
  · rintro _ rest ⟨⟨a, rfl⟩, _⟩ _
    exact ⟨[(a, _)], rfl, (Paves.empty c.position).tiles_concat rest.position⟩
  · rintro _ rest ⟨⟨a, rfl⟩, hle⟩ hmoved
    have hlt : c.position < rest.position := by omega
    have hone : Paves ([(a, ⟨c.position, rest.position⟩)].reverse.map Prod.snd) c.position
        rest.position := (Paves.empty c.position).concat hlt
    exact tiles_repeatFrom hp f hone

end Parser

/-! ## Systems -/

/-- In a system in which only asking for spans makes spans, every span in the value of a success lies
between the start and the end of what was read, and its text can be cut out. The span of a grammar that was
asked for its span is the text that the grammar has read. And the spans of the items of a repetition lie one
behind the other without a gap, from the start to the end, and only the last one may be empty. -/
theorem System.spans_delimit_what_was_parsed {s : System} (hs : s.Each (Grammar.MakesNoSpans []))
    {d : Definition} (hd : d.body.MakesNoSpans []) {n : Nat} {c : Cursor} (hc : c.Valid)
    {v : Value} {rest : Cursor} (hsuccess : (s.parser d n c).ending = .value (.success v rest)) :
    (∀ span ∈ v.spans, c.position ≤ span.start ∧ span.start ≤ span.stop ∧ span.stop ≤ rest.position ∧
      (span.slice? c.source.text).isSome) ∧
    (∀ body, d.body = .position body → ∃ w cs,
      (s.parser ⟨body, d.bindings⟩ n c).ending = .value (.success w rest) ∧ c.Reads cs rest ∧
      v = .pair w (.span ⟨c.position, rest.position⟩) ∧
      (⟨c.position, rest.position⟩ : Span).slice? c.source.text = some cs) ∧
    ∀ body, d.body = .many (.position body) ∨ d.body = .many1 (.position body) →
      ∃ items : List (Value × Span), v = .list (items.map Value.withSpan) ∧
        Tiles (items.map Prod.snd) c.position rest.position := by
  -- everything follows from what the whole parser covers, with no span known before
  have hv : Cursor.Covers [] c v.spans rest := (parser_covers hs hd n c).post_of_value hsuccess
  rcases hv.reads with ⟨cs, hread⟩
  rcases d with ⟨g, bindings⟩
  refine ⟨?_, ?_, ?_⟩
  · intro span hspan
    have hbetween := (hv.between span hspan).resolve_left List.not_mem_nil
    rcases hbetween.bounds with ⟨hstart, hordered, hstop⟩
    exact ⟨hstart, hordered, hstop, hbetween.isSome_slice hc⟩
  · rintro body rfl
    have hsequence : ((Parser.position (s.parser ⟨body, bindings⟩)).map Value.withSpan n c).ending =
        .value (.success v rest) := hsuccess
    rcases ending_andThen_eq_success_iff.1 hsequence with ⟨pair, middle, hposition, heq⟩
    rcases ending_andThen_eq_success_iff.1 hposition with ⟨w, middle', hbody, heq'⟩
    cases heq
    cases heq'
    exact ⟨w, cs, hbody, hread, rfl, hread.slice? hc⟩
  · intro body hbody
    -- both repetitions gather the items that tile the text
    have hgathered : ∀ {p : Parser (List Value)},
        (p n c).Ensures anyAbort (Outcome.TilesFrom Value.withSpan c) →
        (p.map Value.gather n c).ending = .value (.success v rest) →
        ∃ items : List (Value × Span), v = .list (items.map Value.withSpan) ∧
          Tiles (items.map Prod.snd) c.position rest.position := by
      intro p hp hmap
      rcases ending_andThen_eq_success_iff.1 hmap with ⟨values, middle, hvalues, heq⟩
      cases heq
      rcases hp.post_of_value hvalues with ⟨items, rfl, htiles⟩
      exact ⟨items, rfl, htiles⟩
    -- the body is a part of the repetition, so it makes no span of its own
    have hposition : (Grammar.position body).MakesNoSpans [] := by
      rcases hbody with rfl | rfl
      · exact hd.part (by simp)
      · exact hd.part (by simp)
    have hruns := parser_covers hs (d := ⟨body, bindings⟩) (hposition.part (by simp)) n
    rcases hbody with rfl | rfl
    · exact hgathered (tiles_many hruns Value.withSpan c) hsuccess
    · exact hgathered (tiles_many1 hruns Value.withSpan c) hsuccess

/-- A repeated rule whose texts take three bytes, with the span of each of them and with the span of all. -/
theorem spans_of_repetition_from_byte_two :
    let s : System := ⟨⟨[.defined ⟨.text "é1", []⟩]⟩, []⟩
    let each : Definition := ⟨.many (.position (.reference "rule")), [("rule", .strong 0)]⟩
    let all : Definition := ⟨.position (.many (.reference "rule")), [("rule", .strong 0)]⟩
    let source := Source.ofString 0 "ßé1é1x"
    let c : Cursor := ⟨source, 2, ['é', '1', 'é', '1', 'x']⟩
    let rest : Cursor := ⟨source, 8, ['x']⟩
    let item (span : Span) : Value := .pair (.string "é1") (.span span)
    let spans : List Span := [⟨2, 5⟩, ⟨5, 8⟩]
    s.Each (Grammar.MakesNoSpans []) ∧ each.body.MakesNoSpans [] ∧ all.body.MakesNoSpans [] ∧ c.Valid ∧
      (s.parser each 4 c).ending = .value (.success (.list (spans.map item)) rest) ∧
      (∀ span ∈ spans, (span.slice? source.text).isSome) ∧ Tiles spans 2 8 ∧
      ∃ w cs, (s.parser all 4 c).ending = .value (.success (.pair w (.span ⟨2, 8⟩)) rest) ∧
        (⟨2, 8⟩ : Span).slice? source.text = some cs := by
  intro s each all source c rest item spans
  have htext : (Grammar.text "é1").MakesNoSpans [] := .of_children trivial (by simp) (by simp)
  have hrule : (Grammar.reference "rule").MakesNoSpans [] := .of_children trivial (by simp) (by simp)
  have hs : s.Each (Grammar.MakesNoSpans []) := System.Each.of_single htext []
  have heach : each.body.MakesNoSpans [] := by
    have hposition : (Grammar.position (.reference "rule")).MakesNoSpans [] :=
      .of_children trivial (by simp [hrule]) (by simp)
    exact .of_children trivial (by simp [each, hposition]) (by simp [each])
  have hall : all.body.MakesNoSpans [] := by
    have hmany : (Grammar.many (.reference "rule")).MakesNoSpans [] :=
      .of_children trivial (by simp [hrule]) (by simp)
    exact .of_children trivial (by simp [all, hmany]) (by simp [all])
  have hc : c.Valid := ⟨['ß'], rfl, rfl⟩
  have hsuccess : (s.parser each 4 c).ending = .value (.success (.list (spans.map item)) rest) := rfl
  have hsuccess' : (s.parser all 4 c).ending =
      .value (.success (.pair (.list [.string "é1", .string "é1"]) (.span ⟨2, 8⟩)) rest) := rfl
  rcases System.spans_delimit_what_was_parsed hs heach hc hsuccess with ⟨hspans, _, htiles⟩
  rcases System.spans_delimit_what_was_parsed hs hall hc hsuccess' with ⟨_, hwhole, _⟩
  rcases htiles _ (.inl rfl) with ⟨items, hitems, htiled⟩
  rcases hwhole _ rfl with ⟨w, cs, _, _, hw, hslice⟩
  have hsame : items.map Prod.snd = spans := by
    have hinjective : Function.Injective Value.withSpan := by
      rintro ⟨w, span⟩ ⟨w', span'⟩ heq
      cases heq
      rfl
    have hpairs : (spans.map fun span => (Value.string "é1", span)) = items :=
      hinjective.list_map (Value.list.inj hitems)
    rw [← hpairs]
    rfl
  have hheld : (Value.list (spans.map item)).spans = spans := rfl
  rw [hsame] at htiled
  rw [hheld] at hspans
  exact ⟨hs, heach, hall, hc, hsuccess, fun span hspan => (hspans span hspan).2.2.2, htiled, _, cs,
    hsuccess', hslice⟩

end CommittedParsing
