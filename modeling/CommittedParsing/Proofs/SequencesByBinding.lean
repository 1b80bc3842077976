import CommittedParsing.Parser.Sequence

/-!
# Sequences as bindings

Whatever is put in order, with a pair, a combination of two or three values, delimiters or a trailer, is a
binding of one parser after the other. Bindings may be grouped either way, and so may sequences: how their
values are combined follows the brackets, but what is read, and how it fails, is what the parsers do one
after the other.

The one thing that is not as with functions is the commit. To bind behind a value that was not parsed is
to commit: the value counts as a first success.

Main statements:
* `Parser.bind_pure_eq`, `Parser.pure_bind_eq_commit` — values, commits and bindings;
* `Parser.seq3_eq_bind` — a sequence of three is a binding in a binding;
* `Parser.Grouping.reads_in_order` — a bracketed part of a sequence, and what is behind it;
* `Parser.sequences_are_bindings` — all the laws together.
-/

namespace CommittedParsing.Parser

open Run

variable {α β γ δ : Type}

/-! ## Values, commits and bindings -/

/-- Going on with nothing is not going on. -/
theorem andThen_succeed (r : Run (Outcome α)) : (r.andThen fun a rest => succeed a rest) = r := by
  cases r using outcome_cases with
  | success records a rest => simp [andThen, bind_value, succeed, prepend, pure, Run.pure]
  | failure records e => simp [andThen, bind_value, fail, prepend, pure, Run.pure]
  | fault records e => rfl
  | outOfFuel records => rfl

theorem bind_pure_eq (p : Parser α) : p.bind Parser.pure = p := by
  funext n c
  exact andThen_succeed (p n c)

/-- A value that was not parsed counts as a first success. -/
theorem pure_bind_eq_commit (a : α) (f : α → Parser β) (n : Nat) (c : Cursor) :
    (Parser.pure a).bind f n c = (f a n c).commit := rfl

theorem map_eq_bind (f : α → β) (p : Parser α) : p.map f = p.bind fun a => Parser.pure (f a) := rfl

/-- A change of the value in front of a binder is made by the binder. -/
theorem map_bind (f : α → β) (p : Parser α) (g : β → Parser γ) :
    (p.map f).bind g = p.bind fun a => g (f a) := by
  funext n c
  simp only [Parser.map, Parser.bind, Run.andThen_assoc, Run.succeed_andThen]

/-- A change behind a binder is made by what the binder goes on with. -/
theorem bind_map (p : Parser α) (f : α → Parser β) (g : β → γ) :
    (p.bind f).map g = p.bind fun a => (f a).map g := by
  simp only [map_eq_bind, bind_bind]

/-! ## Sequences -/

/-- Three parsers in sequence are two binders and a change. -/
theorem seq3_eq_bind (p : Parser α) (q : Parser β) (r : Parser γ) (combine : α → β → γ → δ) :
    seq3 p q r combine = p.bind fun a => q.bind fun b => r.map (combine a b) := by
  funext n c
  have hcommit : ∀ rest, ((r n rest).mapFailure Failure.commit).mapFailure Failure.commit =
      (r n rest).mapFailure Failure.commit := fun rest => Run.commit_commit _
  simp only [seq3, Parser.bind, map, Run.commit, Run.mapFailure_andThen, Run.mapFailure_succeed,
    hcommit]

/-! ## Parsers in order -/

/-- Something for each of several types. -/
def Each (F : Type → Type) : List Type → Type
  | [] => Unit
  | τ :: τs => F τ × Each F τs

namespace Each

variable {F : Type → Type} {τ : Type} {τs : List Type}

/-- For no type, nothing. -/
def nil : Each F [] := ()

/-- Something for the first type, and for each of the others. -/
def cons (x : F τ) (xs : Each F τs) : Each F (τ :: τs) := (x, xs)

/-- What is there for the first type. -/
def head (xs : Each F (τ :: τs)) : F τ := xs.1

/-- What is there for the other types. -/
def tail (xs : Each F (τ :: τs)) : Each F τs := xs.2

@[simp] theorem head_cons (x : F τ) (xs : Each F τs) : (cons x xs).head = x := rfl

@[simp] theorem tail_cons (x : F τ) (xs : Each F τs) : (cons x xs).tail = xs := rfl

end Each

/-- Values of the types. -/
abbrev Values : List Type → Type := Each fun τ => τ

/-- The parsers one after the other, with the values of all of them. -/
def inOrder : {τs : List Type} → Each Parser τs → Parser (Values τs)
  | [], _ => Parser.pure .nil
  | _ :: _, ps => ps.head.bind fun a => (inOrder ps.tail).map (Each.cons a)

/-! ## Brackets -/

/-- A way to put brackets around the first of several parsers, up to those of the types `υs`, and to
combine what they read to a value of type `τ`. -/
inductive Grouping : List Type → List Type → Type → Type 1 where
  /-- The first parser alone. -/
  | single {τ : Type} {υs : List Type} : Grouping (τ :: υs) υs τ
  | and {ρs σs τs : List Type} {σ τ : Type} : Grouping ρs σs σ → Grouping σs τs τ →
      Grouping ρs τs (σ × τ)
  | seq2 {ρs σs τs : List Type} {σ τ υ : Type} : Grouping ρs σs σ → Grouping σs τs τ →
      (σ → τ → υ) → Grouping ρs τs υ
  | seq3 {ρs σs τs υs : List Type} {σ τ υ ω : Type} : Grouping ρs σs σ → Grouping σs τs τ →
      Grouping τs υs υ → (σ → τ → υ → ω) → Grouping ρs υs ω

namespace Grouping

variable {F : Type → Type} {ρs σs τs υs : List Type} {σ τ υ ω : Type}

/-- What is behind the brackets. -/
def others : {τs υs : List Type} → {τ : Type} → Grouping τs υs τ → Each F τs → Each F υs
  | _, _, _, single, xs => xs.tail
  | _, _, _, and g h, xs => h.others (g.others xs)
  | _, _, _, seq2 g h _, xs => h.others (g.others xs)
  | _, _, _, seq3 g h k _, xs => k.others (h.others (g.others xs))

/-- The sequence in these brackets. -/
def parser : {τs υs : List Type} → {τ : Type} → Grouping τs υs τ → Each Parser τs → Parser τ
  | _, _, _, single, ps => ps.head
  | _, _, _, and g h, ps => Parser.and (g.parser ps) (h.parser (g.others ps))
  | _, _, _, seq2 g h combine, ps => Parser.seq2 (g.parser ps) (h.parser (g.others ps)) combine
  | _, _, _, seq3 g h k combine, ps =>
    Parser.seq3 (g.parser ps) (h.parser (g.others ps)) (k.parser (h.others (g.others ps))) combine

/-- What these brackets make of the values. -/
def value : {τs υs : List Type} → {τ : Type} → Grouping τs υs τ → Values τs → τ
  | _, _, _, single, xs => xs.head
  | _, _, _, and g h, xs => (g.value xs, h.value (g.others xs))
  | _, _, _, seq2 g h combine, xs => combine (g.value xs) (h.value (g.others xs))
  | _, _, _, seq3 g h k combine, xs =>
    combine (g.value xs) (h.value (g.others xs)) (k.value (h.others (g.others xs)))

/-- The sequence in brackets and the parsers behind it read what the parsers read in order, whatever is
made of the values. -/
def ReadsInOrder (g : Grouping τs υs τ) : Prop :=
  ∀ (α : Type) (make : τ → Values υs → α) (ps : Each Parser τs),
    ((inOrder ps).map fun xs => make (g.value xs) (g.others xs)) =
      (g.parser ps).bind fun a => (inOrder (g.others ps)).map (make a)

/-- One parser reads its part, and only that. -/
theorem readsInOrder_single : (single : Grouping (τ :: υs) υs τ).ReadsInOrder := by
  intro α make ps
  simp only [inOrder, bind_map, map_map, parser, value, others, Each.head_cons, Each.tail_cons]

/-- Two groupings in sequence read in order if each of them does. -/
theorem ReadsInOrder.seq2 {g : Grouping ρs σs σ} {h : Grouping σs τs τ} (hg : g.ReadsInOrder)
    (hh : h.ReadsInOrder) (combine : σ → τ → υ) : (Grouping.seq2 g h combine).ReadsInOrder := by
  intro α make ps
  let p := g.parser ps
  let q := h.parser (g.others ps)
  let rest := inOrder (h.others (g.others ps))
  -- to the first part, the second part is among the parsers behind it
  have hfirst := hg α (fun a xs => make (combine a (h.value xs)) (h.others xs)) ps
  have hsecond : ∀ a, ((inOrder (g.others ps)).map fun xs =>
      make (combine a (h.value xs)) (h.others xs)) = q.bind fun b => rest.map (make (combine a b)) :=
    fun a => hh α (fun b xs => make (combine a b) xs) (g.others ps)
  calc ((inOrder ps).map fun xs =>
          make (combine (g.value xs) (h.value (g.others xs))) (h.others (g.others xs)))
    _ = p.bind fun a => (inOrder (g.others ps)).map fun xs =>
          make (combine a (h.value xs)) (h.others xs) := hfirst
    _ = p.bind fun a => q.bind fun b => rest.map (make (combine a b)) := by simp only [hsecond]
    _ = (Parser.seq2 p q combine).bind fun c => rest.map (make c) := by
        simp only [seq2_eq_bind, bind_bind, map_bind]

theorem ReadsInOrder.seq3 {g : Grouping ρs σs σ} {h : Grouping σs τs τ} {k : Grouping τs υs υ}
    (hg : g.ReadsInOrder) (hh : h.ReadsInOrder) (hk : k.ReadsInOrder) (combine : σ → τ → υ → ω) :
    (Grouping.seq3 g h k combine).ReadsInOrder := by
  -- a sequence of three is one of two, the second of which is a pair
  have hpair := hg.seq2 (hh.seq2 hk Prod.mk) fun a bd => combine a bd.1 bd.2
  intro α make ps
  have hsame : (Grouping.seq3 g h k combine).parser ps =
      (Grouping.seq2 g (Grouping.seq2 h k Prod.mk) fun a bd => combine a bd.1 bd.2).parser ps := by
    simp only [parser, seq3_eq_bind, seq2_eq_bind, bind_map, map_map]
  rw [hsame]
  exact hpair α make ps

/-- Every grouping reads its parsers in order, however it nests them. -/
theorem reads_in_order (g : Grouping τs υs τ) : g.ReadsInOrder := by
  induction g with
  | single => exact readsInOrder_single
  | and g h ihg ihh => exact ihg.seq2 ihh Prod.mk
  | seq2 g h combine ihg ihh => exact ihg.seq2 ihh combine
  | seq3 g h k combine ihg ihh ihk => exact ihg.seq3 ihh ihk combine

/-- Brackets around all of the parsers change nothing but what is made of the values. -/
theorem parser_eq (g : Grouping τs [] τ) (ps : Each Parser τs) :
    g.parser ps = (inOrder ps).map g.value := by
  have hparts := g.reads_in_order τ (fun a _ => a) ps
  rw [hparts]
  exact (bind_pure_eq (g.parser ps)).symm

end Grouping

/-! ## The laws -/

/-- A binding fails uncommitted exactly as its first parser does. -/
theorem ending_bind_eq_uncommitted_iff (p : Parser α) (f : α → Parser β) (n : Nat) (c : Cursor)
    (ds : List Diagnostic) :
    (p.bind f n c).ending = .value (.failure ⟨ds, false⟩) ↔
      (p n c).ending = .value (.failure ⟨ds, false⟩) := by
  rw [Parser.bind, ending_andThen_eq_failure_iff]
  constructor
  · rintro (hfirst | ⟨a, rest, _, hlater⟩)
    · exact hfirst
    · rw [Run.commit, ending_mapFailure_eq_failure_iff] at hlater
      obtain ⟨e, _, he⟩ := hlater
      cases he
  · exact Or.inl

/-- Bindings may be grouped either way. To bind a value behind a parser changes nothing, and to bind
behind a value is to commit. All sequences are bindings of their parts in order. Hence, of one or more
parsers in order, any brackets make a parser that reads the parsers in order and then combines their values
as the brackets do; it fails uncommitted exactly as the first parser does. -/
theorem sequences_are_bindings {τ υ : Type} {υs : List Type} (p : Parser α) (q : Parser β)
    (r : Parser γ) (f : α → Parser β) (g : β → Parser γ) (a : α) (combine : α → β → γ)
    (combine' : α → β → γ → δ) (grouping : Grouping (υ :: υs) [] τ)
    (ps : Each Parser (υ :: υs)) :
    (p.bind f).bind g = (p.bind fun a => (f a).bind g) ∧
      p.bind Parser.pure = p ∧
      (∀ n c, (Parser.pure a).bind f n c = (f a n c).commit) ∧
      and p q = (p.bind fun a => q.bind fun b => Parser.pure (a, b)) ∧
      seq2 p q combine = (p.bind fun a => q.bind fun b => Parser.pure (combine a b)) ∧
      seq3 p q r combine' =
        (p.bind fun a => q.bind fun b => r.bind fun d => Parser.pure (combine' a b d)) ∧
      surround p q r = (p.bind fun _ => q.bind fun b => r.bind fun _ => Parser.pure b) ∧
      skipTrailing p q = (p.bind fun a => q.bind fun _ => Parser.pure a) ∧
      grouping.parser ps = (inOrder ps).map grouping.value ∧
      ∀ n c ds, (grouping.parser ps n c).ending = .value (.failure ⟨ds, false⟩) ↔
        (ps.head n c).ending = .value (.failure ⟨ds, false⟩) := by
  have hgrouping := grouping.parser_eq ps
  refine ⟨bind_bind p f g, bind_pure_eq p, pure_bind_eq_commit a f, seq2_eq_bind p q _, seq2_eq_bind p q _,
    seq3_eq_bind p q r _, seq3_eq_bind p q r _, seq2_eq_bind p q _, hgrouping, ?_⟩
  intro n c ds
  -- in order, all the parsers but the first stand behind a binding
  rw [hgrouping, inOrder, bind_map]
  exact ending_bind_eq_uncommitted_iff ps.head _ n c ds

end CommittedParsing.Parser
