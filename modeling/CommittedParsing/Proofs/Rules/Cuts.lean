import CommittedParsing.Proofs.Rules.ClosedPrograms

/-!
# Texts that are cut from their source

A cursor carries the text that is left. Where it has only its byte instead, the text is cut from the
source on every read, and to cut within a character or behind the end is a fault. Here programs are
read in that way. A program that is closed remains so, and what yielded values of a kind still does, since a
cut at a valid cursor gives the text that the cursor carries. So nothing is ever cut anywhere else.

Main statements:
* `Grammar.denote_withCuts` — at a valid cursor, what reads the text does what it did;
* `Program.HasKinds.withCuts`, `Program.Closed.withCuts` — what is asked of a program is kept.
-/

namespace CommittedParsing

open CommittedParsing.Parser Run

/-- The text from the byte of the cursor on, cut from the source. -/
def Cursor.cut (e : Fault) (c : Cursor) : Except Fault (List Char) :=
  match Text.splitAtByte? c.position c.source.text with
  | some parts => .ok parts.2
  | none => .error e

/-- At a valid cursor the text can be cut, and what is left is what the cursor has. -/
theorem Cursor.Valid.cut {c : Cursor} (h : c.Valid) (e : Fault) : c.cut e = .ok c.rest := by
  obtain ⟨before, hsplit⟩ := h.splitAtByte?
  rw [Cursor.cut, hsplit]

/-! ## Grammars -/

namespace Grammar

mutual

/-- The grammar in which whatever reads the text cuts it from the source. -/
def withCuts (e : Fault) : Grammar → Grammar
  | satisfy accepts description => custom fun c => (c.cut e).map fun
    | ch :: rest =>
      if accepts ch then .success (.char ch) (c.skip [ch] rest)
      else .failure (Failure.expected description c.position)
    | [] => .failure (Failure.expected description c.position)
  | text expected => custom fun c => (c.cut e).map fun cs =>
    match dropPrefix? expected.toList cs with
    | some rest => .success (.string expected) (c.skip expected.toList rest)
    | none => .failure (Failure.expected ("\"" ++ expected ++ "\"") c.position)
  | endOfInput => endOfInput
  | pure value => pure value
  | custom parse => custom parse
  | map body change => map (body.withCuts e) change
  | filter body accepts description => filter (body.withCuts e) accepts description
  | bind first captured next => bind (first.withCuts e) captured fun v => withCutsMade e (next v)
  | many body => many (body.withCuts e)
  | many1 body => many1 (body.withCuts e)
  | or first second => or (first.withCuts e) (second.withCuts e)
  | choice count alternatives => choice count fun i => (alternatives i).withCuts e
  | attempt body => attempt (body.withCuts e)
  | seq2 first second combine => seq2 (first.withCuts e) (second.withCuts e) combine
  | seq3 first second third combine =>
    seq3 (first.withCuts e) (second.withCuts e) (third.withCuts e) combine
  | optional body => optional (body.withCuts e)
  | not body description => not (body.withCuts e) description
  | sepBy item separator => sepBy (item.withCuts e) (separator.withCuts e)
  | label body description => label (body.withCuts e) description
  | position body => position (body.withCuts e)
  | chainLeft operand operator fold => chainLeft (operand.withCuts e) (operator.withCuts e) fold
  | chainRight operand operator fold => chainRight (operand.withCuts e) (operator.withCuts e) fold
  | delayed body => delayed (body.withCuts e)
  | call name => call name
  | recursive name body => recursive name (body.withCuts e)
  | reference name => reference name

/-- The same in what a binder goes on with. -/
def withCutsMade (e : Fault) : Except Fault Grammar → Except Fault Grammar
  | .ok g => .ok (g.withCuts e)
  | .error f => .error f

end

variable {e : Fault} {g : Grammar}

/-- What a binder goes on with was made before the cuts. -/
theorem withCutsMade_eq_ok_iff {made : Except Fault Grammar} :
    withCutsMade e made = .ok g ↔ ∃ before, made = .ok before ∧ before.withCuts e = g := by
  cases made <;> simp [withCutsMade]

/-- At a valid cursor, what reads the text does the same as with the text that the cursor carries. -/
theorem denote_withCuts (hleaf : ¬ g.children.Nonempty) (call : String → Scope → Parser Value)
    (scope : Scope) (n : Nat) {c : Cursor} (hc : c.Valid) :
    (g.withCuts e).denote call scope n c = g.denote call scope n c := by
  -- only what reads a character or a text is cut; the other leaves stay as they are
  cases g with
  | satisfy accepts description =>
    simp only [withCuts, denote, ofFunction, hc.cut, Except.map, Parser.map]
    cases hrest : c.rest with
    | nil =>
      rw [satisfy_eq_of_nil hrest]
      rfl
    | cons ch rest =>
      rw [satisfy_eq_of_cons hrest]
      dsimp only
      split <;> rfl
  | text expected =>
    simp only [withCuts, denote, ofFunction, hc.cut, Except.map, Parser.map, Parser.text]
    cases dropPrefix? expected.toList c.rest with
    | none => rfl
    | some rest => rfl
  | endOfInput | pure | custom | call | reference => rfl
  | choice count alternatives =>
    cases count with
    | zero => rfl
    | succ count => exact absurd ⟨_, 0, rfl⟩ hleaf
  | _ => simp at hleaf

/-- The parts of a grammar with cuts are its parts with cuts. -/
theorem exists_of_mem_parts_withCuts {part : Grammar} (hpart : part ∈ (g.withCuts e).parts) :
    ∃ before ∈ g.parts, before.withCuts e = part := by
  cases g with
  | bind first captured next =>
    rcases hpart with rfl | ⟨v, hmade⟩
    · exact ⟨first, .inl rfl, rfl⟩
    · obtain ⟨before, hv, rfl⟩ := withCutsMade_eq_ok_iff.1 hmade
      exact ⟨before, .inr ⟨v, hv⟩, rfl⟩
  | choice count alternatives =>
    obtain ⟨i, rfl⟩ := hpart
    exact ⟨alternatives i, ⟨i, rfl⟩, rfl⟩
  | _ =>
    simp only [withCuts, parts, children, Set.mem_singleton_iff, Set.mem_insert_iff,
      Set.mem_empty_iff_false] at hpart ⊢ <;> grind

/-- A function that begins with a cut yields what it comes to on the text that is left. -/
theorem hasKind_custom_cut {κ : Kinds} {I : Kind} (e : Fault) {read : Cursor → List Char → Outcome Value}
    (hread : ∀ c : Cursor, c.Valid → (read c c.rest).Proceeds I c) :
    (custom fun c => (c.cut e).map (read c)).HasKind κ I := by
  refine .custom ?_
  intro c hc
  refine ⟨read c c.rest, ?_, hread c hc⟩
  rw [hc.cut]
  rfl

/-- With cuts a grammar yields what it yielded without. -/
theorem HasKind.withCuts {κ : Kinds} {I : Kind} (h : g.HasKind κ I) (e : Fault) :
    (g.withCuts e).HasKind κ I := by
  -- what reads becomes a function that cuts, and has to be given its kind anew
  induction h with
  | satisfy hchar =>
    apply hasKind_custom_cut
    intro c hc
    cases hrest : c.rest with
    | nil => exact trivial
    | cons ch rest =>
      have hleads : c.LeadsTo (c.skip [ch] rest) := .of_reads hc (.skip hrest)
      dsimp only
      split
      next haccepts => exact ⟨hchar _ _ ch hleads.forward haccepts, hleads⟩
      next => exact trivial
  | @text _ expected htext =>
    apply hasKind_custom_cut
    intro c hc
    split
    next rest hdrop =>
      have hrest : c.rest = expected.toList ++ rest := dropPrefix?_eq_some_iff.1 hdrop
      have hleads : c.LeadsTo (c.skip expected.toList rest) := .of_reads hc (.skip hrest)
      exact ⟨htext _ _ hleads.forward, hleads⟩
    next => exact trivial
  | bind _ hnext _ hresult ihFirst ihMade =>
    refine .bind ihFirst ?_ ?_ hresult
    · intro i j v hv
      obtain ⟨made, hmade⟩ := hnext i j v hv
      exact ⟨made.withCuts e, withCutsMade_eq_ok_iff.2 ⟨made, hmade, rfl⟩⟩
    · intro i j v g hv hg
      obtain ⟨made, hmade, rfl⟩ := withCutsMade_eq_ok_iff.1 hg
      exact ihMade i j v made hv hmade
  -- cutting goes through all the other forms
  | endOfInput hend => exact .endOfInput hend
  | pure hv => exact .pure hv
  | custom hparse => exact .custom hparse
  | map _ hchange ih => exact .map ih hchange
  | filter _ haccepts ih => exact .filter ih haccepts
  | many _ hitems ih => exact .many ih hitems
  | many1 _ hitems ih => exact .many1 ih hitems
  | or _ _ ihFirst ihSecond => exact .or ihFirst ihSecond
  | choice _ ih => exact .choice ih
  | attempt _ ih => exact .attempt ih
  | seq2 _ _ hcombine ihFirst ihSecond => exact .seq2 ihFirst ihSecond hcombine
  | seq3 _ _ _ hcombine ihFirst ihSecond ihThird => exact .seq3 ihFirst ihSecond ihThird hcombine
  | optional _ hsome hnone ih => exact .optional ih hsome hnone
  | not _ hunit ih => exact .not ih hunit
  | sepBy _ _ hitems ihItem ihSeparator => exact .sepBy ihItem ihSeparator hitems
  | label _ ih => exact .label ih
  | position _ hspan ih => exact .position ih hspan
  | chainLeft _ _ hfirst hfold ihOperand ihOperator =>
    exact .chainLeft ihOperand ihOperator hfirst hfold
  | chainRight _ _ hlast hfold ihOperand ihOperator =>
    exact .chainRight ihOperand ihOperator hlast hfold
  | delayed _ ih => exact .delayed ih
  | call hcalled => exact .call hcalled
  | recursive _ hrule ih => exact .recursive ih hrule
  | reference hrule => exact .reference hrule

end Grammar

/-! ## Programs -/

namespace Program

/-- The program in which whatever reads the text cuts it from the source. -/
def withCuts (e : Fault) (p : Program) : Program where
  rules := p.rules.map fun (name, body) => (name, body.map (Grammar.withCuts e))
  library := p.library.map fun (name, g) => (name, g.withCuts e)
  grammar := p.grammar.withCuts e

variable {p : Program} {e : Fault} {bound : List String} {g : Grammar} {name : String}

theorem names_withCuts (e : Fault) (p : Program) : (p.withCuts e).names = p.names := by
  simp [names, withCuts, Function.comp_def]

/-- The bodies are cut one by one. -/
theorem bodies_withCuts (e : Fault) (p : Program) :
    (p.withCuts e).bodies = p.bodies.map fun (name, body) => (name, body.withCuts e) := by
  simp only [bodies, withCuts, List.filterMap_map, List.map_filterMap, Function.comp_def,
    Option.map_map]

/-- The library is cut grammar by grammar. -/
theorem lookup_withCuts (e : Fault) (p : Program) (name : String) :
    (p.withCuts e).library.lookup name = (p.library.lookup name).map (Grammar.withCuts e) := by
  unfold withCuts
  induction p.library with
  | nil => rfl
  | cons entry library ih =>
    obtain ⟨key, g⟩ := entry
    simp only [List.map_cons, List.lookup_cons]
    cases name == key with
    | true => rfl
    | false => exact ih

/-- What is read in a program with cuts is what is read in the program, with cuts. -/
theorem Reaches.of_withCuts (h : (p.withCuts e).Reaches bound g) :
    ∃ g', p.Reaches bound g' ∧ g = g'.withCuts e := by
  induction h with
  | grammar => exact ⟨p.grammar, .grammar, rfl⟩
  | rule hbody =>
    rw [bodies_withCuts] at hbody
    obtain ⟨⟨name, body⟩, hmem, heq⟩ := List.mem_map.1 hbody
    cases heq
    exact ⟨body, .rule hmem, rfl⟩
  | part _ hpart ih =>
    obtain ⟨g, hreach, rfl⟩ := ih
    obtain ⟨part, hmem, rfl⟩ := Grammar.exists_of_mem_parts_withCuts hpart
    exact ⟨part, hreach.part hmem, rfl⟩
  | body _ ih =>
    -- a rule with cuts was a rule before, and so it is with calls and references below
    obtain ⟨g, hreach, heq⟩ := ih
    cases g <;> cases heq
    exact ⟨_, hreach.body, rfl⟩
  | called _ hfound ih =>
    obtain ⟨g, hreach, heq⟩ := ih
    cases g <;> cases heq
    rw [lookup_withCuts] at hfound
    obtain ⟨body, hbody, rfl⟩ := Option.map_eq_some_iff.1 hfound
    exact ⟨body, hreach.called hbody, rfl⟩

/-- Cutting closes no name off and opens none. -/
theorem Closed.withCuts (h : p.Closed) (e : Fault) : (p.withCuts e).Closed where
  bound hreach := by
    -- what is reached after cutting is the cut of something that was reached before
    obtain ⟨g, hreach, heq⟩ := hreach.of_withCuts
    cases g <;> cases heq
    rw [names_withCuts]
    exact h.bound hreach
  found hreach := by
    obtain ⟨g, hreach, heq⟩ := hreach.of_withCuts
    cases g <;> cases heq
    obtain ⟨g, hg⟩ := h.found hreach
    exact ⟨g.withCuts e, by rw [lookup_withCuts, hg]; rfl⟩
  defined_once := by
    have hnames : (p.withCuts e).bodies.map Prod.fst = p.bodies.map Prod.fst := by
      simp [bodies_withCuts, Function.comp_def]
    rw [hnames]
    exact h.defined_once

/-- Cutting changes none of the values, so the kinds stay. -/
theorem HasKinds.withCuts {κ : Kinds} {result : Kind} (h : p.HasKinds κ result) (e : Fault) :
    (p.withCuts e).HasKinds κ result where
  grammar := h.grammar.withCuts e
  rules name body hbody := by
    rw [bodies_withCuts] at hbody
    obtain ⟨⟨name, body⟩, hmem, heq⟩ := List.mem_map.1 hbody
    cases heq
    exact (h.rules name body hmem).withCuts e
  called bound name g hreach hfound := by
    obtain ⟨g, hreach, heq⟩ := hreach.of_withCuts
    cases g <;> cases heq
    rw [lookup_withCuts] at hfound
    obtain ⟨body, hbody, rfl⟩ := Option.map_eq_some_iff.1 hfound
    exact (h.called _ _ body hreach hbody).withCuts e

/-- A name that is referred to after cutting was referred to before. -/
theorem Refers.of_withCuts (h : (p.withCuts e).Refers name) : p.Refers name := by
  obtain ⟨hname, bound, hreach, hbound⟩ := h
  obtain ⟨g, hreach, heq⟩ := hreach.of_withCuts
  cases g <;> cases heq
  rw [names_withCuts] at hname
  exact ⟨hname, bound, hreach, hbound⟩

/-- A name without a body after cutting had none before. -/
theorem LacksBody.of_withCuts (h : (p.withCuts e).LacksBody name) : p.LacksBody name := by
  obtain ⟨hname, hlacks⟩ := h
  rw [names_withCuts] at hname
  rw [bodies_withCuts] at hlacks
  exact ⟨hname, fun body hbody => hlacks (body.withCuts e) (List.mem_map_of_mem hbody)⟩

end Program

end CommittedParsing
