import CommittedParsing.Grammar.Syntax
import Mathlib.Data.Set.Image

/-!
# Parts of grammars

What a grammar is directly made of. To a binder belongs every grammar that it may go on with, and these may
be infinitely many, so the parts are a set. What is said of all parts, and of their parts, is said here once
for all properties of grammars.

Main statements:
* `Grammar.children_induction` — induction on grammars by what they are directly made of;
* `Grammar.Everywhere.part` — what holds everywhere in a grammar holds everywhere in its parts;
* `Grammar.RefersTo.mem_freeNames` — if binders capture what they go on with, every reference out of a
  grammar is one of its free names.
-/

namespace CommittedParsing.Grammar

/-- The grammars that a grammar is directly made of. -/
@[simp] def children : Grammar → Set Grammar
  | map body _ | filter body _ _ | many body | many1 body | attempt body | optional body
  | not body _ | label body _ | position body | delayed body | recursive _ body => {body}
  | or first second | seq2 first second _ | sepBy first second | chainLeft first second _
  | chainRight first second _ => {first, second}
  | seq3 first second third _ => {first, second, third}
  | bind first _ next => insert first {g | ∃ v, next v = .ok g}
  | choice _ alternatives => Set.range alternatives
  | satisfy _ _ | text _ | endOfInput | pure _ | custom _ | call _ | reference _ => ∅

/-- The parts that are run with the same names: all but the body of a rule. -/
@[simp] def parts : Grammar → Set Grammar
  | recursive _ _ => ∅
  | g => g.children

/-- The parts that are there before anything is read: all but what a binder goes on with. -/
@[simp] def written : Grammar → Set Grammar
  | bind first _ _ => {first}
  | g => g.children

/-- The parts that are written in a grammar are among those that it may go on with. -/
theorem children_of_parts {g part : Grammar} (h : part ∈ g.parts) : part ∈ g.children := by
  cases g <;> simp_all [parts]

/-- Induction on grammars by the grammars that they are directly made of. -/
theorem children_induction {motive : Grammar → Prop}
    (h : ∀ g : Grammar, (∀ part ∈ g.children, motive part) → motive g) (g : Grammar) : motive g := by
  induction g with
  | satisfy | text | endOfInput | pure | custom | call | reference => exact h _ (by simp)
  | map _ _ ih | filter _ _ _ ih | many _ ih | many1 _ ih | attempt _ ih | optional _ ih | not _ _ ih
  | label _ _ ih | position _ ih | delayed _ ih | recursive _ _ ih => exact h _ (by simpa using ih)
  | or _ _ ih ih' | seq2 _ _ _ ih ih' | sepBy _ _ ih ih' | chainLeft _ _ _ ih ih'
  | chainRight _ _ _ ih ih' => exact h _ (by simp [ih, ih'])
  | seq3 _ _ _ _ ih ih' ih'' => exact h _ (by simp [ih, ih', ih''])
  | choice _ _ ih => exact h _ (by simp [ih])
  | bind first captured next ih ih' =>
    refine h _ ?_
    rintro part (rfl | ⟨v, hv⟩)
    · exact ih
    · exact ih' v part hv

/-! ## Conditions everywhere in a grammar -/

/-- A condition holds of a grammar and of all its parts, what a binder may go on with and the bodies of
its rules included. -/
inductive Everywhere (P : Grammar → Prop) : Grammar → Prop where
  | intro {g : Grammar} : P g → (∀ part ∈ g.children, Everywhere P part) → Everywhere P g

namespace Everywhere

variable {P : Grammar → Prop} {g : Grammar}

theorem here (h : g.Everywhere P) : P g := by
  cases h with
  | intro hself _ => exact hself

/-- What holds everywhere in a grammar holds everywhere in its parts. -/
theorem part (h : g.Everywhere P) {part : Grammar} (hpart : part ∈ g.children) :
    part.Everywhere P := by
  cases h with
  | intro _ hparts => exact hparts part hpart

/-- It holds of what a binder goes on with, whatever the value is. -/
theorem next {first : Grammar} {captured : List String} {next : Value → Except Fault Grammar}
    (h : (bind first captured next).Everywhere P) {v : Value} (hv : next v = .ok g) :
    g.Everywhere P :=
  h.part (.inr ⟨v, hv⟩)

/-- What follows from the condition holds everywhere, too. -/
theorem imp {Q : Grammar → Prop} (h : g.Everywhere P) (himp : ∀ g, P g → Q g) : g.Everywhere Q := by
  induction h with
  | intro hself _ ih => exact .intro (himp _ hself) ih

end Everywhere

/-! ## References -/

/-- The grammar refers to a name that it does not bind itself. -/
inductive RefersTo (free : String) : Grammar → Prop where
  | reference : RefersTo free (.reference free)
  | part {g part : Grammar} : part ∈ g.parts → RefersTo free part → RefersTo free g
  | rule {name : String} {body : Grammar} : RefersTo free body → free ≠ name →
      RefersTo free (.recursive name body)

/-- If a binder, what it goes on with refers only to names that it has captured. -/
def Captures : Grammar → Prop
  | bind _ captured next => ∀ v g, next v = .ok g → ∀ free, g.RefersTo free → free ∈ captured
  | _ => True

variable {free : String} {g : Grammar}

@[simp] theorem refersTo_reference {name : String} :
    (reference name).RefersTo free ↔ free = name := by
  constructor
  · rintro (_ | ⟨hpart, _⟩)
    · rfl
    · exact hpart.elim
  · rintro rfl
    exact .reference

/-- A recursive grammar refers to what its body does, except to itself. -/
@[simp] theorem refersTo_recursive {name : String} {body : Grammar} :
    (recursive name body).RefersTo free ↔ body.RefersTo free ∧ free ≠ name := by
  constructor
  · rintro (_ | ⟨hpart, _⟩ | ⟨hbody, hne⟩)
    · exact hpart.elim
    · exact ⟨hbody, hne⟩
  · exact fun h => .rule h.1 h.2

/-- All but a reference and a rule refer to what their parts refer to. -/
theorem refersTo_iff_parts (hreference : ∀ name, g ≠ .reference name)
    (hrule : ∀ name body, g ≠ .recursive name body) :
    g.RefersTo free ↔ ∃ part ∈ g.parts, part.RefersTo free := by
  constructor
  · intro h
    cases h with
    | reference => exact absurd rfl (hreference free)
    | part hpart hrefers => exact ⟨_, hpart, hrefers⟩
    | rule _ _ => exact absurd rfl (hrule _ _)
  · rintro ⟨part, hpart, hrefers⟩
    exact .part hpart hrefers

/-- Where binders capture what they go on with, every reference out of a grammar is a free name of it. -/
theorem RefersTo.mem_freeNames (h : g.RefersTo free) (hg : g.Everywhere Captures) :
    free ∈ g.freeNames := by
  induction h with
  | reference => simp [freeNames]
  | rule _ hne ih => simp [freeNames, ih (hg.part (by simp)), hne]
  | @part g part hpart hrefers ih =>
    have hmem := ih (hg.part (children_of_parts hpart))
    cases g with
    -- the grammars that a binder makes are covered by the names that it captures
    | bind first captured next =>
      rcases hpart with rfl | ⟨v, hv⟩
      · exact List.mem_append_left _ hmem
      · exact List.mem_append_right _ (hg.here v part hv free hrefers)
    | choice count alternatives =>
      rcases hpart with ⟨i, rfl⟩
      exact List.mem_flatten_of_mem (List.mem_ofFn.2 ⟨i, rfl⟩) hmem
    | _ =>
      simp only [parts, children, Set.mem_singleton_iff, Set.mem_insert_iff, Set.mem_empty_iff_false]
        at hpart <;> grind [freeNames]

end CommittedParsing.Grammar
