import CommittedParsing.Proofs.References

/-!
# No look behind

A grammar that does not yield positions sees nothing of the text before the cursor. A run from within
a text and a run on the rest of that text alone do the same: only the positions differ, by the length
of what stands before.

Main statements:
* `Correspondence.behind` — a source and what is left of it behind some text;
* `System.does_not_look_behind` — the run from within a text is the run on its rest, moved.
-/

namespace CommittedParsing

open CommittedParsing.Parser Run Text

/-! ## Moving -/

/-- A failure so many bytes further on. -/
def Failure.moved (bytes : Nat) (e : Failure) : Failure :=
  ⟨e.diagnostics.map fun d => ⟨d.expected, bytes + d.position⟩, e.consumed⟩

/-- A cursor so many bytes further on in another source, with the same text left. -/
def Cursor.moved (source : Source) (bytes : Nat) (c : Cursor) : Cursor :=
  ⟨source, bytes + c.position, c.rest⟩

/-- An outcome so many bytes further on in another source; the value is the same. -/
def Outcome.moved {α : Type} (source : Source) (bytes : Nat) : Outcome α → Outcome α
  | .success a rest => .success a (rest.moved source bytes)
  | .failure e => .failure (e.moved bytes)

/-- Change the value of an ending. -/
def Ending.map {α β : Type} (f : α → β) : Ending α → Ending β
  | .value a => .value (f a)
  | .fault e => .fault e
  | .outOfFuel => .outOfFuel

/-! ## What corresponds -/

/-- What stands before does not change whether a cursor is at the end. -/
theorem Cursor.atEnd_moved {a : Source} {before : List Char} {c : Cursor}
    (h : a.text = before ++ c.source.text) :
    (c.moved a (byteLength before)).atEnd = c.atEnd := by
  have hsize : a.size = byteLength before + c.source.size := by
    rw [a.size_eq, c.source.size_eq, h, byteLength_append]
  simp only [Cursor.atEnd, Cursor.moved, hsize, Nat.add_le_add_iff_left]

/-- Moving a cursor and skipping text may be done in either order. -/
theorem Cursor.skip_moved (source : Source) (bytes : Nat) (c : Cursor) (matched rest : List Char) :
    (c.moved source bytes).skip matched rest = (c.skip matched rest).moved source bytes := by
  simp only [Cursor.moved, Cursor.skip, Nat.add_assoc]

/-- The places behind some text, and the places of the rest of the text alone. -/
def Correspondence.behind {a b : Source} {before : List Char} (h : a.text = before ++ b.text) :
    Correspondence where
  Cursors c c' := c'.source = b ∧ c = c'.moved a (byteLength before)
  Positions p p' := p = byteLength before + p'
  rest_eq hc := by rw [hc.2, Cursor.moved]
  atEnd_eq hc := by
    rcases hc with ⟨rfl, rfl⟩
    exact Cursor.atEnd_moved h
  position hc := by rw [hc.2, Cursor.moved]
  skip hc _ := by
    rcases hc with ⟨hsource, rfl⟩
    exact ⟨hsource, Cursor.skip_moved a _ _ _ _⟩
  eq_iff hp hq := by rw [hp, hq, Nat.add_left_cancel_iff]

section Behind

variable {a b : Source} {before : List Char} {h : a.text = before ++ b.text}

/-- Failures that correspond are the same failure, moved by the length of what stands before. -/
theorem Correspondence.Failures.eq_moved {e e' : Failure}
    (he : (Correspondence.behind h).Failures e e') : e = e'.moved (byteLength before) := by
  rcases e with ⟨diagnostics, consumed⟩
  rcases e' with ⟨diagnostics', consumed'⟩
  rcases he with ⟨hdiagnostics, rfl⟩
  dsimp only at hdiagnostics
  -- diagnostic by diagnostic
  have heq : diagnostics = diagnostics'.map fun d => ⟨d.expected, byteLength before + d.position⟩ := by
    induction hdiagnostics with
    | nil => rfl
    | @cons d d' _ _ hd _ ih =>
      rcases d with ⟨expected, position⟩
      rcases hd with ⟨hexpected, hposition⟩
      have hfirst : (⟨expected, position⟩ : Diagnostic) =
          ⟨d'.expected, byteLength before + d'.position⟩ :=
        congrArg₂ Diagnostic.mk hexpected hposition
      rw [List.map_cons, ih, hfirst]
  rw [heq]
  rfl

/-- Outcomes that correspond are the same outcome, moved as well. -/
theorem Correspondence.Outcomes.eq_moved {α : Type} {outcome outcome' : Outcome α}
    (houtcome : (Correspondence.behind h).Outcomes outcome outcome') :
    outcome = outcome'.moved a (byteLength before) := by
  cases houtcome with
  | success v hrest => rw [hrest.2, Outcome.moved]
  | failure he => rw [he.eq_moved, Outcome.moved]

/-- Each record of a stop stands at its old place, moved as well. -/
theorem Correspondence.Stops.eq_moved {stops stops' : List (Nat × Failure)}
    (hstops : List.Forall₂ (Correspondence.behind h).Stops stops stops') :
    stops = stops'.map fun stop => (byteLength before + stop.1, stop.2.moved (byteLength before)) := by
  induction hstops with
  | nil => rfl
  | cons hstop _ ih =>
    rw [List.map_cons, ← ih]
    exact congrArg₂ List.cons (Prod.ext hstop.position hstop.failure.eq_moved) rfl

/-- Runs that mirror each other there differ only in their positions. -/
theorem Run.MirroredBy.eq_moved {α : Type} {r r' : Run (Outcome α)}
    (hr : r.MirroredBy (.behind h) (Correspondence.behind h).Outcomes r')
    (hended : r.ending ≠ .outOfFuel) :
    r.ending = r'.ending.map (Outcome.moved a (byteLength before)) ∧
      r.stops =
        r'.stops.map fun stop => (byteLength before + stop.1, stop.2.moved (byteLength before)) := by
  rcases hr hended with ⟨hending, hstops⟩
  constructor
  · revert hending
    generalize r.ending = ending, r'.ending = ending'
    intro hending
    cases hending with
    | value houtcome =>
      rw [houtcome.eq_moved]
      rfl
    | fault e => rfl
  · exact Correspondence.Stops.eq_moved hstops

end Behind

/-! ## The two runs -/

/-- The grammar neither yields where it stands nor is it a function of the cursor. -/
def Grammar.IsPlaceless : Grammar → Prop
  | custom _ | position _ => False
  | _ => True

/-- A grammar that never asks where it is treats corresponding cursors alike, whatever the
correspondence. -/
theorem Grammar.IsPlaceless.respects {g : Grammar} (hg : g.IsPlaceless) (K : Correspondence) :
    K.Respects (fun _ => True) g := by
  cases g with
  | custom parse => exact hg.elim
  | position body => exact hg.elim
  | _ => exact trivial

/-- A run from behind some text ends as the run on the rest of the text alone, with the same value or
the same failure, at places that lie behind by the length of what stands before; and so do the
alternations that are stopped, one by one. -/
theorem System.does_not_look_behind {s : System} (hs : s.Everywhere Grammar.IsPlaceless)
    {d : Definition} (hd : d.body.Everywhere Grammar.IsPlaceless) {a b : Source}
    {before : List Char} (h : a.text = before ++ b.text) (n : Nat) :
    let within := s.parser d n ⟨a, byteLength before, b.text⟩
    let alone := s.parser d n (Cursor.start b)
    within.ending = alone.ending.map (Outcome.moved a (byteLength before)) ∧
      (alone.ending ≠ .outOfFuel →
        within.stops =
          alone.stops.map fun stop => (byteLength before + stop.1, stop.2.moved (byteLength before))) := by
  intro within alone
  let K := Correspondence.behind h
  have hstart : K.Cursors ⟨a, byteLength before, b.text⟩ (Cursor.start b) := ⟨rfl, rfl⟩
  -- the same system is compared with itself, in both directions
  have hparser : ∀ K : Correspondence, (s.parser d).MirroredBy K .larger (s.parser d) :=
    fun K => System.mirrored (hs.imp fun _ hg => hg.respects K) (hd.imp fun _ hg => hg.respects K)
  have hwithin : within.MirroredBy K K.Outcomes alone :=
    hparser K n n _ _ (Nat.le_refl n) hstart
  have halone : alone.MirroredBy K.flip K.flip.Outcomes within :=
    hparser K.flip n n _ _ (Nat.le_refl n) hstart
  by_cases hended : within.ending = .outOfFuel
  · -- the run on the rest cannot have ended either
    have hboth : alone.ending = .outOfFuel := by
      by_contra hnot
      exact (halone hnot).1.ended hended
    rw [hended, hboth]
    exact ⟨rfl, fun hnot => absurd rfl hnot⟩
  · rcases hwithin.eq_moved hended with ⟨hending, hstops⟩
    exact ⟨hending, fun _ => hstops⟩

/-- A list in brackets, parsed behind two characters of two bytes each: the alternative that it is stops
at a missing bracket. -/
theorem list_behind_four_bytes :
    let list : Grammar := .seq3 (.text "(") (.sepBy (.reference "term") (.text ",")) (.text ")")
      fun _ v _ => v
    let term : Grammar := .or list (.text "é")
    let s : System := ⟨⟨[.defined ⟨term, [("term", .strong 0)]⟩]⟩, []⟩
    let d : Definition := ⟨.reference "term", [("term", .strong 0)]⟩
    let before := ['ß', 'ß']
    let a := Source.ofString 0 "ßß(é,é"
    let b := Source.ofString 0 "(é,é"
    let within := s.parser d 3 ⟨a, byteLength before, b.text⟩
    let alone := s.parser d 3 (Cursor.start b)
    s.Everywhere Grammar.IsPlaceless ∧ d.body.Everywhere Grammar.IsPlaceless ∧
      a.text = before ++ b.text ∧
      alone.ending = .value (.failure ⟨[⟨"\")\"", 6⟩], true⟩) ∧
      within.ending = alone.ending.map (Outcome.moved a (byteLength before)) ∧
      (alone.ending ≠ .outOfFuel →
        within.stops =
          alone.stops.map fun stop => (byteLength before + stop.1, stop.2.moved (byteLength before))) := by
  intro list term s d before a b within alone
  have htext : ∀ text, (Grammar.text text).Everywhere Grammar.IsPlaceless :=
    fun text => .intro trivial (by simp)
  have hreference : (Grammar.reference "term").Everywhere Grammar.IsPlaceless :=
    .intro trivial (by simp)
  have hitems : (Grammar.sepBy (.reference "term") (.text ",")).Everywhere Grammar.IsPlaceless :=
    .intro trivial (by simp [hreference, htext])
  have hlist : list.Everywhere Grammar.IsPlaceless :=
    .intro trivial (by simp [list, htext, hitems])
  have hterm : term.Everywhere Grammar.IsPlaceless :=
    .intro trivial (by simp [term, hlist, htext])
  have hs : s.Everywhere Grammar.IsPlaceless := System.Each.of_single hterm _
  have hsource : a.text = before ++ b.text := rfl
  have hfails : alone.ending = .value (.failure ⟨[⟨"\")\"", 6⟩], true⟩) := rfl
  exact ⟨hs, hreference, hsource, hfails, System.does_not_look_behind hs hreference hsource 3⟩

end CommittedParsing
