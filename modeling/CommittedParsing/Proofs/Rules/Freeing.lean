import CommittedParsing.Rules.Lifetime
import Mathlib.Data.Finset.Card
import Mathlib.Data.Finset.Range
import Mathlib.Logic.Relation

/-!
# Freeing, one rule at a time

A store is swept in rounds, each of which frees all rules that nothing keeps at that moment. Here a
sweep is shown to be what counting references does: rules are released one at a time, each when the
last that kept it is gone, and releasing a rule lets go of what its definition kept. The order makes
no difference.

The rules that survive are those of the largest set of living rules in which each is kept by a root
or by the definition of a rule of the set. Rules that keep one another in a circle are such a set on
their own, so that no reachability from the roots describes what survives.

Main statements:
* `Store.SelfKept.state_sweep` — a set of rules that keeps itself survives;
* `Store.sweep_eq_iff` — a sweep is any sequence of releases that cannot go on;
* `Store.NoneDangles.balanced_sweep` — after a sweep exactly those rules are alive that are kept.
-/

namespace CommittedParsing.Store

open Relation (ReflTransGen)

variable {s t u : Store} {roots : List Nat} {rule : Nat} {S : Nat → Prop}

/-! ## What keeps a rule -/

/-- A rule is kept by a root, or by the definition of a living rule. -/
def Kept (s : Store) (roots : List Nat) (rule : Nat) : Prop :=
  rule ∈ roots ∨ ∃ owner d, s.state owner = .defined d ∧ rule ∈ d.kept

/-- Every living rule is kept. -/
def Settled (s : Store) (roots : List Nat) : Prop :=
  ∀ rule, s.state rule ≠ .freed → s.Kept roots rule

/-- Living rules, each of them kept by a root or by the definition of a rule among them. -/
def SelfKept (s : Store) (roots : List Nat) (S : Nat → Prop) : Prop :=
  ∀ rule, S rule → s.state rule ≠ .freed ∧
    (rule ∈ roots ∨ ∃ owner d, S owner ∧ s.state owner = .defined d ∧ rule ∈ d.kept)

/-- A rule is kept inside the store by another that is written and names it strongly. -/
theorem mem_keptInside_iff :
    rule ∈ s.keptInside ↔ ∃ owner d, s.state owner = .defined d ∧ rule ∈ d.kept := by
  simp only [keptInside, List.mem_flatMap]
  constructor
  · rintro ⟨x, hx, hrule⟩
    rcases List.getElem_of_mem hx with ⟨owner, hlt, rfl⟩
    cases hstate : s.states[owner] with
    | defined d =>
      rw [hstate] at hrule
      exact ⟨owner, d, by simp [state, hlt, hstate], hrule⟩
    | declared => simp [hstate, RuleState.kept] at hrule
    | freed => simp [hstate, RuleState.kept] at hrule
  · rintro ⟨owner, d, hstate, hrule⟩
    have hlt : owner < s.states.length := lt_size_of_state_ne_freed (by simp [hstate])
    refine ⟨s.states[owner], List.getElem_mem hlt, ?_⟩
    have hdefined : s.states[owner] = .defined d := by simpa [state, hlt] using hstate
    rw [hdefined]
    exact hrule

theorem isLoose_eq_true_iff : s.isLoose roots rule = true ↔ ¬ s.Kept roots rule := by
  simp [isLoose, Kept, mem_keptInside_iff]

/-- Where nothing is left to free, what lives keeps itself. -/
theorem Settled.selfKept (h : t.Settled roots) : t.SelfKept roots fun r => t.state r ≠ .freed := by
  intro r hr
  refine ⟨hr, ?_⟩
  rcases h r hr with hroot | ⟨owner, d, howner, hkept⟩
  · exact .inl hroot
  · exact .inr ⟨owner, d, by simp [howner], howner, hkept⟩

/-- Only the states of the set itself matter. -/
theorem SelfKept.congr (h : s.SelfKept roots S) (hstate : ∀ r, S r → t.state r = s.state r) :
    t.SelfKept roots S := by
  intro r hr
  rcases h r hr with ⟨hliving, hkept⟩
  refine ⟨by rw [hstate r hr]; exact hliving, ?_⟩
  rcases hkept with hroot | ⟨owner, d, hmem, howner, hkept⟩
  · exact .inl hroot
  · exact .inr ⟨owner, d, hmem, by rw [hstate owner hmem]; exact howner, hkept⟩

theorem SelfKept.kept (h : s.SelfKept roots S) (hrule : S rule) : s.Kept roots rule := by
  rcases (h rule hrule).2 with hroot | ⟨owner, d, _, howner, hkept⟩
  · exact .inl hroot
  · exact .inr ⟨owner, d, howner, hkept⟩

/-! ## Freeing some of the rules -/

/-- The same rules, some more of which may be freed. -/
structure Frees (s t : Store) : Prop where
  size : t.size = s.size
  state : ∀ rule, t.state rule = .freed ∨ t.state rule = s.state rule

namespace Frees

theorem refl (s : Store) : Frees s s := ⟨rfl, fun _ => .inr rfl⟩

theorem trans (h : Frees s t) (h' : Frees t u) : Frees s u where
  size := h'.size.trans h.size
  state rule := by
    rcases h'.state rule with hfreed | heq
    · exact .inl hfreed
    · rw [heq]
      exact h.state rule

/-- What lives after a freeing is as it was before. -/
theorem state_of_ne_freed (h : Frees s t) (hliving : t.state rule ≠ .freed) :
    t.state rule = s.state rule :=
  (h.state rule).resolve_left hliving

/-- A rule that is kept later was kept before. -/
theorem kept (h : Frees s t) (hkept : t.Kept roots rule) : s.Kept roots rule := by
  rcases hkept with hroot | ⟨owner, d, howner, hkept⟩
  · exact .inl hroot
  · have hliving : t.state owner ≠ .freed := by simp [howner]
    exact .inr ⟨owner, d, by rw [← h.state_of_ne_freed hliving, howner], hkept⟩

end Frees

/-- A store is its size and the states of its rules. -/
theorem ext_state (hsize : t.size = s.size) (hstate : ∀ rule, t.state rule = s.state rule) :
    t = s := by
  rcases s with ⟨states⟩
  rcases t with ⟨states'⟩
  congr 1
  refine List.ext_getElem hsize ?_
  intro rule h h'
  simpa [state, h, h'] using hstate rule

/-- Of the ways to free rules of a store, at most one leaves each set of rules that keeps itself as
it is, and no rule alive that is not kept. -/
theorem Settled.unique (ht : Frees s t) (hu : Frees s u) (htSettled : t.Settled roots)
    (huSettled : u.Settled roots)
    (htKeeps : ∀ S, s.SelfKept roots S → ∀ r, S r → t.state r = s.state r)
    (huKeeps : ∀ S, s.SelfKept roots S → ∀ r, S r → u.state r = s.state r) : t = u := by
  -- what is alive in one of them keeps itself in `s`, and so is alive in the other
  have htLiving := htSettled.selfKept.congr fun r hr => (ht.state_of_ne_freed hr).symm
  have huLiving := huSettled.selfKept.congr fun r hr => (hu.state_of_ne_freed hr).symm
  refine ext_state (ht.size.trans hu.size.symm) ?_
  intro r
  by_cases htr : t.state r = .freed
  · by_cases hur : u.state r = .freed
    · rw [htr, hur]
    · rw [hu.state_of_ne_freed hur, htKeeps _ huLiving r hur]
  · rw [ht.state_of_ne_freed htr, huKeeps _ htLiving r htr]

/-! ## Releasing one rule -/

/-- Free one rule. -/
def release (s : Store) (rule : Nat) : Store := ⟨s.states.set rule .freed⟩

/-- A living rule that nothing keeps is freed. -/
inductive Releases (roots : List Nat) : Store → Store → Prop where
  | release {s : Store} {rule : Nat} : s.state rule ≠ .freed → ¬ s.Kept roots rule →
      Releases roots s (s.release rule)

theorem state_release_self (s : Store) (rule : Nat) : (s.release rule).state rule = .freed := by
  by_cases hlt : rule < s.states.length
  · simp [state, release, hlt]
  · simp [state, release, Nat.le_of_not_lt hlt]

theorem state_release_of_ne (s : Store) {rule other : Nat} (hne : other ≠ rule) :
    (s.release rule).state other = s.state other := by
  simp [state, release, Ne.symm hne]

theorem frees_release (s : Store) (rule : Nat) : Frees s (s.release rule) where
  size := by simp [size, release]
  state other := by
    by_cases heq : other = rule
    · rw [heq]
      exact .inl (state_release_self s rule)
    · exact .inr (state_release_of_ne s heq)

/-- Releases one after the other free, whatever their order. -/
theorem Releases.frees (h : ReflTransGen (Releases roots) s t) : Frees s t := by
  induction h with
  | refl => exact Frees.refl s
  | tail _ hstep ih =>
    cases hstep with
    | release _ _ => exact ih.trans (frees_release _ _)

/-- A set that keeps itself is not touched. -/
theorem SelfKept.state_releases (hS : s.SelfKept roots S)
    (h : ReflTransGen (Releases roots) s t) : ∀ r, S r → t.state r = s.state r := by
  induction h with
  | refl => exact fun _ _ => rfl
  | tail _ hstep ih =>
    cases hstep with
    | @release rule _ hloose =>
      intro r hr
      -- what is released is kept by nothing, and so is not in the set
      have hne : r ≠ rule := by
        rintro rfl
        exact hloose ((hS.congr ih).kept hr)
      rw [state_release_of_ne _ hne]
      exact ih r hr

/-! ## Rounds -/

theorem frees_sweepOnce (s : Store) (roots : List Nat) : Frees s (s.sweepOnce roots) where
  size := by simp [size, sweepOnce]
  state rule := by
    rw [state_sweepOnce]
    split
    · exact .inl rfl
    · exact .inr rfl

theorem frees_sweepRounds (roots : List Nat) (rounds : Nat) (s : Store) :
    Frees s (sweepRounds roots rounds s) := by
  induction rounds generalizing s with
  | zero => exact Frees.refl s
  | succ rounds ih => exact (frees_sweepOnce s roots).trans (ih _)

/-- The sweep as a whole frees, too. -/
theorem frees_sweep (s : Store) (roots : List Nat) : Frees s (s.sweep roots) :=
  frees_sweepRounds roots s.size s

/-- A round does not touch what is kept. -/
theorem state_sweepOnce_of_kept (h : s.Kept roots rule) :
    (s.sweepOnce roots).state rule = s.state rule := by
  rw [state_sweepOnce, if_neg]
  rw [isLoose_eq_true_iff]
  exact fun hloose => hloose h

/-- No number of rounds touches what keeps itself. -/
theorem SelfKept.state_sweepRounds (hS : s.SelfKept roots S) (rounds : Nat) :
    ∀ r, S r → (sweepRounds roots rounds s).state r = s.state r := by
  induction rounds generalizing s with
  | zero => exact fun _ _ => rfl
  | succ rounds ih =>
    have honce : ∀ r, S r → (s.sweepOnce roots).state r = s.state r :=
      fun r hr => state_sweepOnce_of_kept (hS.kept hr)
    intro r hr
    rw [sweepRounds, ih (hS.congr honce) r hr, honce r hr]

/-- Rules that keep themselves survive a sweep as they are. -/
theorem SelfKept.state_sweep (hS : s.SelfKept roots S) :
    ∀ r, S r → (s.sweep roots).state r = s.state r :=
  hS.state_sweepRounds s.size

/-! ## Sweeps end -/

open Classical in
/-- The living rules. -/
noncomputable def living (s : Store) : Finset Nat :=
  (Finset.range s.size).filter fun rule => s.state rule ≠ .freed

theorem mem_living : rule ∈ s.living ↔ s.state rule ≠ .freed := by
  simp only [living, Finset.mem_filter, Finset.mem_range, and_iff_right_iff_imp]
  exact lt_size_of_state_ne_freed

open Classical in
/-- There are no more living rules than rules. -/
theorem card_living_le (s : Store) : s.living.card ≤ s.size :=
  (Finset.card_filter_le _ _).trans_eq (Finset.card_range s.size)

/-- Freeing a rule makes fewer of them. -/
theorem Frees.card_living_lt (h : Frees s t) (hliving : s.state rule ≠ .freed)
    (hfreed : t.state rule = .freed) : t.living.card < s.living.card := by
  apply Finset.card_lt_card
  rw [Finset.ssubset_iff_of_subset]
  · exact ⟨rule, mem_living.2 hliving, fun hmem => mem_living.1 hmem hfreed⟩
  · intro r hr
    rw [mem_living] at hr ⊢
    rw [← h.state_of_ne_freed hr]
    exact hr

/-- Where nothing is loose, a round changes nothing. -/
theorem Settled.sweepOnce (h : s.Settled roots) : s.sweepOnce roots = s := by
  refine ext_state (frees_sweepOnce s roots).size ?_
  intro r
  by_cases hfreed : s.state r = .freed
  · rcases (frees_sweepOnce s roots).state r with hr | hr
    · rw [hr, hfreed]
    · exact hr
  · exact state_sweepOnce_of_kept (h r hfreed)

/-- As many rounds as there are living rules are enough. -/
theorem settled_sweepRounds {rounds : Nat} (hrounds : s.living.card ≤ rounds) :
    (sweepRounds roots rounds s).Settled roots := by
  -- on the rounds: as long as there is a loose rule, each round leaves fewer living ones
  induction rounds generalizing s with
  | zero =>
    intro r hr
    have hempty := Finset.card_eq_zero.1 (Nat.le_zero.1 hrounds)
    have hmem : r ∈ s.living := mem_living.2 hr
    rw [hempty] at hmem
    cases hmem
  | succ rounds ih =>
    by_cases hsettled : s.Settled roots
    · have hstays : sweepRounds roots (rounds + 1) s = s := by
        clear ih hrounds
        induction rounds with
        | zero => exact hsettled.sweepOnce
        | succ rounds ih => rw [sweepRounds, hsettled.sweepOnce, ih]
      rw [hstays]
      exact hsettled
    · -- a living rule that nothing keeps falls in this round
      unfold Settled at hsettled
      push Not at hsettled
      rcases hsettled with ⟨r, hliving, hloose⟩
      have hfreed : (s.sweepOnce roots).state r = .freed := by
        rw [state_sweepOnce, if_pos (isLoose_eq_true_iff.2 hloose)]
      have hfewer := (frees_sweepOnce s roots).card_living_lt hliving hfreed
      exact ih (by omega)

/-- The sweep goes on until nothing is loose: a round that changes something frees a living rule. -/
theorem settled_sweep (s : Store) (roots : List Nat) : (s.sweep roots).Settled roots :=
  settled_sweepRounds (card_living_le s)

/-- From every store some order of releases comes to an end. -/
theorem Releases.exists_settled (s : Store) (roots : List Nat) :
    ∃ t, ReflTransGen (Releases roots) s t ∧ t.Settled roots := by
  induction hcard : s.living.card using Nat.strong_induction_on generalizing s with
  | _ count ih =>
    by_cases hsettled : s.Settled roots
    · exact ⟨s, .refl, hsettled⟩
    · -- by the number of living rules, of which one is released
      unfold Settled at hsettled
      push Not at hsettled
      rcases hsettled with ⟨r, hliving, hloose⟩
      have hfewer := (frees_release s r).card_living_lt hliving (state_release_self s r)
      rcases ih _ (hcard ▸ hfewer) (s.release r) rfl with ⟨t, hreleases, ht⟩
      exact ⟨t, .head (.release hliving hloose) hreleases, ht⟩

/-- A sweep comes to what releasing rules one at a time comes to, in whatever order, when no living
rule is left that nothing keeps. -/
theorem sweep_eq_iff :
    t = s.sweep roots ↔ ReflTransGen (Releases roots) s t ∧ t.Settled roots := by
  have hunique : ∀ t, ReflTransGen (Releases roots) s t → t.Settled roots → t = s.sweep roots := by
    intro t hreleases ht
    exact Settled.unique (Releases.frees hreleases) (frees_sweep s roots) ht (settled_sweep s roots)
      (fun _ hS => hS.state_releases hreleases) fun _ hS => hS.state_sweep
  constructor
  · rintro rfl
    rcases Releases.exists_settled s roots with ⟨t, hreleases, ht⟩
    rw [← hunique t hreleases ht]
    exact ⟨hreleases, ht⟩
  · rintro ⟨hreleases, ht⟩
    exact hunique t hreleases ht

/-! ## Alive and kept -/

/-- Whatever is kept is alive. -/
def NoneDangles (s : Store) (roots : List Nat) : Prop :=
  ∀ rule, s.Kept roots rule → s.state rule ≠ .freed

/-- Exactly those rules are alive that are kept. -/
def Balanced (s : Store) (roots : List Nat) : Prop :=
  ∀ rule, s.state rule ≠ .freed ↔ s.Kept roots rule

/-- If no rule that is kept is gone, the sweep balances the store. -/
theorem NoneDangles.balanced_sweep (h : s.NoneDangles roots) :
    (s.sweep roots).Balanced roots := by
  have hsettled := settled_sweep s roots
  have hfrees := frees_sweep s roots
  -- what is kept after the sweep keeps itself before it, and so has survived
  have hkeeps : s.SelfKept roots ((s.sweep roots).Kept roots) := by
    intro r hr
    refine ⟨h r (hfrees.kept hr), ?_⟩
    rcases hr with hroot | ⟨owner, d, howner, hkept⟩
    · exact .inl hroot
    · have hliving : (s.sweep roots).state owner ≠ .freed := by simp [howner]
      refine .inr ⟨owner, d, hsettled owner hliving, ?_, hkept⟩
      rw [← hfrees.state_of_ne_freed hliving, howner]
  intro r
  constructor
  · exact hsettled r
  · intro hr
    rw [hkeeps.state_sweep r hr]
    exact h r (hfrees.kept hr)

end CommittedParsing.Store
