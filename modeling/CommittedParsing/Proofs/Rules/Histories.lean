import CommittedParsing.Proofs.Rules.Freeing

/-!
# Histories of rules

Rules are declared, defined and freed, and nothing else becomes of them. What has become of a rule is
therefore read off a history of the store: the three kinds of changes in their order, with the definitions
that were written.

Main statements:
* `Store.Develops.state_of_freed`, `Store.Develops.state_of_not_written` — a rule that was freed stays
  so, and no rule changes otherwise unless it is written;
* `Store.Develops.state_of_selfKept` — defined rules that keep one another stay as they are;
* `Store.Develops.holds` — a rule is written at most once, and holds what was written to it.
-/

namespace CommittedParsing

/-! ## Histories of stores -/

namespace Store

variable {s t u : Store} {rule : Nat} {written more : List (Nat × Definition)}

/-- A store comes to another by declaring, defining and freeing rules; these definitions are written
on the way, in this order. -/
inductive Develops (s : Store) : List (Nat × Definition) → Store → Prop where
  | refl : Develops s [] s
  | declare {written : List (Nat × Definition)} {t : Store} :
      Develops s written t → Develops s written t.declare
  | define {written : List (Nat × Definition)} {t u : Store} {h : Handle} {d : Definition} :
      Develops s written t → t.define h d = .ok u → Develops s (written ++ [(h.rule, d)]) u
  | sweep {written : List (Nat × Definition)} {t : Store} (roots : List Nat) :
      Develops s written t → Develops s written (t.sweep roots)

theorem size_declare (s : Store) : s.declare.size = s.size + 1 := by
  simp [size, declare]

/-- The rule that is declared is not written yet. -/
theorem state_declare_self (s : Store) : s.declare.state s.size = .declared := by
  simp [state, declare, size]

theorem state_declare_of_ne (s : Store) (hne : rule ≠ s.size) :
    s.declare.state rule = s.state rule := by
  unfold state declare
  rcases Nat.lt_or_gt_of_ne hne with hlt | hgt
  · rw [List.getElem?_append_left hlt]
  · have hbeyond : s.states.length + 1 ≤ rule := hgt
    rw [List.getElem?_eq_none (by simpa using hbeyond), List.getElem?_eq_none (by omega)]

theorem size_define {h : Handle} {d : Definition} (ht : s.define h d = .ok t) : t.size = s.size := by
  rcases define_eq_ok_iff.1 ht with ⟨_, rfl⟩
  simp [size]

namespace Develops

/-- What is written in two stretches is written in the one and then in the other. -/
theorem trans (h : s.Develops written t) (h' : t.Develops more u) :
    s.Develops (written ++ more) u := by
  induction h' with
  | refl =>
    rw [List.append_nil]
    exact h
  | declare _ ih => exact ih.declare
  | define _ hdefine ih =>
    rw [← List.append_assoc]
    exact ih.define hdefine
  | sweep roots _ ih => exact ih.sweep roots

/-- Rules are never forgotten. -/
theorem size_le (h : s.Develops written t) : s.size ≤ t.size := by
  induction h with
  | refl => exact Nat.le_refl _
  | declare _ ih =>
    rw [size_declare]
    exact Nat.le_succ_of_le ih
  | define _ hdefine ih =>
    rw [size_define hdefine]
    exact ih
  | sweep roots _ ih =>
    rw [size_sweep]
    exact ih

/-- A freed rule stays freed. -/
theorem state_of_freed (h : s.Develops written t) (hlt : rule < s.size)
    (hfreed : s.state rule = .freed) : t.state rule = .freed := by
  -- over the history: a new rule is another one, and a definition asks for a declared one
  induction h with
  | refl => exact hfreed
  | declare hprior ih =>
    rw [state_declare_of_ne _ (Nat.ne_of_lt (Nat.lt_of_lt_of_le hlt hprior.size_le)), ih]
  | @define _ _ _ h _ _ hdefine ih =>
    have hne : rule ≠ h.rule := by
      rintro rfl
      rw [(define_eq_ok_iff.1 hdefine).1] at ih
      cases ih
    rw [state_define_of_ne hdefine hne, ih]
  | sweep roots _ ih =>
    rcases (frees_sweep _ roots).state rule with hswept | hswept
    · exact hswept
    · rw [hswept, ih]

/-- A rule that nothing is written to stays as it is, unless it is freed. -/
theorem state_of_not_written (h : s.Develops written t) (hlt : rule < s.size)
    (hnone : ∀ d, (rule, d) ∉ written) :
    t.state rule = s.state rule ∨ t.state rule = .freed := by
  -- over the history: only a definition of this rule, or a sweep, could change its state
  induction h with
  | refl => exact .inl rfl
  | declare hprior ih =>
    rw [state_declare_of_ne _ (Nat.ne_of_lt (Nat.lt_of_lt_of_le hlt hprior.size_le))]
    exact ih hnone
  | @define _ _ _ h d _ hdefine ih =>
    have hne : rule ≠ h.rule := by
      rintro rfl
      exact hnone d (by simp)
    rw [state_define_of_ne hdefine hne]
    exact ih fun d' hmem => hnone d' (List.mem_append_left _ hmem)
  | sweep roots _ ih =>
    rcases (frees_sweep _ roots).state rule with hswept | hswept
    · exact .inr hswept
    · rw [hswept]
      exact ih hnone

/-- Rules that are kept by one another, whatever else is dropped, stay as they are. -/
theorem state_of_selfKept {S : Nat → Prop} (h : s.Develops written t) (hS : s.SelfKept [] S)
    (hdefined : ∀ r, S r → ∃ d, s.state r = .defined d) : ∀ r, S r → t.state r = s.state r := by
  -- over the history: such rules are written already, and a sweep keeps what keeps itself
  induction h with
  | refl => exact fun _ _ => rfl
  | declare hprior ih =>
    intro r hr
    have hlt : r < s.size := lt_size_of_state_ne_freed (hS r hr).1
    rw [state_declare_of_ne _ (Nat.ne_of_lt (Nat.lt_of_lt_of_le hlt hprior.size_le)), ih r hr]
  | @define _ _ _ h _ _ hdefine ih =>
    intro r hr
    have hne : r ≠ h.rule := by
      rintro rfl
      rcases hdefined _ hr with ⟨d, hd⟩
      rw [← ih _ hr, (define_eq_ok_iff.1 hdefine).1] at hd
      cases hd
    rw [state_define_of_ne hdefine hne, ih r hr]
  | @sweep _ t roots _ ih =>
    intro r hr
    have hkept : t.SelfKept roots S := by
      intro r hr
      rcases (hS.congr ih) r hr with ⟨hliving, hroot | howner⟩
      · cases hroot
      · exact ⟨hliving, .inr howner⟩
    rw [hkept.state_sweep r hr, ih r hr]

end Develops

/-! ## What was written -/

/-- What a store holds, against what was written to it: each rule was written at most once, what was
written to it is what it holds unless it has been freed, and what it holds was written to it. -/
structure Holds (t : Store) (written : List (Nat × Definition)) : Prop where
  once : (written.map Prod.fst).Nodup
  lt_size : ∀ rule d, (rule, d) ∈ written → rule < t.size
  held : ∀ rule d, (rule, d) ∈ written → t.state rule = .defined d ∨ t.state rule = .freed
  of_defined : ∀ rule d, t.state rule = .defined d → (rule, d) ∈ written

namespace Holds

/-- Nothing has been written to a rule that is merely declared. -/
theorem not_mem (h : t.Holds written) (hdeclared : t.state rule = .declared) (d : Definition) :
    (rule, d) ∉ written := by
  intro hmem
  rcases h.held rule d hmem with hstate | hstate
  · rw [hdeclared] at hstate
    cases hstate
  · rw [hdeclared] at hstate
    cases hstate

/-- Declaring one more rule keeps what the store holds. -/
theorem declare (h : t.Holds written) : t.declare.Holds written where
  once := h.once
  lt_size rule d hmem := by
    rw [size_declare]
    exact Nat.lt_succ_of_lt (h.lt_size rule d hmem)
  held rule d hmem := by
    rw [state_declare_of_ne _ (Nat.ne_of_lt (h.lt_size rule d hmem))]
    exact h.held rule d hmem
  of_defined rule d hd := by
    by_cases hnew : rule = t.size
    · rw [hnew, state_declare_self] at hd
      cases hd
    · rw [state_declare_of_ne _ hnew] at hd
      exact h.of_defined rule d hd

/-- Writing a rule adds it to what the store holds. -/
theorem define (h : t.Holds written) {handle : Handle} {d : Definition}
    (hdefine : t.define handle d = .ok u) : u.Holds (written ++ [(handle.rule, d)]) := by
  have hdeclared := (define_eq_ok_iff.1 hdefine).1
  constructor
  · -- the rule was merely declared, so that the new entry is its first
    rw [List.map_append, List.nodup_append]
    refine ⟨h.once, by simp, ?_⟩
    rintro rule hrule _ hlast rfl
    rcases List.mem_map.1 hrule with ⟨⟨rule', d'⟩, hmem, rfl⟩
    have heq : rule' = handle.rule := by simpa using hlast
    subst heq
    exact h.not_mem hdeclared d' hmem
  · intro rule d' hmem
    rw [size_define hdefine]
    rcases List.mem_append.1 hmem with hmem | hmem
    · exact h.lt_size rule d' hmem
    · cases List.mem_singleton.1 hmem
      exact lt_size_of_state_ne_freed (by simp [hdeclared])
  · intro rule d' hmem
    rcases List.mem_append.1 hmem with hmem | hmem
    · have hne : rule ≠ handle.rule := by
        rintro rfl
        exact h.not_mem hdeclared d' hmem
      rw [state_define_of_ne hdefine hne]
      exact h.held rule d' hmem
    · cases List.mem_singleton.1 hmem
      exact .inl (state_define_self hdefine)
  · -- what a rule holds is the new definition, or was held before
    intro rule d' hd'
    by_cases heq : rule = handle.rule
    · subst heq
      rw [state_define_self hdefine] at hd'
      cases hd'
      simp
    · rw [state_define_of_ne hdefine heq] at hd'
      exact List.mem_append_left _ (h.of_defined rule d' hd')

/-- Freeing takes rules away, and leaves the others as they were written. -/
theorem frees (h : t.Holds written) (hfrees : Frees t u) : u.Holds written where
  once := h.once
  lt_size rule d hmem := by
    rw [hfrees.size]
    exact h.lt_size rule d hmem
  held rule d hmem := by
    rcases hfrees.state rule with hfreed | heq
    · exact .inr hfreed
    · rw [heq]
      exact h.held rule d hmem
  of_defined rule d hd := by
    refine h.of_defined rule d ?_
    rw [← hfrees.state_of_ne_freed (by simp [hd]), hd]

end Holds

/-- A store that has developed from nothing holds what was written, by induction on how it developed. -/
theorem Develops.holds (h : Store.empty.Develops written t) : t.Holds written := by
  induction h with
  | refl => exact ⟨List.nodup_nil, by simp, by simp, by simp [state, empty]⟩
  | declare _ ih => exact ih.declare
  | define _ hdefine ih => exact ih.define hdefine
  | sweep roots _ ih => exact ih.frees (frees_sweep _ roots)

end Store

end CommittedParsing
