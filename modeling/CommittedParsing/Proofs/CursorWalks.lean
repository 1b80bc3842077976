import CommittedParsing.Cursor
import CommittedParsing.Proofs.Reports.Places
import Mathlib.Order.Monotone.Basic
import Mathlib.Order.Interval.Set.Defs

/-!
# Walks over a source

A cursor that goes on step by step from the start of a source passes its characters one after the other,
however many bytes each of them takes, and stays behind the last one. Where it stands is known from how
many characters it has passed: the bytes before it, the text left, and the character at hand. So two
cursors in one source are as far from each other as the numbers of characters that they have passed, while
cursors in two sources have nothing to do with each other, whatever the sources hold.

Main statements:
* `Cursor.advance_start` — a walk of so many steps stands behind so many characters;
* `Cursor.strictMonoOn_byteLength_take` — every character that is passed adds bytes;
* `Cursor.walk_enumerates_source` — what a walk shows, and how two walks compare.
-/

namespace CommittedParsing

open Text

namespace Cursor

/-! ## Steps -/

/-- The cursor behind the first characters of a source; there may be fewer of them. -/
def behind (s : Source) (count : Nat) : Cursor :=
  ⟨s, byteLength (s.text.take count), s.text.drop count⟩

/-- A step goes behind one more character. -/
theorem next_behind (s : Source) (count : Nat) : (behind s count).next = behind s (count + 1) := by
  cases hrest : s.text.drop count with
  | nil =>
    have hall : s.text.length ≤ count := List.drop_eq_nil_iff.1 hrest
    have hsame : behind s (count + 1) = behind s count := by
      rw [behind, behind, hrest, List.drop_of_length_le (by omega), List.take_of_length_le hall,
        List.take_of_length_le (by omega)]
    rw [hsame, next_of_nil hrest]
  | cons ch rest =>
    have hat : s.text[count]? = some ch := by
      rw [← List.head?_drop, hrest, List.head?_cons]
    have hlater : s.text.drop (count + 1) = rest := by
      rw [← List.tail_drop, hrest, List.tail_cons]
    rw [next_of_cons hrest, skip, behind, behind, List.take_add_one, hat, hlater, byteLength_append]
    rfl

/-- Several steps go behind as many more. -/
theorem advance_behind (s : Source) (count steps : Nat) :
    (behind s count).advance steps = behind s (count + steps) := by
  induction steps generalizing count with
  | zero => rfl
  | succ steps ih =>
    rw [advance, next_behind, ih]
    congr 1
    omega

/-- The next step leads nowhere exactly if there is no character at hand. -/
theorem next_eq_self_iff (c : Cursor) : c.next = c ↔ c.value? = none := by
  have hnone : c.value? = none ↔ c.rest = [] := List.head?_eq_none_iff
  rw [hnone]
  constructor
  · intro hstill
    cases hrest : c.rest with
    | nil => rfl
    | cons ch rest =>
      have hmoved := c.position_skip_cons_ne ch [] rest
      rw [← next_of_cons hrest, hstill] at hmoved
      exact absurd rfl hmoved
  · exact next_of_nil

/-- So the steps from the start are counted by the characters. -/
theorem advance_start (s : Source) (steps : Nat) : (start s).advance steps = behind s steps := by
  have hstart : start s = behind s 0 := rfl
  rw [hstart, advance_behind, Nat.zero_add]

/-- Behind the end a walk stays at the end. -/
theorem behind_min (s : Source) (count : Nat) :
    behind s (min count s.text.length) = behind s count := by
  by_cases hle : count ≤ s.text.length
  · rw [Nat.min_eq_left hle]
  · have hall : s.text.length ≤ count := by omega
    rw [Nat.min_eq_right hall, behind, behind, List.take_length, List.drop_length,
      List.take_of_length_le hall, List.drop_of_length_le hall]

/-! ## Places -/

/-- Every character that is passed adds bytes. -/
theorem strictMonoOn_byteLength_take (text : List Char) :
    StrictMonoOn (fun count => byteLength (text.take count)) (Set.Iic text.length) := by
  intro i _ j hj hlt
  have hj : j ≤ text.length := hj
  -- what lies between the two places is not empty
  have hsplit : text.take j = text.take i ++ (text.take j).drop i := by
    have htake : (text.take j).take i = text.take i := by
      rw [List.take_take, Nat.min_eq_left (Nat.le_of_lt hlt)]
    rw [← htake, List.take_append_drop]
  have hbetween : ((text.take j).drop i).length = j - i := by
    rw [List.length_drop, List.length_take, Nat.min_eq_left hj]
  have hbytes := length_le_byteLength ((text.take j).drop i)
  show byteLength (text.take i) < byteLength (text.take j)
  rw [hsplit, byteLength_append]
  omega

/-! ## Comparison -/

section

variable {a b : Cursor}

/-- In one source cursors are compared by their positions. -/
theorem compare?_of_sameSource (h : a.sameSource b = true) :
    a.compare? b = some (compare a.position b.position) := by
  rw [compare?, if_pos h]

/-- Across sources they are not ordered. -/
theorem compare?_of_not_sameSource (h : a.sameSource b = false) : a.compare? b = none := by
  simp [compare?, h]

/-- Cursors are the same if they compare as equal. -/
theorem isSame_iff_compare? : a.isSame b = true ↔ a.compare? b = some .eq := by
  cases h : a.sameSource b with
  | false => simp [isSame, h, compare?_of_not_sameSource h]
  | true => simp [isSame, h, compare?_of_sameSource h]

/-- A cursor is before another if it compares as less. -/
theorem isBefore_iff_compare? : a.isBefore b = true ↔ a.compare? b = some .lt := by
  simp [isBefore]

/-- And it is at most the other if it compares as less or as equal. -/
theorem isAtMost_iff_compare? :
    a.isAtMost b = true ↔ a.compare? b = some .lt ∨ a.compare? b = some .eq := by
  simp [isAtMost, isBefore]

end

/-- In one source, cursors compare as the numbers of characters before them. -/
theorem compare?_behind (s : Source) {i j : Nat} (hi : i ≤ s.text.length) (hj : j ≤ s.text.length) :
    (behind s i).compare? (behind s j) = some (compare i j) := by
  have hsource : (behind s i).sameSource (behind s j) = true := by simp [sameSource, behind]
  have hplaces := (strictMonoOn_byteLength_take s.text).cmp_map_eq hi hj
  rw [cmp_eq_compare, cmp_eq_compare] at hplaces
  rw [compare?_of_sameSource hsource]
  exact congrArg some hplaces

/-! ## The walk -/

/-- A walk over a source has passed as many characters as it has taken steps, up to all of them. It stands
behind their bytes, with the other characters left, the first of them at hand, and as many bytes left as
there are besides. It is at the end exactly if there is no character at hand, and exactly then another step
leads nowhere.

Two walks over one source compare as the numbers of characters that they have passed, and stand at the same
place exactly if these are the same. Walks over two sources do not compare, and stand at different places. -/
theorem walk_enumerates_source :
    (∀ (s : Source) (steps : Nat),
      let c := (start s).advance steps
      let passed := min steps s.text.length
      c.position = (bytes (s.text.take passed)).length ∧
        c.rest = s.text.drop passed ∧
        c.value? = s.text[passed]? ∧
        c.position + c.remaining = (bytes s.text).length ∧
        (c.atEnd = true ↔ c.value? = none) ∧
        (c.next = c ↔ c.value? = none)) ∧
    (∀ (s : Source) (i j : Nat),
      let a := (start s).advance i
      let b := (start s).advance j
      let order := compare (min i s.text.length) (min j s.text.length)
      a.compare? b = some order ∧
        (a.isSame b = true ↔ min i s.text.length = min j s.text.length) ∧
        (a.isBefore b = true ↔ order = .lt) ∧
        (a.isAtMost b = true ↔ order ≠ .gt)) ∧
    ∀ s t : Source, s.identity ≠ t.identity → ∀ i j : Nat,
      let a := (start s).advance i
      let b := (start t).advance j
      a.compare? b = none ∧ a.isSame b = false ∧ a.isBefore b = false ∧ a.isAtMost b = false := by
  refine ⟨?_, ?_, ?_⟩
  · intro s steps c passed
    -- beyond the end the walk stands still, so that only so many steps count
    have hc : c = behind s passed := (advance_start s steps).trans (behind_min s steps).symm
    have hvalid : c.Valid := (valid_start s).advance steps
    have hvalue : c.value? = s.text[passed]? := by
      rw [hc]
      exact List.head?_drop
    have hnone : c.value? = none ↔ c.rest = [] := List.head?_eq_none_iff
    have hall : c.position + c.remaining = c.source.size := by
      rw [hvalid.remaining_eq]
      exact hvalid.position_add_byteLength_rest
    have hsource : c.source = s := by rw [hc, behind]
    refine ⟨?_, ?_, hvalue, ?_, ?_, next_eq_self_iff c⟩
    · rw [length_bytes, hc, behind]
    · rw [hc, behind]
    · rw [hall, hsource, s.size_eq, length_bytes]
    · rw [hvalid.atEnd_iff, hnone]
  · intro s i j a b order
    have ha : a = behind s (min i s.text.length) := (advance_start s i).trans (behind_min s i).symm
    have hb : b = behind s (min j s.text.length) := (advance_start s j).trans (behind_min s j).symm
    -- the four comparisons are one, asked in four ways
    have hcompare : a.compare? b = some order := by
      rw [ha, hb]
      exact compare?_behind s (Nat.min_le_right _ _) (Nat.min_le_right _ _)
    refine ⟨hcompare, ?_, ?_, ?_⟩
    · rw [isSame_iff_compare?, hcompare, Option.some_inj]
      exact Nat.compare_eq_eq
    · rw [isBefore_iff_compare?, hcompare, Option.some_inj]
    · rw [isAtMost_iff_compare?, hcompare, Option.some_inj, Option.some_inj]
      cases order <;> simp
  · intro s t hother i j a b
    -- cursors of two sources are not compared at all
    have hsource : a.sameSource b = false := by
      have ha : a = behind s i := advance_start s i
      have hb : b = behind t j := advance_start t j
      rw [ha, hb]
      simpa [sameSource, behind] using hother
    have hcompare := compare?_of_not_sameSource hsource
    refine ⟨hcompare, ?_, ?_, ?_⟩
    · simp [isSame, hsource]
    · simp [isBefore, hcompare]
    · simp [isAtMost, isBefore, hcompare]

/-- Characters of one to four bytes, in two sources. -/
theorem walks_over_equal_texts :
    let s := Source.ofString 0 "aé€😀"
    let t := Source.ofString 1 "aé€😀"
    let a := (start s).advance 3
    let b := (start t).advance 3
    s.identity ≠ t.identity ∧ a.position = 6 ∧ a.value? = some '😀' ∧ a.remaining = 4 ∧
      a.compare? ((start s).advance 7) = some .lt ∧
      a.compare? b = none ∧ a.isSame b = false ∧ a.isBefore b = false ∧ a.isAtMost b = false := by
  intro s t a b
  have hother : s.identity ≠ t.identity := by decide
  exact ⟨hother, rfl, rfl, rfl, walk_enumerates_source.2.1 s 3 7 |>.1,
    walk_enumerates_source.2.2 s t hother 3 3⟩

end Cursor

end CommittedParsing
