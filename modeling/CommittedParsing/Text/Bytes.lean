/-!
# Byte lengths of character lists

A text is a list of characters, and a position in it counts the bytes of its UTF-8 form.

Main statements:
* `byteLength_append` — the byte length of a concatenation is the sum of the byte lengths;
* `splitAtByte?_byteLength` — cutting `before ++ after` where `before` ends gives the two parts;
* `append_of_splitAtByte?` — a cut that succeeds loses nothing and falls where it was asked for.
-/

namespace CommittedParsing.Text

/-! ## Length -/

/-- The number of bytes of the UTF-8 form of a list of characters. -/
def byteLength (cs : List Char) : Nat :=
  cs.foldr (fun c n => c.utf8Size + n) 0

@[simp] theorem byteLength_nil : byteLength [] = 0 := rfl

@[simp] theorem byteLength_cons (c : Char) (cs : List Char) :
    byteLength (c :: cs) = c.utf8Size + byteLength cs := rfl

@[simp] theorem byteLength_append (as bs : List Char) :
    byteLength (as ++ bs) = byteLength as + byteLength bs := by
  induction as with
  | nil => simp
  | cons a as ih => simp [ih, Nat.add_assoc]

/-- Every character takes at least one byte. -/
theorem length_le_byteLength (cs : List Char) : cs.length ≤ byteLength cs := by
  induction cs with
  | nil => simp
  | cons c cs ih =>
    have : 0 < c.utf8Size := c.utf8Size_pos
    simp only [List.length_cons, byteLength_cons]
    omega

/-- Every character takes a byte at least. -/
theorem byteLength_eq_zero_iff {cs : List Char} : byteLength cs = 0 ↔ cs = [] := by
  constructor
  · intro h
    have := length_le_byteLength cs
    exact List.length_eq_zero_iff.1 (by omega)
  · rintro rfl
    rfl

/-! ## Cutting at a byte -/

/-- The characters before and after a byte offset, if the offset falls between two characters. -/
def splitAtByte? : Nat → List Char → Option (List Char × List Char)
  | 0, cs => some ([], cs)
  | _ + 1, [] => none
  | n + 1, c :: cs =>
    if n + 1 < c.utf8Size then none
    else (splitAtByte? (n + 1 - c.utf8Size) cs).map fun parts => (c :: parts.1, parts.2)

/-- A text can be split behind any of its characters. -/
theorem splitAtByte?_byteLength (before after : List Char) :
    splitAtByte? (byteLength before) (before ++ after) = some (before, after) := by
  induction before with
  | nil => simp [splitAtByte?]
  | cons c cs ih =>
    have hpos : 0 < c.utf8Size := c.utf8Size_pos
    obtain ⟨n, hn⟩ : ∃ n, byteLength (c :: cs) = n + 1 := ⟨byteLength (c :: cs) - 1, by
      simp only [byteLength_cons]; omega⟩
    have hsub : n + 1 - c.utf8Size = byteLength cs := by
      simp only [byteLength_cons] at hn; omega
    have hle : ¬ n + 1 < c.utf8Size := by
      simp only [byteLength_cons] at hn; omega
    rw [hn]
    simp [splitAtByte?, hle, hsub, ih]

/-- Where it can be split, the two parts are the text, and the first has that many bytes. -/
theorem append_of_splitAtByte? {n : Nat} {cs before after : List Char}
    (h : splitAtByte? n cs = some (before, after)) :
    cs = before ++ after ∧ byteLength before = n := by
  -- character by character; a place inside a character is refused
  induction cs generalizing n before with
  | nil =>
    cases n with
    | zero => simp_all [splitAtByte?]
    | succ n => simp [splitAtByte?] at h
  | cons c cs ih =>
    cases n with
    | zero => simp_all [splitAtByte?]
    | succ n =>
      by_cases hlt : n + 1 < c.utf8Size
      · simp [splitAtByte?, hlt] at h
      · simp only [splitAtByte?, hlt, if_false, Option.map_eq_some_iff, Prod.mk.injEq] at h
        obtain ⟨⟨mid, rest⟩, hsplit, rfl, rfl⟩ := h
        obtain ⟨rfl, hlen⟩ := ih hsplit
        refine ⟨rfl, ?_⟩
        simp only [byteLength_cons]
        omega

end CommittedParsing.Text
