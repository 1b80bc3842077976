import CommittedParsing.Parser.Alternation
import CommittedParsing.Parser.Character
import CommittedParsing.Parser.Entry
import CommittedParsing.Parser.Repetition
import CommittedParsing.Proofs.SequencesByBinding
import Mathlib.Data.List.Infix

/-!
# Repetitions of single characters

A parser of one character, repeated, takes a stretch of the text if it takes each character of it where
that character stands. What ends the repetition is looked at once, behind the stretch.

This is how one scans to a delimiter: every character is taken behind a look ahead that the delimiter does
not stand there. The delimiter is looked for at every character, also inside of a text that began like it
and went on otherwise, so the scan ends at the first place where it stands. If it stands nowhere, the look
ahead succeeds at the end of the text, too, and that is a first success: what is expected there is
expected with a commit, and the scan fails.

Main statements:
* `Parser.repeatFrom_of_taken` — rounds that take one character each, and the last round;
* `Parser.many1_satisfy` — a run of characters that pass a test, up to one that does not;
* `FirstOccurrence.exists_of_infix` — what occurs in a text has a first occurrence;
* `Parser.scanTo_of_first`, `Parser.scanTo_of_missing` — the scan, from any cursor;
* `Parser.scan_stops_at_first` — the scan of a whole text.
-/

namespace CommittedParsing

open Run Text

/-! ## First occurrences -/

/-- The word stands behind the first of the two parts of the text, and nowhere before. -/
structure FirstOccurrence (word text before after : List Char) : Prop where
  text_eq : text = before ++ after
  stands : word <+: after
  first : ∀ before' after', text = before' ++ after' → word <+: after' → before.length ≤ before'.length

/-- A word that stands in the text stands somewhere first. -/
theorem FirstOccurrence.exists_of_infix {word text : List Char} (h : word <:+: text) :
    ∃ before after, FirstOccurrence word text before after := by
  induction text with
  | nil =>
    have hword : word = [] := List.infix_nil.1 h
    exact ⟨[], [], rfl, hword ▸ List.nil_prefix, fun _ _ _ _ => Nat.zero_le _⟩
  | cons ch text ih =>
    by_cases hhere : word <+: ch :: text
    · exact ⟨[], ch :: text, rfl, hhere, fun _ _ _ _ => Nat.zero_le _⟩
    · have hlater : word <:+: text := (List.infix_cons_iff.1 h).resolve_left hhere
      rcases ih hlater with ⟨before, after, htext, hstands, hfirst⟩
      refine ⟨ch :: before, after, by rw [htext, List.cons_append], hstands, ?_⟩
      intro before' after' htext' hstands'
      cases before' with
      | nil =>
        -- the text itself does not begin with the word
        rw [List.nil_append] at htext'
        exact absurd (htext' ▸ hstands') hhere
      | cons ch' before' =>
        rw [List.cons_append, List.cons.injEq] at htext'
        exact Nat.succ_le_succ (hfirst before' after' htext'.2 hstands')

/-- There is one place only where it stands first. -/
theorem FirstOccurrence.unique {word text before after before' after' : List Char}
    (h : FirstOccurrence word text before after) (h' : FirstOccurrence word text before' after') :
    before = before' ∧ after = after' := by
  have hle := h.first before' after' h'.text_eq h'.stands
  have hge := h'.first before after h.text_eq h.stands
  exact List.append_inj (h.text_eq.symm.trans h'.text_eq) (by omega)

namespace Parser

variable {n : Nat} {c : Cursor} {before after : List Char}

/-! ## Single characters and texts -/

/-- Where no accepted character comes next, the parser fails on the spot. -/
theorem satisfy_of_not_accepted {accepts : Char → Bool} (h : ∀ ch ∈ c.rest.head?, accepts ch = false)
    (description : String) (n : Nat) :
    satisfy accepts description n c = fail (Failure.expected description c.position) := by
  cases hrest : c.rest with
  | nil => exact satisfy_eq_of_nil hrest accepts description n
  | cons ch rest =>
    have hch : accepts ch = false := h ch (by simp [hrest])
    rw [satisfy_eq_of_cons hrest, hch]
    rfl

theorem literal_of_cons {ch : Char} {rest : List Char} (h : c.rest = ch :: rest) (n : Nat) :
    literal ch n c = succeed ch (c.skip [ch] rest) := by
  rw [literal, satisfy_eq_of_cons h, if_pos (beq_self_eq_true ch)]

theorem literal_of_head_ne {ch : Char} (h : c.rest.head? ≠ some ch) (n : Nat) :
    literal ch n c = fail (Failure.expected ("'" ++ ch.toString ++ "'") c.position) := by
  refine satisfy_of_not_accepted ?_ _ n
  intro found hfound
  rw [Option.mem_def.1 hfound, ne_eq, Option.some_inj] at h
  exact beq_false_of_ne h

/-- Where the text comes next, it is read. -/
theorem text_of_append {expected : String} {rest : List Char} (h : c.rest = expected.toList ++ rest)
    (n : Nat) : text expected n c = succeed expected (c.skip expected.toList rest) := by
  have hmatch : dropPrefix? expected.toList c.rest = some rest := dropPrefix?_eq_some_iff.2 h
  simp only [text, hmatch]

/-- Where it does not, the parser fails on the spot. -/
theorem text_of_mismatch {expected : String} (h : ¬ expected.toList <+: c.rest) (n : Nat) :
    text expected n c = fail (Failure.expected ("\"" ++ expected ++ "\"") c.position) := by
  cases hmatch : dropPrefix? expected.toList c.rest with
  | none => simp only [text, hmatch]
  | some rest =>
    have hrest : c.rest = expected.toList ++ rest := dropPrefix?_eq_some_iff.1 hmatch
    exact absurd (hrest ▸ List.prefix_append _ _) h

/-! ## Rounds of one character -/

theorem skip_nil_of_rest (h : c.rest = after) : c.skip [] after = c := by
  rw [← h, Cursor.skip_nil]

/-- Wherever a character of the first text, and what is behind it up to the end of the second, is left, the
parser takes that character. -/
def TakesEach (p : Parser Char) (n : Nat) (taken after : List Char) : Prop :=
  ∀ before ch behind, taken = before ++ ch :: behind → ∀ d : Cursor, d.rest = ch :: (behind ++ after) →
    p n d = succeed ch (d.skip [ch] (behind ++ after))

/-- A stretch of the text is taken in as many rounds as it has characters, if each of them is taken. -/
theorem loop_of_taken {p : Parser Char} {taken : List Char} (hrest : c.rest = taken ++ after)
    (hp : TakesEach p n taken after) (rounds : Nat) (past : List Char) :
    Run.loop (repeatStep p n) (taken.length + rounds) (past, c) =
      Run.loop (repeatStep p n) rounds (taken.reverse ++ past, c.skip taken after) := by
  -- one round for each character
  induction taken generalizing c past with
  | nil =>
    have hstill : c.skip [] after = c := skip_nil_of_rest hrest
    simp [hstill]
  | cons ch behind ih =>
    have hfirst := hp [] ch behind rfl c hrest
    have hmoved := c.position_skip_cons_ne ch [] (behind ++ after)
    have hlater := ih (c := c.skip [ch] (behind ++ after)) rfl
      (fun before ch' behind' heq => hp (ch :: before) ch' behind' (by rw [heq, List.cons_append]))
      (ch :: past)
    have hrounds : (ch :: behind).length + rounds = behind.length + rounds + 1 := by
      rw [List.length_cons]
      omega
    rw [hrounds, repeatFrom_succ, hfirst]
    change (if (c.skip [ch] (behind ++ after)).position = c.position then _ else _) = _
    rw [if_neg hmoved, hlater, Cursor.skip_skip]
    simp

/-- If the round behind the stretch fails, that is the last round. -/
theorem repeatFrom_of_taken {p : Parser Char} {taken : List Char} (hrest : c.rest = taken ++ after)
    (hp : TakesEach p n taken after) (hn : taken.length < n) {e : Failure}
    (hlast : p n (c.skip taken after) = fail e) (past : List Char) :
    repeatFrom p past n c =
      if e.consumed then fail e else succeed (past.reverse ++ taken) (c.skip taken after) := by
  rcases Nat.exists_eq_add_of_lt hn with ⟨rounds, hrounds⟩
  have hloop := loop_of_taken hrest hp (rounds + 1) past
  have hvalues : (taken.reverse ++ past).reverse = past.reverse ++ taken := by simp
  rw [← Nat.add_assoc, ← hrounds, repeatFrom_succ, hlast, hvalues] at hloop
  exact hloop

/-- A run of characters that pass a test is taken as a whole, up to one that does not pass. -/
theorem many1_satisfy {accepts : Char → Bool} {taken : List Char} (hrest : c.rest = taken ++ after)
    (hsome : taken ≠ []) (htaken : ∀ ch ∈ taken, accepts ch = true)
    (hafter : ∀ ch ∈ after.head?, accepts ch = false) (hn : taken.length ≤ n) (description : String) :
    many1 (satisfy accepts description) n c = succeed taken (c.skip taken after) := by
  have hcharacter : ∀ (d : Cursor) ch rest, d.rest = ch :: rest → accepts ch = true →
      satisfy accepts description n d = succeed ch (d.skip [ch] rest) := by
    intro d ch rest hd hch
    rw [satisfy_eq_of_cons hd, if_pos hch]
  rcases List.exists_cons_of_ne_nil hsome with ⟨ch, others, rfl⟩
  have hothers : TakesEach (satisfy accepts description) n others after := by
    intro before ch' behind heq d hd
    exact hcharacter d ch' _ hd (htaken ch' (by simp [heq]))
  have hstops := satisfy_of_not_accepted (c := (c.skip [ch] (others ++ after)).skip others after)
    hafter description n
  have hrepeat := repeatFrom_of_taken (c.rest_skip [ch] (others ++ after)) hothers hn hstops [ch]
  rw [many1, hcharacter c ch (others ++ after) hrest (htaken ch List.mem_cons_self), succeed_andThen,
    if_neg (c.position_skip_cons_ne ch [] (others ++ after)), hrepeat, Cursor.skip_skip]
  rfl

/-! ## Scanning -/

/-- Any character at which the delimiter does not stand. -/
def outside (delimiter name : String) : Parser Char :=
  Parser.map Prod.snd (Parser.and (Parser.not ("not " ++ name) (text delimiter)) anyChar)

/-- All characters up to a delimiter, which is not taken. -/
def scanTo (delimiter name : String) : Parser (List Char) := many (outside delimiter name)

section Scanning

variable {delimiter : String}

/-- At the delimiter there is no character outside, and the failure is not committed. -/
theorem outside_at_delimiter (h : delimiter.toList <+: c.rest) (name : String) (n : Nat) :
    outside delimiter name n c = fail (Failure.expected ("not " ++ name) c.position) := by
  rcases h with ⟨rest, hrest⟩
  have hstands := text_of_append hrest.symm n
  simp only [outside, Parser.map, Parser.and, seq2, Parser.not, hstands]
  rfl

/-- Where the delimiter does not stand, the look ahead has succeeded, and what follows it is committed. -/
theorem outside_of_mismatch (h : ¬ delimiter.toList <+: c.rest) (name : String) (n : Nat) :
    outside delimiter name n c = (anyChar n c).commit := by
  have hnot : Parser.not ("not " ++ name) (text delimiter) n c = succeed () c := by
    rw [Parser.not, text_of_mismatch h n]
    rfl
  simp only [outside, Parser.map, Parser.and, seq2, hnot, succeed_andThen, andThen_assoc, andThen_succeed]

/-- Anywhere else the next character is outside. -/
theorem outside_of_cons (h : ¬ delimiter.toList <+: c.rest) {ch : Char} {rest : List Char}
    (hrest : c.rest = ch :: rest) (name : String) (n : Nat) :
    outside delimiter name n c = succeed ch (c.skip [ch] rest) := by
  rw [outside_of_mismatch h, anyChar, satisfy_eq_of_cons hrest]
  rfl

/-- At the end the look ahead has succeeded and no character is left, so the failure is committed. -/
theorem outside_at_end (h : ¬ delimiter.toList <+: c.rest) (hrest : c.rest = []) (name : String)
    (n : Nat) : outside delimiter name n c = fail ⟨[⟨"any character", c.position⟩], true⟩ := by
  rw [outside_of_mismatch h, anyChar, satisfy_eq_of_nil hrest]
  rfl

/-- The characters before the first delimiter are taken one by one. -/
theorem scanTo_of_first (h : FirstOccurrence delimiter.toList c.rest before after) (name : String)
    (hn : before.length < n) : scanTo delimiter name n c = succeed before (c.skip before after) := by
  have htaken : TakesEach (outside delimiter name) n before after := by
    intro before' ch behind hbefore d hd
    apply outside_of_cons _ hd
    intro hstands
    -- a delimiter here would stand before the first one
    have hearlier := h.first before' d.rest (by rw [h.text_eq, hbefore, hd]; simp) hstands
    rw [hbefore, List.length_append, List.length_cons] at hearlier
    omega
  have hlast := outside_at_delimiter (c := c.skip before after) h.stands name n
  exact repeatFrom_of_taken h.text_eq htaken hn hlast []

/-- Without a delimiter all characters are taken, and behind the last one another is required. -/
theorem scanTo_of_missing (h : ¬ delimiter.toList <:+: c.rest) (name : String)
    (hn : c.rest.length < n) : scanTo delimiter name n c =
      fail ⟨[⟨"any character", c.position + byteLength c.rest⟩], true⟩ := by
  have hnowhere : ∀ rest, rest <:+ c.rest → ¬ delimiter.toList <+: rest :=
    fun rest hbehind hstands => h (hstands.isInfix.trans hbehind.isInfix)
  have hrest : c.rest = c.rest ++ [] := (List.append_nil c.rest).symm
  have htaken : TakesEach (outside delimiter name) n c.rest [] := by
    intro before ch behind hbefore d hd
    refine outside_of_cons (hnowhere d.rest ⟨before, ?_⟩) hd name n
    rw [hd, hbefore, List.append_nil]
  have hlast : outside delimiter name n (c.skip c.rest []) =
      fail ⟨[⟨"any character", c.position + byteLength c.rest⟩], true⟩ :=
    outside_at_end (hnowhere [] List.nil_suffix) rfl name n
  exact repeatFrom_of_taken hrest htaken hn hlast []

/-- Scanning a text for a delimiter ends at the first place where it stands, with the characters before
it. If it stands nowhere, the scan fails, committed, at the end of the text, where it expects any
character. -/
theorem scan_stops_at_first (delimiter name : String) (source : Source)
    (hn : source.text.length < n) :
    (delimiter.toList <:+: source.text →
      ∃ before after, FirstOccurrence delimiter.toList source.text before after ∧
        ((scanTo delimiter name).parse source n).ending =
          .value (.success before ⟨source, byteLength before, after⟩)) ∧
      (¬ delimiter.toList <:+: source.text →
        ((scanTo delimiter name).parse source n).ending =
          .value (.failure ⟨[⟨"any character", byteLength source.text⟩], true⟩)) := by
  constructor
  · intro hoccurs
    rcases FirstOccurrence.exists_of_infix hoccurs with ⟨before, after, hfirst⟩
    have hlength : before.length ≤ source.text.length := by
      rw [hfirst.text_eq, List.length_append]
      omega
    have hscan := scanTo_of_first (c := Cursor.start source) hfirst name (n := n) (by omega)
    refine ⟨before, after, hfirst, ?_⟩
    rw [ending_parse, hscan, Cursor.skip, Cursor.start, Nat.zero_add]
    rfl
  · intro hmissing
    have hscan := scanTo_of_missing (c := Cursor.start source) hmissing name hn
    rw [ending_parse, hscan, Cursor.start, Nat.zero_add]
    rfl

/-- The delimiter overlaps itself, and stands behind a character of two bytes. -/
theorem scan_stops_at_overlapping_delimiter :
    let source := Source.ofString 0 "é]a]]]"
    let unclosed := Source.ofString 0 "é]a]"
    ((scanTo "]]" "mark").parse source 7).ending =
        .value (.success ['é', ']', 'a'] ⟨source, 4, [']', ']', ']']⟩) ∧
      ((scanTo "]]" "mark").parse unclosed 7).ending =
        .value (.failure ⟨[⟨"any character", 5⟩], true⟩) := by
  intro source unclosed
  have hfirst : FirstOccurrence "]]".toList source.text ['é', ']', 'a'] [']', ']', ']'] := by
    refine ⟨rfl, by decide, ?_⟩
    intro before after htext hstands
    have hnot : ∀ k < 3, ¬ "]]".toList <+: source.text.drop k := by decide
    have hdrop : source.text.drop before.length = after := by rw [htext, List.drop_left]
    by_contra hlt
    exact hnot before.length (by simpa using hlt) (hdrop ▸ hstands)
  constructor
  · rcases (scan_stops_at_first "]]" "mark" source (n := 7) (by decide)).1 (by decide)
      with ⟨before, after, hfirst', hending⟩
    rcases hfirst.unique hfirst' with ⟨rfl, rfl⟩
    exact hending
  · exact (scan_stops_at_first "]]" "mark" unclosed (by decide)).2 (by decide)

end Scanning

end Parser

end CommittedParsing
