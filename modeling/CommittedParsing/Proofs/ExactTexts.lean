import CommittedParsing.Grammar.Forms
import CommittedParsing.Grammar.Meaning
import CommittedParsing.Proofs.Reports.Places
import CommittedParsing.Proofs.Repetition.Characters

/-!
# Exact texts

An exact text is matched as a whole: it is read where it stands, and nothing is read where it does not.
The same is read by its characters one after the other. What differs is the failure. The sequence fails
where a character is missing, and with a commit if others were read before, while the text fails where it
began, without a commit, as if the sequence were taken back and given the text as its name.

To compare the bytes of a text with the bytes that are left is to compare characters: no character begins
like another one in its bytes and then stops short of it. So a text that stands there in bytes ends between
two characters, and inside of the source.

Main statements:
* `Text.bytes_prefix_iff` — a text begins with another if its bytes do;
* `Parser.ReadsWord.seq2` — words read one after the other are one word;
* `Parser.ReadsWord.labelled_eq_text` — a word that is taken back and named is an exact text;
* `Parser.text_is_atomic` — exact texts, by characters, in parts and in bytes.
-/

namespace CommittedParsing

open Run Text

/-! ## Bytes of characters -/

namespace Text

/-- A text in two parts is encoded part by part. -/
theorem bytes_append (cs ds : List Char) : bytes (cs ++ ds) = bytes cs ++ bytes ds :=
  List.flatMap_append

/-- A text begins with another exactly if its bytes begin with the bytes of the other. -/
theorem bytes_prefix_iff {word text : List Char} : bytes word <+: bytes text ↔ word <+: text := by
  constructor
  · rintro ⟨others, hothers⟩
    have hencoded : word.utf8Encode ++ others.toByteArray = text.utf8Encode := by
      rw [List.utf8Encode, List.utf8Encode, ← List.toByteArray_append]
      exact congrArg List.toByteArray hothers
    exact List.isPrefix_of_utf8Encode_append_eq_utf8Encode _ hencoded
  · rintro ⟨rest, rfl⟩
    rw [bytes_append]
    exact List.prefix_append _ _

end Text

namespace Parser

variable {α β γ : Type}

/-! ## Words -/

/-- The parser reads one word and nothing else, and leaves no record. -/
structure ReadsWord (p : Parser α) (word : List Char) : Prop where
  /-- Where the word stands, it is read. -/
  stands : ∀ {n : Nat} {c : Cursor} {rest : List Char}, c.rest = word ++ rest →
    ∃ a, p n c = succeed a (c.skip word rest)
  /-- Where it does not, the parser fails. -/
  missing : ∀ {n : Nat} {c : Cursor}, ¬ word <+: c.rest → ∃ e, p n c = fail e

namespace ReadsWord

variable {p : Parser α} {q : Parser β} {word word' : List Char}

/-- The parser of a text reads that text as one word. -/
theorem text (s : String) : (Parser.text s).ReadsWord s.toList where
  stands hrest := ⟨s, text_of_append hrest _⟩
  missing hmissing := ⟨_, text_of_mismatch hmissing _⟩

/-- The parser of a character reads that character as a word. -/
theorem literal (ch : Char) : (Parser.literal ch).ReadsWord [ch] where
  stands hrest := ⟨ch, literal_of_cons hrest _⟩
  missing hmissing := by
    rw [List.singleton_prefix_iff_head?_eq_some] at hmissing
    exact ⟨_, literal_of_head_ne hmissing _⟩

/-- Changing the value changes nothing of the word that is read. -/
theorem map (hp : p.ReadsWord word) (f : α → γ) : (p.map f).ReadsWord word where
  stands {n c rest} hrest := by
    obtain ⟨a, ha⟩ := hp.stands (n := n) hrest
    exact ⟨f a, by rw [Parser.map, ha, succeed_andThen]⟩
  missing {n c} hmissing := by
    obtain ⟨e, he⟩ := hp.missing (n := n) hmissing
    exact ⟨e, by rw [Parser.map, he, fail_andThen]⟩

/-- Words read one after the other are one word. -/
theorem seq2 (hp : p.ReadsWord word) (hq : q.ReadsWord word') (combine : α → β → γ) :
    (Parser.seq2 p q combine).ReadsWord (word ++ word') where
  stands {n c rest} hrest := by
    rw [List.append_assoc] at hrest
    obtain ⟨a, ha⟩ := hp.stands (n := n) hrest
    obtain ⟨b, hb⟩ := hq.stands (n := n) (c.rest_skip word (word' ++ rest))
    refine ⟨combine a b, ?_⟩
    rw [Parser.seq2, ha, succeed_andThen, hb, Cursor.skip_skip]
    rfl
  missing {n c} hmissing := by
    by_cases hfirst : word <+: c.rest
    · obtain ⟨rest, hrest⟩ := hfirst
      -- the second word is looked for behind the first
      have hsecond : ¬ word' <+: (c.skip word rest).rest := by
        rw [Cursor.rest_skip, ← List.prefix_append_right_inj word, hrest]
        exact hmissing
      obtain ⟨a, ha⟩ := hp.stands (n := n) hrest.symm
      obtain ⟨e, he⟩ := hq.missing (n := n) hsecond
      refine ⟨e.commit, ?_⟩
      rw [Parser.seq2, ha, succeed_andThen, he]
      rfl
    · obtain ⟨e, he⟩ := hp.missing (n := n) hfirst
      exact ⟨e, by rw [Parser.seq2, he, fail_andThen]⟩

/-- A parser of a word succeeds exactly by reading the word. -/
theorem succeeds_iff (hp : p.ReadsWord word) {n : Nat} {c rest : Cursor} :
    (∃ a, (p n c).ending = .value (.success a rest)) ↔ c.Reads word rest := by
  constructor
  · rintro ⟨a, hsuccess⟩
    -- a parser of a word that does not stand here fails, so it stands here
    by_cases hstands : word <+: c.rest
    · obtain ⟨behind, hbehind⟩ := hstands
      obtain ⟨b, hb⟩ := hp.stands (n := n) hbehind.symm
      rw [hb] at hsuccess
      cases hsuccess
      exact .skip hbehind.symm
    · obtain ⟨e, he⟩ := hp.missing (n := n) hstands
      rw [he] at hsuccess
      cases hsuccess
  · rintro ⟨hrest, hskip⟩
    obtain ⟨a, ha⟩ := hp.stands (n := n) hrest
    exact ⟨a, by rw [ha, ← hskip]; rfl⟩

/-- A word that is taken back where it fails, and named, is an exact text. -/
theorem labelled_eq_text {s : String} (hp : p.ReadsWord s.toList) :
    (label ("\"" ++ s ++ "\"") (attempt p)).map (fun _ => s) = Parser.text s := by
  funext n c
  by_cases hstands : s.toList <+: c.rest
  · obtain ⟨rest, hrest⟩ := hstands
    obtain ⟨a, ha⟩ := hp.stands (n := n) hrest.symm
    rw [text_of_append hrest.symm, Parser.map, label, attempt, ha]
    rfl
  · obtain ⟨e, he⟩ := hp.missing (n := n) hstands
    rw [text_of_mismatch hstands, Parser.map, label, attempt, he]
    rfl

end ReadsWord

/-! ## Characters in order -/

variable {call : String → Scope → Parser Value} {scope : Scope}

/-- Each further character is put behind the word that the ones before it are. -/
theorem readsWord_allOf (others : List Char) {first : Grammar} {word : List Char}
    (hfirst : (first.denote call scope).ReadsWord word) :
    ((Grammar.allOf first (others.map Grammar.literal)).denote call scope).ReadsWord
      (word ++ others) := by
  induction others generalizing first word with
  | nil => simpa [Grammar.allOf] using hfirst
  | cons ch others ih =>
    have hnext : ((first.and (.literal ch)).denote call scope).ReadsWord (word ++ [ch]) := by
      rw [Grammar.and, Grammar.denote_seq2]
      exact hfirst.seq2 ((ReadsWord.literal ch).map Value.char) Value.pair
    have hothers := ih hnext
    rwa [List.append_assoc] at hothers

/-! ## The law -/

/-- An exact text is matched as a whole.

* It is what its characters in order are, taken back where they fail and named by the text in quotes.
* The empty text stands everywhere, and nothing is read.
* A text in two parts is read exactly where its parts are read one after the other, with the same end.
* It is matched exactly where the bytes that are left begin with its bytes. The cursor behind it stands so
  many bytes further on, between two characters of the source. -/
theorem text_is_atomic :
    (∀ (first : Char) (others : List Char) (call : String → Scope → Parser Value) (scope : Scope),
      let word := String.ofList (first :: others)
      let characters := Grammar.allOf (.literal first) (others.map .literal)
      (Grammar.text word).denote call scope =
        (Grammar.map (.label (.attempt characters) ("\"" ++ word ++ "\"")) fun _ =>
          .ok (.string word)).denote call scope) ∧
    (∀ n c, text "" n c = succeed "" c) ∧
    (∀ (s u : String) (n : Nat) (c rest : Cursor),
      (∃ v, (text (s ++ u) n c).ending = .value (.success v rest)) ↔
        ∃ v, (Parser.and (text s) (text u) n c).ending = .value (.success v rest)) ∧
    ∀ (s : String) (n : Nat) (c : Cursor), c.Valid →
      (bytes s.toList <+: bytes c.rest →
        ∃ rest, text s n c = succeed s rest ∧ rest.Valid ∧ rest.source = c.source ∧
          rest.position = c.position + (bytes s.toList).length) ∧
      (¬ bytes s.toList <+: bytes c.rest →
        text s n c = fail (Failure.expected ("\"" ++ s ++ "\"") c.position)) := by
  refine ⟨?_, ?_, ?_, ?_⟩
  · intro first others call scope word characters
    have hfirst : ((Grammar.literal first).denote call scope).ReadsWord [first] :=
      (ReadsWord.literal first).map Value.char
    -- the characters one behind the other read the text as one word
    have hword : (characters.denote call scope).ReadsWord word.toList := by
      rw [String.toList_ofList]
      exact readsWord_allOf others hfirst
    calc (Grammar.text word).denote call scope
      _ = (text word).map Value.string := rfl
      _ = ((label ("\"" ++ word ++ "\"") (attempt (characters.denote call scope))).map
            fun _ => word).map Value.string := by rw [hword.labelled_eq_text]
      _ = (label ("\"" ++ word ++ "\"") (attempt (characters.denote call scope))).map
            fun _ => Value.string word := map_map _ _ _
  · intro n c
    have hrest : c.rest = "".toList ++ c.rest := rfl
    exact text_of_append hrest n
  · intro s u n c rest
    -- both sides read one word, and the two words are the same
    have hwhole := ReadsWord.text (s ++ u)
    rw [String.toList_append] at hwhole
    have hparts := (ReadsWord.text s).seq2 (ReadsWord.text u) Prod.mk
    rw [hwhole.succeeds_iff, Parser.and, hparts.succeeds_iff]
  · intro s n c hc
    rw [bytes_prefix_iff]
    constructor
    · rintro ⟨rest, hrest⟩
      have hread : c.Reads s.toList (c.skip s.toList rest) := .skip hrest.symm
      refine ⟨_, text_of_append hrest.symm n, hread.valid hc, hread.source_eq, ?_⟩
      rw [hread.position_eq, length_bytes]
    · exact fun hmissing => text_of_mismatch hmissing n

/-- Behind the first character stands one of two bytes, and not the one that begins with the same byte. -/
theorem text_among_equal_first_bytes :
    let c := (Cursor.start (Source.ofString 0 "aéè")).advance 1
    c.Valid ∧ bytes "é".toList <+: bytes c.rest ∧ ¬ bytes "è".toList <+: bytes c.rest ∧
      (bytes "é".toList).head? = (bytes "è".toList).head? ∧
      (∃ rest, text "é" 0 c = succeed "é" rest ∧ rest.Valid ∧ rest.source = c.source ∧
        rest.position = 3) ∧
      text "è" 0 c = fail (Failure.expected "\"è\"" 1) := by
  intro c
  have hc : c.Valid := (Cursor.valid_start _).advance 1
  have hstands : bytes "é".toList <+: bytes c.rest := by decide
  have hmissing : ¬ bytes "è".toList <+: bytes c.rest := by decide
  obtain ⟨-, -, -, hlaw⟩ := text_is_atomic
  exact ⟨hc, hstands, hmissing, rfl, (hlaw "é" 0 c hc).1 hstands, (hlaw "è" 0 c hc).2 hmissing⟩

end Parser

end CommittedParsing
