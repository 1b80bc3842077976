import CommittedParsing.Proofs.Ensures
import CommittedParsing.Proofs.Repetition.Characters

/-!
# Lists of words

Words of letters with a separator between them. A separator that does not begin with a letter cannot be
mistaken for more of the word before it, so the words can be told apart again: parsing undoes joining. It
does so up to a text that goes on neither with a letter nor with a separator. Behind a separator there is no
way back, so a separator that no word follows is an error, and the error is behind it.

Main statements:
* `intercalate_cons_eq` — joined words are the first of them and then separators, each with a word;
* `Parser.loop_of_words` — one round for each separator with a word;
* `Parser.ensures_wordList` — what a list of words has read;
* `Parser.wordList_inverts_joining` — parsing and joining are inverse to each other.
-/

namespace CommittedParsing

open Run Outcome Text

/-! ## Words -/

/-- Letters, and at least one. -/
def IsWord (word : List Char) : Prop := word ≠ [] ∧ ∀ ch ∈ word, ch.isAlpha = true

/-- The text does not begin with a letter. -/
def NoLetterAhead (text : List Char) : Prop := ∀ ch ∈ text.head?, ch.isAlpha = false

/-- Words, each of them behind a separator. -/
def separated (separator : List Char) (words : List (List Char)) : List Char :=
  words.flatMap fun word => separator ++ word

variable {separator tail word : List Char} {words : List (List Char)}

/-- Joined words are the first one and the others, each behind a separator. -/
theorem intercalate_cons_eq (separator word : List Char) (words : List (List Char)) :
    separator.intercalate (word :: words) = word ++ separated separator words := by
  induction words generalizing word with
  | nil => simp [separated]
  | cons next words ih =>
    rw [List.intercalate_cons_cons, ih]
    simp [separated]

/-- One more word at the end is joined by one more separator. -/
theorem intercalate_concat (separator word : List Char) (h : words ≠ []) :
    separator.intercalate (words ++ [word]) = separator.intercalate words ++ (separator ++ word) := by
  rcases List.exists_cons_of_ne_nil h with ⟨first, others, rfl⟩
  rw [List.cons_append, intercalate_cons_eq, intercalate_cons_eq]
  simp [separated]

/-- A separator that begins with no letter keeps letters away whatever stands behind it. -/
theorem NoLetterAhead.append (h : NoLetterAhead separator) (hsome : separator ≠ [])
    (text : List Char) : NoLetterAhead (separator ++ text) := by
  rcases List.exists_cons_of_ne_nil hsome with ⟨ch, others, rfl⟩
  exact h

/-- What stands behind a word does not begin with a letter: it is a separator, or what is behind all. -/
theorem noLetterAhead_separated (hsome : separator ≠ []) (hseparator : NoLetterAhead separator)
    (htail : NoLetterAhead tail) (words : List (List Char)) :
    NoLetterAhead (separated separator words ++ tail) := by
  cases words with
  | nil => exact htail
  | cons word words =>
    rw [separated, List.flatMap_cons, List.append_assoc, List.append_assoc]
    exact hseparator.append hsome _

/-- There are no more words than characters. -/
theorem length_le_length_separated (hwords : ∀ word ∈ words, IsWord word) :
    words.length ≤ (separated separator words).length := by
  induction words with
  | nil => exact Nat.zero_le _
  | cons word words ih =>
    have hword : 0 < word.length := List.length_pos_iff.2 (hwords word List.mem_cons_self).1
    have hle := ih fun word h => hwords word (List.mem_cons_of_mem _ h)
    simp only [separated, List.flatMap_cons, List.length_append, List.length_cons] at hle ⊢
    omega

namespace Parser

/-- Words with a separator between each two of them. -/
def wordList (separator : String) : Parser (List (List Char)) := sepBy (many1 letter) (text separator)

variable {separator : String} {c : Cursor} {n : Nat}

/-! ## Reading a joined list -/

/-- A word is read whole where no letter follows it. -/
theorem many1_letter (hrest : c.rest = word ++ tail) (hword : IsWord word) (htail : NoLetterAhead tail)
    (hn : word.length ≤ n) : many1 letter n c = succeed word (c.skip word tail) :=
  many1_satisfy hrest hword.1 hword.2 htail hn "letter"

/-- Where no letter comes next, no word is read, and the failure is not committed. -/
theorem many1_letter_of_noLetterAhead (h : NoLetterAhead c.rest) (n : Nat) :
    many1 letter n c = fail (Failure.expected "letter" c.position) := by
  rw [many1, letter, satisfy_of_not_accepted h, fail_andThen]

/-- One round for each separator with a word behind it. -/
theorem loop_of_words (hsome : separator.toList ≠ []) (hseparator : NoLetterAhead separator.toList)
    (hwords : ∀ word ∈ words, IsWord word) (htail : NoLetterAhead tail)
    (hrest : c.rest = separated separator.toList words ++ tail) (hn : c.rest.length < n) (rounds : Nat)
    (past : List (List Char)) :
    Run.loop (chainStep (text separator) (many1 letter) takeItem n) (words.length + rounds) (past, c) =
      Run.loop (chainStep (text separator) (many1 letter) takeItem n) rounds
        (words.reverse ++ past, c.skip (separated separator.toList words) tail) := by
  -- one round for each word: a separator, and the word behind it
  induction words generalizing c past with
  | nil =>
    have hstill : c.skip [] tail = c := skip_nil_of_rest hrest
    simp [separated, hstill]
  | cons word words ih =>
    let behind := separated separator.toList words ++ tail
    have hsplit : c.rest = separator.toList ++ (word ++ behind) := by
      rw [hrest]
      simp [separated, behind]
    have hlength : c.rest.length = separator.toList.length + (word.length + behind.length) := by
      rw [hsplit, List.length_append, List.length_append]
    -- a word ends where the next separator or the tail begins
    have hword := many1_letter (c := c.skip separator.toList (word ++ behind)) rfl
      (hwords word List.mem_cons_self) (noLetterAhead_separated hsome hseparator htail words)
      (n := n) (by omega)
    have hlater := ih (c := c.skip (separator.toList ++ word) behind)
      (fun word h => hwords word (List.mem_cons_of_mem _ h)) rfl (by rw [Cursor.rest_skip]; omega)
      (word :: past)
    have hrounds : (word :: words).length + rounds = words.length + rounds + 1 := by
      rw [List.length_cons]
      omega
    rw [hrounds, chainFrom_succ, text_of_append hsplit]
    change (many1 letter n (c.skip separator.toList (word ++ behind))).commit.andThen _ = _
    rw [hword, Cursor.skip_skip]
    change Run.loop _ _ _ = _
    rw [hlater, Cursor.skip_skip]
    simp [separated]

/-- Behind the words, the list goes on with one more round. -/
theorem wordList_eq_loop (hsome : separator.toList ≠ []) (hseparator : NoLetterAhead separator.toList)
    (hwords : ∀ word' ∈ word :: words, IsWord word') (htail : NoLetterAhead tail)
    (hrest : c.rest = separator.toList.intercalate (word :: words) ++ tail) (hn : c.rest.length < n) :
    ∃ rounds, wordList separator n c =
      (Run.loop (chainStep (text separator) (many1 letter) takeItem n) (rounds + 1)
        ((word :: words).reverse,
          c.skip (separator.toList.intercalate (word :: words)) tail)).andThen fun items rest =>
            succeed items.reverse rest := by
  rw [intercalate_cons_eq] at hrest ⊢
  rw [List.append_assoc] at hrest
  let behind := separated separator.toList words ++ tail
  have hothers : ∀ word' ∈ words, IsWord word' := fun word' h => hwords word' (List.mem_cons_of_mem _ h)
  have hlength : c.rest.length = word.length + behind.length := by rw [hrest, List.length_append]
  have hbehind : behind.length = (separated separator.toList words).length + tail.length :=
    List.length_append
  have hle : words.length ≤ (separated separator.toList words).length :=
    length_le_length_separated hothers
  -- the first word is read apart from the others, each of which has a separator in front
  have hword := many1_letter hrest (hwords word List.mem_cons_self)
    (noLetterAhead_separated hsome hseparator htail words) (n := n) (by omega)
  rcases Nat.exists_eq_add_of_lt (show words.length < n by omega) with ⟨rounds, hrounds⟩
  have hloop := loop_of_words (c := c.skip word behind) hsome hseparator hothers htail rfl
    (n := n) (by rw [Cursor.rest_skip]; omega) (rounds + 1) [word]
  rw [← Nat.add_assoc, ← hrounds, Cursor.skip_skip] at hloop
  exists rounds
  rw [wordList, sepBy, Parser.map, chain, hword, succeed_andThen, chainFrom, hloop, List.reverse_cons]

/-- Where neither a letter nor a separator follows the words, they are the list. -/
theorem wordList_of_joined (hsome : separator.toList ≠ []) (hseparator : NoLetterAhead separator.toList)
    (hnonempty : words ≠ []) (hwords : ∀ word ∈ words, IsWord word) (htail : NoLetterAhead tail)
    (hends : ¬ separator.toList <+: tail)
    (hrest : c.rest = separator.toList.intercalate words ++ tail) (hn : c.rest.length < n) :
    wordList separator n c = succeed words (c.skip (separator.toList.intercalate words) tail) := by
  rcases List.exists_cons_of_ne_nil hnonempty with ⟨word, words, rfl⟩
  rcases wordList_eq_loop hsome hseparator hwords htail hrest hn with ⟨rounds, hlist⟩
  have hstops := text_of_mismatch
    (c := c.skip (separator.toList.intercalate (word :: words)) tail) hends n
  rw [hlist, chainFrom_succ, hstops]
  change succeed (word :: words).reverse.reverse _ = _
  rw [List.reverse_reverse]

/-- Where a separator follows the words and no letter follows it, a letter is required. -/
theorem wordList_of_trailing (hsome : separator.toList ≠ []) (hseparator : NoLetterAhead separator.toList)
    (hnonempty : words ≠ []) (hwords : ∀ word ∈ words, IsWord word) (htail : NoLetterAhead tail)
    (hrest : c.rest = separator.toList.intercalate words ++ separator.toList ++ tail)
    (hn : c.rest.length < n) :
    wordList separator n c = fail
      ⟨[⟨"letter", c.position + byteLength (separator.toList.intercalate words ++ separator.toList)⟩],
        true⟩ := by
  rcases List.exists_cons_of_ne_nil hnonempty with ⟨word, words, rfl⟩
  rw [List.append_assoc] at hrest
  rcases wordList_eq_loop hsome hseparator hwords (hseparator.append hsome tail) hrest hn
    with ⟨rounds, hlist⟩
  let joined := separator.toList.intercalate (word :: words)
  have hseparates := text_of_append (c := c.skip joined (separator.toList ++ tail)) rfl n
  have hrequired := many1_letter_of_noLetterAhead (c := c.skip (joined ++ separator.toList) tail) htail n
  rw [hlist, chainFrom_succ, hseparates, Cursor.skip_skip]
  change ((many1 letter n (c.skip (joined ++ separator.toList) tail)).commit.andThen _).andThen _ = _
  rw [hrequired]
  rfl

/-! ## What has been read -/

/-- Whatever the parser of words returns is a word, and has been read. -/
theorem ensures_word (n : Nat) (c : Cursor) : (many1 letter n c).Ensures anyAbort
    (Meets (fun word rest => IsWord word ∧ c.Reads word rest) fun _ => True) := by
  have hletter : ∀ d : Cursor, (letter n d).Ensures anyAbort
      (Meets (fun ch rest => ch.isAlpha = true ∧ d.Reads [ch] rest) fun _ => True) := fun d =>
    ensures_satisfy (fun ch rest hrest hch => ⟨hch, Cursor.Reads.skip hrest⟩) trivial
  have hfirst : ∀ ch : Char, ch.isAlpha = true → IsWord [ch] := fun ch hch => ⟨by simp, by simp [hch]⟩
  refine ensures_many1 (hletter c) (fun _ _ => trivial) (fun ch rest h _ => ⟨hfirst ch h.1, h.2⟩) ?_
  rintro ch rest ⟨hch, hreads⟩ _
  -- the letters so far, in reverse, are a word, too
  refine ensures_repeatFrom (I := fun _ past d => IsWord past ∧ c.Reads past.reverse d)
    (fun _ _ _ => trivial) ?_ ⟨hfirst ch hch, hreads⟩
  rintro _ past d ⟨hpast, hreads⟩
  have hmore : ∀ ch : Char, ch.isAlpha = true → IsWord (ch :: past) := fun ch hch =>
    ⟨by simp, List.forall_mem_cons.2 ⟨hch, hpast.2⟩⟩
  have hreverse : ∀ {past : List Char}, IsWord past → IsWord past.reverse := fun h =>
    ⟨by simpa using h.1, by simpa using h.2⟩
  refine (hletter d).mono ?_ ?_
  · rintro ch rest ⟨hch, hnext⟩
    have hall : c.Reads (ch :: past).reverse rest := by
      rw [List.reverse_cons]
      exact hreads.trans hnext
    exact ⟨fun _ => ⟨hreverse (hmore ch hch), hall⟩, fun _ => ⟨hmore ch hch, hall⟩⟩
  · intro e _
    exact ⟨fun _ => trivial, fun _ => ⟨hreverse hpast, hreads⟩⟩

/-- Whatever the parser of lists returns is some words, and their joined text has been read. -/
theorem ensures_wordList (separator : String) (n : Nat) (c : Cursor) :
    (wordList separator n c).Ensures anyAbort
      (Meets (fun words rest => words ≠ [] ∧ (∀ word ∈ words, IsWord word) ∧
        c.Reads (separator.toList.intercalate words) rest) fun _ => True) := by
  let Joined := fun (past : List (List Char)) (rest : Cursor) =>
    past ≠ [] ∧ (∀ word ∈ past, IsWord word) ∧ c.Reads (separator.toList.intercalate past.reverse) rest
  suffices hchain : (chain (many1 letter) (text separator) (fun first => [first]) takeItem n c).Ensures
      anyAbort (Meets Joined fun _ => True) from
    ensures_map hchain fun past rest ⟨hpast, hwords, hreads⟩ =>
      ⟨List.reverse_ne_nil_iff.2 hpast, fun word h => hwords word (List.mem_reverse.1 h), hreads⟩
  refine ensures_chain (ensures_word n c) (fun _ _ => trivial) ?_
  rintro word afterFirst ⟨hword, hfirst⟩
  -- the words so far, in reverse, are what has been read so far
  refine ensures_chainFrom (I := fun _ => Joined) (fun _ _ _ => trivial) ?_
    ⟨by simp, by simpa using hword, by simpa using hfirst⟩
  rintro _ past d ⟨hsome, hpast, hreads⟩
  refine ensures_text ?_ ⟨fun _ => trivial, fun _ => ⟨hsome, hpast, hreads⟩⟩
  intro rest hrest
  refine (ensures_word n _).mono ?_ fun _ _ => trivial
  rintro next rest' ⟨hnext, hreads'⟩
  have hpair := hreads.trans ((Cursor.Reads.skip hrest).trans hreads')
  refine ⟨by simp, List.forall_mem_cons.2 ⟨hnext, hpast⟩, ?_⟩
  have hmore := intercalate_concat separator.toList next (List.reverse_ne_nil_iff.2 hsome)
  rw [List.reverse_cons, hmore]
  exact hpair

/-! ## Parsing and joining -/

/-- Words that are joined by a separator are parsed as these words, up to a text that goes on neither with a
letter nor with a separator. If a separator and no letter follows them, the parse fails, committed, behind
that separator, where it expects a letter. And if a list is parsed, what has been read is its words, joined
by the separator. -/
theorem wordList_inverts_joining (hsome : separator.toList ≠ [])
    (hseparator : NoLetterAhead separator.toList) (c : Cursor) (n : Nat) :
    (∀ words tail, words ≠ [] → (∀ word ∈ words, IsWord word) → NoLetterAhead tail → c.rest.length < n →
      (c.rest = separator.toList.intercalate words ++ tail → ¬ separator.toList <+: tail →
        (wordList separator n c).ending =
          .value (.success words (c.skip (separator.toList.intercalate words) tail))) ∧
      (c.rest = separator.toList.intercalate words ++ separator.toList ++ tail →
        (wordList separator n c).ending = .value (.failure
          ⟨[⟨"letter", c.position + byteLength (separator.toList.intercalate words ++ separator.toList)⟩],
            true⟩))) ∧
      ∀ words rest, (wordList separator n c).ending = .value (.success words rest) →
        words ≠ [] ∧ (∀ word ∈ words, IsWord word) ∧ c.Reads (separator.toList.intercalate words) rest := by
  constructor
  · intro words tail hnonempty hwords htail hn
    constructor
    · intro hrest hends
      rw [wordList_of_joined hsome hseparator hnonempty hwords htail hends hrest hn]
      rfl
    · intro hrest
      rw [wordList_of_trailing hsome hseparator hnonempty hwords htail hrest hn]
      rfl
  · intro words rest hsuccess
    exact (ensures_wordList separator n c).post_of_value hsuccess

/-- Words with dashes of three bytes between them, with and without a word behind the last dash. -/
theorem wordList_between_dashes :
    let c := Cursor.start (Source.ofString 0 "ab–c!")
    let trailing := Cursor.start (Source.ofString 0 "ab–c–!")
    ((wordList "–" 9 c).ending = .value (.success [['a', 'b'], ['c']] (c.skip ['a', 'b', '–', 'c'] ['!'])) ∧
        c.Reads ("–".toList.intercalate [['a', 'b'], ['c']]) (c.skip ['a', 'b', '–', 'c'] ['!'])) ∧
      (wordList "–" 9 trailing).ending = .value (.failure ⟨[⟨"letter", 9⟩], true⟩) := by
  intro c trailing
  have hsome : "–".toList ≠ [] := by decide
  have hseparator : NoLetterAhead "–".toList := by simp [NoLetterAhead]
  have hwords : ∀ word ∈ [['a', 'b'], ['c']], IsWord word := by simp [IsWord]
  have htail : NoLetterAhead ['!'] := by simp [NoLetterAhead]
  have hlaw := wordList_inverts_joining hsome hseparator c 9
  have hlaw' := wordList_inverts_joining hsome hseparator trailing 9
  have hsuccess := (hlaw.1 _ ['!'] (by decide) hwords htail (by decide)).1 (by decide) (by decide)
  constructor
  · exact ⟨hsuccess, (hlaw.2 _ _ hsuccess).2.2⟩
  · exact (hlaw'.1 _ ['!'] (by decide) hwords htail (by decide)).2 (by decide)

end Parser

end CommittedParsing
