import CommittedParsing.Grammar.Forms
import CommittedParsing.Proofs.OrderedChoice
import CommittedParsing.Proofs.Repetition.Characters
import CommittedParsing.Proofs.Rules.SingleDefinition

/-!
# Nested brackets

A rule that refers to itself between two brackets, or else takes nothing, takes as many closing brackets as
there are opening ones in front of them. Which of its alternatives is meant is decided by the opening
bracket alone: behind one the rule is committed, on each level for itself. So where a closing bracket is
missing, no level falls back to taking nothing, and all pass on the one failure, at the byte where the
brackets end. What the innermost level expected, another opening bracket, is forgotten as soon as it takes
nothing instead.

It makes no difference how the rule is tied: by itself, through the forwarder of a stored rule, or by calls.
All that matters is that a use of the rule runs its body over the rule with one unit of fuel less.

Main statements:
* `Nesting.ending_level` — one level, in terms of the level inside;
* `Nesting.ending_of_levels` — all levels, by the number of opening brackets;
* `Nesting.nests_on_every_text` — the rule on every text, tied in each of these ways.
-/

namespace CommittedParsing

open Run Text

namespace Nesting

/-! ## Brackets in front -/

/-- How often a character stands at the front of a text. -/
def leading (ch : Char) (text : List Char) : Nat := (text.takeWhile fun found => found == ch).length

/-- The text behind all leading opening brackets. -/
def inside (text : List Char) : List Char := text.dropWhile fun found => found == '('

/-- The number of leading opening brackets. -/
def opened (text : List Char) : Nat := leading '(' text

/-- The number of closing brackets that directly follow them. -/
def closed (text : List Char) : Nat := leading ')' (inside text)

@[simp] theorem leading_cons_self (ch : Char) (text : List Char) :
    leading ch (ch :: text) = leading ch text + 1 := by
  simp [leading]

/-- A text that begins with another character, or is empty, has none of this one in front. -/
theorem leading_eq_zero {ch : Char} {text : List Char} (h : text.head? ≠ some ch) :
    leading ch text = 0 := by
  cases text with
  | nil => rfl
  | cons found text =>
    have hne : found ≠ ch := by simpa using h
    simp [leading, hne]

theorem leading_le_length (ch : Char) (text : List Char) : leading ch text ≤ text.length :=
  (List.takeWhile_sublist _).length_le

/-- What is left behind the opening brackets is what stands inside. -/
theorem drop_leading (text : List Char) : text.drop (opened text) = inside text := by
  have hsplit : text.takeWhile (fun found => found == '(') ++ inside text = text :=
    List.takeWhile_append_dropWhile
  calc text.drop (opened text)
    _ = (text.takeWhile (fun found => found == '(') ++ inside text).drop (opened text) := by rw [hsplit]
    _ = inside text := List.drop_left' rfl

/-- Among the leading occurrences of a character, and behind them, it stands in front exactly as long as
not all of them are passed. -/
theorem head?_drop_eq_some_iff {ch : Char} {text : List Char} {passed : Nat}
    (h : passed ≤ leading ch text) :
    (text.drop passed).head? = some ch ↔ passed < leading ch text := by
  induction text generalizing passed with
  | nil => simp [leading]
  | cons found text ih =>
    by_cases hfound : found = ch
    · subst hfound
      rw [leading_cons_self] at h ⊢
      cases passed with
      | zero => simp
      | succ passed =>
        rw [List.drop_succ_cons, ih (by omega)]
        omega
    · have hnone : leading ch (found :: text) = 0 := leading_eq_zero (by simpa using hfound)
      rw [hnone] at h ⊢
      obtain rfl : passed = 0 := by omega
      simpa using hfound

@[simp] theorem opened_cons (text : List Char) : opened ('(' :: text) = opened text + 1 :=
  leading_cons_self '(' text

@[simp] theorem closed_cons (text : List Char) : closed ('(' :: text) = closed text := by
  simp [closed, inside]

/-- Behind the opening brackets and as many closing ones, another closing bracket follows exactly if there
are more of them. -/
theorem head?_behind_eq_some_iff {text : List Char} (h : opened text ≤ closed text) :
    (text.drop (2 * opened text)).head? = some ')' ↔ opened text < closed text := by
  rw [Nat.two_mul, ← List.drop_drop, drop_leading]
  exact head?_drop_eq_some_iff h

/-! ## The rule -/

variable {α : Type}

/-- One level: what is inside of two brackets, one level deeper, or nothing. -/
def level (zero : α) (deeper : α → α) (inner : Parser α) : Parser α :=
  Parser.or ((Parser.surround (Parser.literal '(') inner (Parser.literal ')')).map deeper)
    (Parser.pure zero)

/-- The depth of nested brackets. -/
def parser : Parser Nat := Parser.fix fun inner =>
  Parser.or ((Parser.surround (Parser.literal '(') inner (Parser.literal ')')).map fun depth => depth + 1)
    (Parser.pure 0)

/-- The body of the rule, as a grammar over what stands for the rule. -/
def body (rule : Grammar) : Grammar :=
  .or (.map (.surround (.literal '(') rule (.literal ')')) fun depth => .ok depth.increment)
    (.pure (.int 0))

/-- What the rule comes to at a cursor. If as many brackets are closed as are opened, it takes them all and
gives their depth. Else it fails, with a commit, and expects another closing bracket behind the last. -/
def outcome (depth : Nat → α) (c : Cursor) : Outcome α :=
  if opened c.rest ≤ closed c.rest then
    .success (depth (opened c.rest))
      ⟨c.source, c.position + 2 * opened c.rest, c.rest.drop (2 * opened c.rest)⟩
  else .failure ⟨[⟨"')'", c.position + opened c.rest + closed c.rest⟩], true⟩

/-! ## One level -/

section

variable {depth : Nat → α} {deeper : α → α} {inner : Parser α} {n : Nat} {c : Cursor}
variable {rest : List Char}

/-- Where no bracket opens, the depth is nought and nothing is read. -/
theorem outcome_of_head_ne (depth : Nat → α) (h : c.rest.head? ≠ some '(') :
    outcome depth c = .success (depth 0) c := by
  have hnone : opened c.rest = 0 := leading_eq_zero h
  simp [outcome, hnone]

/-- What the rule comes to behind an opening bracket, from inside of it. -/
theorem outcome_of_cons (depth : Nat → α) (h : c.rest = '(' :: rest) :
    outcome depth c =
      if opened rest < closed rest then
        .success (depth (opened rest + 1))
          ⟨c.source, c.position + 1 + 2 * opened rest + 1, rest.drop (2 * opened rest + 1)⟩
      else .failure ⟨[⟨"')'", c.position + 1 + opened rest + closed rest⟩], true⟩ := by
  have hdouble : 2 * (opened rest + 1) = 2 * opened rest + 1 + 1 := by omega
  have hend : c.position + (2 * opened rest + 1 + 1) = c.position + 1 + 2 * opened rest + 1 := by omega
  have hbyte : c.position + (opened rest + 1) + closed rest =
      c.position + 1 + opened rest + closed rest := by omega
  simp only [outcome, h, opened_cons, closed_cons, Nat.succ_le_iff, hdouble, hend, hbyte,
    List.drop_succ_cons]

/-- Behind as many closing brackets as are opened inside, the closing bracket of the level itself is read
exactly if there is one more. Else it is missing behind the last of them. -/
theorem ending_closing (source : Source) (position n : Nat) (hinside : opened rest ≤ closed rest) :
    (Parser.literal ')' n ⟨source, position + 2 * opened rest, rest.drop (2 * opened rest)⟩).ending = .value
      (if opened rest < closed rest then
        .success ')' ⟨source, position + 2 * opened rest + 1, rest.drop (2 * opened rest + 1)⟩
      else .failure (Failure.expected "')'" (position + opened rest + closed rest))) := by
  -- where the closing bracket of this level is expected
  let behind : Cursor := ⟨source, position + 2 * opened rest, rest.drop (2 * opened rest)⟩
  by_cases hclosed : opened rest < closed rest
  · obtain ⟨more, hmore⟩ := List.head?_eq_some_iff.1 ((head?_behind_eq_some_iff hinside).2 hclosed)
    have hafter : rest.drop (2 * opened rest + 1) = more := by
      rw [← List.tail_drop, hmore, List.tail_cons]
    have hliteral : Parser.literal ')' n behind = succeed ')' (behind.skip [')'] more) :=
      Parser.literal_of_cons hmore n
    rw [if_pos hclosed, hafter]
    exact congrArg Run.ending hliteral
  · have hmissing : behind.rest.head? ≠ some ')' :=
      fun hhead => hclosed ((head?_behind_eq_some_iff hinside).1 hhead)
    have hall : position + opened rest + closed rest = position + 2 * opened rest := by omega
    rw [if_neg hclosed, hall]
    exact congrArg Run.ending (Parser.literal_of_head_ne hmissing n)

/-- Brackets around what is inside of them are closed, or a closing bracket is missing, in there or here.
It is missed with a commit. -/
theorem ending_surround (h : c.rest = '(' :: rest)
    (hinner : (inner n (c.skip ['('] rest)).ending = .value (outcome depth (c.skip ['('] rest))) :
    (Parser.surround (Parser.literal '(') inner (Parser.literal ')') n c).ending = .value
      (if opened rest < closed rest then
        .success (depth (opened rest))
          ⟨c.source, c.position + 1 + 2 * opened rest + 1, rest.drop (2 * opened rest + 1)⟩
      else .failure ⟨[⟨"')'", c.position + 1 + opened rest + closed rest⟩], true⟩) := by
  -- the opening bracket is there, so what is inside and the closing one remain
  have hopened : Parser.surround (Parser.literal '(') inner (Parser.literal ')') n c =
      (inner n (c.skip ['('] rest)).commit.andThen fun a after =>
        (Parser.literal ')' n after).commit.andThen fun _ rest => succeed a rest := by
    rw [Parser.surround, Parser.seq3, Parser.literal_of_cons h, succeed_andThen]
  rw [hopened]
  rw [outcome, Cursor.rest_skip] at hinner
  by_cases hinside : opened rest ≤ closed rest
  · -- what is inside is read, and it is up to the closing bracket of this level
    rw [if_pos hinside] at hinner
    have hread : (inner n (c.skip ['('] rest)).commit.ending = _ :=
      ending_mapFailure_eq_success_iff.2 hinner
    have hclosing := ending_closing c.source (c.position + 1) n hinside
    split at hclosing
    next hclosed =>
      rw [if_pos hclosed]
      refine ending_andThen_eq_success_iff.2 ⟨_, _, hread, ?_⟩
      exact ending_andThen_eq_success_iff.2 ⟨_, _, ending_mapFailure_eq_success_iff.2 hclosing, rfl⟩
    next hclosed =>
      rw [if_neg hclosed]
      refine ending_andThen_eq_failure_iff.2 (.inr ⟨_, _, hread, ?_⟩)
      exact ending_andThen_eq_failure_iff.2 (.inl (ending_mapFailure_eq_failure_iff.2 ⟨_, hclosing, rfl⟩))
  · have hclosed : ¬ opened rest < closed rest := by omega
    rw [if_neg hinside] at hinner
    rw [if_neg hclosed]
    refine ending_andThen_eq_failure_iff.2 (.inl (ending_mapFailure_eq_failure_iff.2 ?_))
    exact ⟨_, hinner, rfl⟩

/-- A level comes to what it should if the level inside does. -/
theorem ending_level (hdeeper : ∀ k, deeper (depth k) = depth (k + 1))
    (hinner : ∀ rest, c.rest = '(' :: rest →
      (inner n (c.skip ['('] rest)).ending = .value (outcome depth (c.skip ['('] rest))) :
    (level (depth 0) deeper inner n c).ending = .value (outcome depth c) := by
  by_cases hopen : c.rest.head? = some '('
  · obtain ⟨rest, hrest⟩ := List.head?_eq_some_iff.1 hopen
    have hsurround := ending_surround hrest (hinner rest hrest)
    let deepened := (Parser.surround (Parser.literal '(') inner (Parser.literal ')')).map deeper
    rw [outcome_of_cons depth hrest]
    split at hsurround
    next hclosed =>
      have hmap : (deepened n c).ending = .value (.success (deeper (depth (opened rest)))
          ⟨c.source, c.position + 1 + 2 * opened rest + 1, rest.drop (2 * opened rest + 1)⟩) :=
        ending_andThen_eq_success_iff.2 ⟨_, _, hsurround, rfl⟩
      rw [if_pos hclosed, ← hdeeper, level, Parser.or_of_not_failed (by simp [deepened, hmap])]
      exact hmap
    next hclosed =>
      -- the failure is committed, so that nothing else is tried
      have hmap : (deepened n c).ending = .value
          (.failure ⟨[⟨"')'", c.position + 1 + opened rest + closed rest⟩], true⟩) :=
        ending_andThen_eq_failure_iff.2 (.inl hsurround)
      rw [if_neg hclosed, level, Parser.ending_or_of_failed hmap]
      rfl
  · -- nothing is taken, and what was expected is forgotten
    rw [outcome_of_head_ne depth hopen]
    simp only [level, Parser.or, Parser.map, Parser.surround, Parser.seq3,
      Parser.literal_of_head_ne hopen, fail_andThen]
    rfl

/-! ## All levels -/

/-- A rule that runs its body over itself, with one unit of fuel less, comes to what it should with more
fuel than there are opening brackets. -/
theorem ending_of_levels (depth : Nat → α) (deeper : α → α) {p : Parser α}
    (hdeeper : ∀ k, deeper (depth k) = depth (k + 1))
    (hp : ∀ n c, p (n + 1) c = level (depth 0) deeper (fun _ => p n) n c) (hn : opened c.rest < n) :
    (p n c).ending = .value (outcome depth c) := by
  induction n generalizing c with
  | zero => omega
  | succ n ih =>
    rw [hp]
    refine ending_level hdeeper ?_
    intro rest hrest
    rw [hrest, opened_cons] at hn
    exact ih (c := c.skip ['('] rest) (by rw [Cursor.rest_skip]; omega)

end

/-! ## Ways to tie the rule -/

/-- What delimiters yield is dropped. -/
theorem surround_map {β β' γ γ' : Type} (f : β → β') (g : γ → γ') (opening : Parser β)
    (inner : Parser α) (closing : Parser γ) :
    Parser.surround (opening.map f) inner (closing.map g) = Parser.surround opening inner closing := by
  funext n c
  simp only [Parser.surround, Parser.seq3, Parser.map, Run.commit, mapFailure_andThen, andThen_assoc,
    succeed_andThen, mapFailure_succeed]

/-- A depth as a value. -/
def depthValue (depth : Nat) : Value := .int (Int64.ofNat depth)

/-- One more level is one more in the value. -/
theorem increment_depthValue (depth : Nat) : (depthValue depth).increment = depthValue (depth + 1) := by
  rw [depthValue, depthValue, Int64.ofNat_add]
  rfl

/-- The body of the rule is one level, over whatever stands for the rule. -/
theorem denote_body (call : String → Scope → Parser Value) (scope : Scope) (rule : Grammar) :
    (body rule).denote call scope = level (depthValue 0) Value.increment (rule.denote call scope) := by
  have hbrackets : (Grammar.surround (.literal '(') rule (.literal ')')).denote call scope =
      Parser.surround (Parser.literal '(') (rule.denote call scope) (Parser.literal ')') := by
    rw [Grammar.surround, Grammar.denote_seq3]
    exact surround_map Value.char Value.char _ _ _
  simp only [body, level, Grammar.denote, hbrackets]
  rfl

section

variable {n : Nat} {c : Cursor}

/-- The rule tied by itself. -/
theorem ending_recursive (name : String) (hn : opened c.rest < n) :
    ((Grammar.recursive name (body (.reference name))).parser n c).ending =
      .value (outcome depthValue c) := by
  refine ending_of_levels depthValue Value.increment increment_depthValue ?_ hn
  intro n c
  have hself : ∀ call (self : Parser Value),
      (Grammar.reference name).denote call [(name, self)] = self :=
    fun call self => Scope.parser_cons_self name self []
  rw [Grammar.parser, System.parser, Grammar.denote_recursive_succ, denote_body]
  simp only [System.scopeOf, List.map_nil, hself]

/-- The rule of a handle, tied through a forwarder. -/
theorem ending_rule {s : System} {h : Handle} {name : String}
    (hdefinition : s.store.resolve h = .ok ⟨body (.reference name), [(name, .weak h.rule)]⟩)
    (hn : opened c.rest < n) : (s.rule h n c).ending = .value (outcome depthValue c) := by
  refine ending_of_levels depthValue Value.increment increment_depthValue ?_ hn
  intro n c
  have hforwarder : s.target (.rule (.weak h.rule)) = s.rule h :=
    s.rule_eq_of_rule (h := .weak h.rule) rfl
  rw [System.rule_succ hdefinition, denote_body, ← hforwarder]
  simp only [System.scopeOf, List.map_cons, List.map_nil, Grammar.denote, Scope.parser_cons_self]

/-- The rule tied by a call of itself, which builds it anew. -/
theorem ending_call {s : System} {name : String}
    (hbody : s.library.lookup name = some (body (.call name))) (scope : Scope)
    (hn : opened c.rest < n) :
    (s.target (.call name scope) n c).ending = .value (outcome depthValue c) := by
  refine ending_of_levels depthValue Value.increment increment_depthValue ?_ hn
  intro n c
  rw [System.call_succ hbody, denote_body]
  rfl

end

/-- On every text, and however it is tied, the rule of nested brackets takes as many closing brackets as
there are opening ones, and gives their number; if there are fewer, it fails, committed, where the next one
is missing. It never needs more fuel than the text has characters, and one unit more. -/
theorem nests_on_every_text (source : Source) {n : Nat} (hn : source.text.length < n) :
    let start := Cursor.start source
    (parser.parse source n).ending = .value (outcome id start) ∧
      (∀ name, ((Grammar.recursive name (body (.reference name))).parser.parse source n).ending =
        .value (outcome depthValue start)) ∧
      (∀ (s : System) (h : Handle) (name : String),
        s.store.resolve h = .ok ⟨body (.reference name), [(name, .weak h.rule)]⟩ →
          ((s.rule h).parse source n).ending = .value (outcome depthValue start)) ∧
      ∀ (s : System) (name : String), s.library.lookup name = some (body (.call name)) →
        ((s.parser ⟨.call name, []⟩).parse source n).ending = .value (outcome depthValue start) := by
  intro start
  have hopened : opened start.rest < n := Nat.lt_of_le_of_lt (leading_le_length '(' source.text) hn
  simp only [Parser.ending_parse]
  refine ⟨?_, ?_, ?_, ?_⟩
  · exact ending_of_levels id (fun depth => depth + 1) (fun _ => rfl) (fun _ _ => rfl) hopened
  · exact fun name => ending_recursive name hopened
  · exact fun s h name hdefinition => ending_rule hdefinition hopened
  · exact fun s name hbody => ending_call hbody [] hopened

/-- Three brackets that are closed, and two of which one is not. -/
theorem nests_three_deep :
    let source := Source.ofString 0 "((()))rest"
    let unclosed := Source.ofString 0 "(()"
    let tied := (Session.empty.step
      (.recursive "nested" "inner" (body (.reference "inner")) .nothing)).2.system
    let called : System := ⟨Store.empty, [("nested", body (.call "nested"))]⟩
    source.text.length < 11 ∧ unclosed.text.length < 11 ∧
      tied.store.resolve (.strong 0) = .ok ⟨body (.reference "inner"), [("inner", .weak 0)]⟩ ∧
      called.library.lookup "nested" = some (body (.call "nested")) ∧
      (parser.parse source 11).ending = .value (.success 3 ⟨source, 6, ['r', 'e', 's', 't']⟩) ∧
      ((tied.rule (.strong 0)).parse source 11).ending =
        .value (.success (.int 3) ⟨source, 6, ['r', 'e', 's', 't']⟩) ∧
      (parser.parse unclosed 11).ending = .value (.failure ⟨[⟨"')'", 3⟩], true⟩) ∧
      ((called.parser ⟨.call "nested", []⟩).parse unclosed 11).ending =
        .value (.failure ⟨[⟨"')'", 3⟩], true⟩) := by
  intro source unclosed tied called
  have hsource : source.text.length < 11 := by decide
  have hunclosed : unclosed.text.length < 11 := by decide
  have htied : tied.store.resolve (.strong 0) =
      .ok ⟨body (.reference "inner"), [("inner", .weak 0)]⟩ := rfl
  have hcalled : called.library.lookup "nested" = some (body (.call "nested")) := rfl
  obtain ⟨htyped, -, hrule, -⟩ := nests_on_every_text source hsource
  obtain ⟨htyped', -, -, hcall⟩ := nests_on_every_text unclosed hunclosed
  exact ⟨hsource, hunclosed, htied, hcalled, htyped, hrule tied (.strong 0) "inner" htied, htyped',
    hcall called "nested" hcalled⟩

end Nesting

end CommittedParsing
