import ParserGenerator.Lexer.Cursor
import ParserGenerator.Proofs.Lexer.Scan

/-!
# Strict and skipping lexers

A lexer keeps nothing in mind at the end of a match: what it makes of the rest of a text depends on
the rest alone, up to the offsets of the tokens. So two lexers that differ in their policy go side
by side up to the first character at which no rule matches. There the strict one stops, and the
skipping one goes on as if the text began behind that character.

Results:
1. `Lexer.stretch_induction`: a text is taken apart as a lexer takes it apart.
2. `Lexer.tokensAt_add`: where the text begins moves the tokens and does nothing else.
3. `Lexer.tokens_of_policies`: the tokens of the two lexers are compared.
-/

namespace ParserGenerator

/-! ## Definitions -/

/-- The token as it is in a text with some bytes more in front. -/
def Token.moved (bytes : Nat) (token : Token) : Token :=
  { token with first := bytes + token.first, past := bytes + token.past }

namespace Lexer

/-- The tokens of a text that starts at a byte of the input, or the error that ends them. -/
def tokensAt (lexer : Lexer) (position : Nat) (text : List Char) : List (Except LexError Token) :=
  lexer.scan text.length position text

/-- What a match makes: a token, unless the symbol is ignored. -/
def madeBy (lexer : Lexer) (symbol : Symbol) (position : Nat) (taken : List Char) : List Token :=
  if lexer.ignored.contains symbol then []
  else [⟨symbol, String.ofList taken, position, position + byteLength taken⟩]

/-- The strict lexer stops at the character `c` behind `before`. The skipping lexer has made the
same tokens by then, and goes on behind the character. -/
structure Parts (lexer : Lexer) (position : Nat) (before : List Char) (c : Char)
    (rest : List Char) (tokens : List Token) : Prop where
  strict_eq : (lexer.withPolicy .strict).tokensAt position (before ++ c :: rest) =
    tokens.map .ok ++ [.error ⟨position + byteLength before, c⟩]
  past_le : ∀ token ∈ tokens, token.past ≤ position + byteLength before
  skip_eq : (lexer.withPolicy .skip).tokensAt position (before ++ c :: rest) =
    tokens.map .ok ++
      (lexer.withPolicy .skip).tokensAt (position + byteLength before + c.utf8Size) rest

variable {lexer : Lexer} {taken rest : List Char} {symbol : Symbol} {c : Char}

/-! ## Stretches -/

/-- A text is empty, begins with a match, or begins with a character at which nothing matches. -/
theorem stretch_induction (lexer : Lexer) {motive : List Char → Prop} (nil : motive [])
    (matched : ∀ {taken rest symbol}, taken ≠ [] →
      lexer.longestMatch (taken ++ rest) = some (symbol, taken.length) → motive rest →
      motive (taken ++ rest))
    (stuck : ∀ {c rest}, lexer.longestMatch (c :: rest) = none → motive rest → motive (c :: rest))
    (text : List Char) : motive text := by
  induction length : text.length using Nat.strongRecOn generalizing text with
  | ind length ih =>
      subst length
      cases found : lexer.longestMatch text with
      | none =>
          cases text with
          | nil => exact nil
          | cons c rest => exact stuck found (ih rest.length (Nat.lt_succ_self _) rest rfl)
      | some result =>
          obtain ⟨symbol, count⟩ := result
          obtain ⟨positive, within⟩ := longestMatch_count found
          have isTaken : (text.take count).length = count := List.length_take_of_le within
          have shorter : (text.drop count).length < text.length := by
            rw [List.length_drop]
            omega
          have nonempty : text.take count ≠ [] := by
            rw [← List.length_pos_iff, isTaken]
            exact positive
          have found : lexer.longestMatch (text.take count ++ text.drop count) =
              some (symbol, (text.take count).length) := by
            rw [List.take_append_drop, isTaken, found]
          have whole := matched nonempty found
            (ih (text.drop count).length shorter (text.drop count) rfl)
          rwa [List.take_append_drop] at whole

/-- More steps than characters change nothing. -/
theorem scan_eq_tokensAt {text : List Char} {fuel : Nat} (enough : text.length ≤ fuel)
    (position : Nat) : lexer.scan fuel position text = lexer.tokensAt position text := by
  unfold tokensAt
  induction text using lexer.stretch_induction generalizing fuel position with
  | nil => rw [scan, scan]
  | matched nonempty found ih =>
      obtain ⟨less, enoughLeft, next⟩ := scan_of_longestMatch nonempty found enough position
      obtain ⟨less', enoughLeft', next'⟩ :=
        scan_of_longestMatch nonempty found (Nat.le_refl _) position
      rw [next, next', ih enoughLeft, ih enoughLeft']
  | stuck missing ih =>
      cases policy : lexer.policy with
      | strict =>
          rw [scan_strict policy missing enough, scan_strict policy missing (Nat.le_refl _)]
      | skip =>
          obtain ⟨less, enoughLeft, next⟩ := scan_skip policy missing enough position
          obtain ⟨less', enoughLeft', next'⟩ := scan_skip policy missing (Nat.le_refl _) position
          rw [next, next', ih enoughLeft, ih enoughLeft']

theorem tokens_eq (lexer : Lexer) (text : String) :
    lexer.tokens text = lexer.tokensAt 0 text.toList := rfl

/-! One equation for each way to begin. -/

theorem tokensAt_nil (lexer : Lexer) (position : Nat) :
    lexer.tokensAt position [] = [.ok (Token.endOfInput position)] := by
  rw [tokensAt, scan]

theorem tokensAt_match (lexer : Lexer) (nonempty : taken ≠ [])
    (found : lexer.longestMatch (taken ++ rest) = some (symbol, taken.length)) (position : Nat) :
    lexer.tokensAt position (taken ++ rest) = (lexer.madeBy symbol position taken).map .ok ++
      lexer.tokensAt (position + byteLength taken) rest := by
  obtain ⟨less, enough, next⟩ := scan_of_longestMatch nonempty found (Nat.le_refl _) position
  rw [tokensAt, next, scan_eq_tokensAt enough, madeBy]
  split
  · rfl
  · rfl

theorem tokensAt_strict (lexer : Lexer) (strict : lexer.policy = .strict)
    (missing : lexer.longestMatch (c :: rest) = none) (position : Nat) :
    lexer.tokensAt position (c :: rest) = [.error ⟨position, c⟩] :=
  scan_strict strict missing (Nat.le_refl _) position

theorem tokensAt_skip (lexer : Lexer) (skips : lexer.policy = .skip)
    (missing : lexer.longestMatch (c :: rest) = none) (position : Nat) :
    lexer.tokensAt position (c :: rest) = lexer.tokensAt (position + c.utf8Size) rest := by
  obtain ⟨less, enough, next⟩ := scan_skip skips missing (Nat.le_refl _) position
  rw [tokensAt, next, scan_eq_tokensAt enough]
  rfl

/-! ## The skipping lexer -/

/-- A skipping lexer meets no error and ends with the token that closes the input. -/
theorem exists_tokensAt_eq (lexer : Lexer) (skips : lexer.policy = .skip) (position : Nat)
    (text : List Char) : ∃ tokens : List Token, lexer.tokensAt position text =
      tokens.map .ok ++ [.ok (Token.endOfInput (position + byteLength text))] := by
  induction text using lexer.stretch_induction generalizing position with
  | nil => exact ⟨[], lexer.tokensAt_nil position⟩
  | @matched taken rest symbol nonempty found ih =>
      obtain ⟨tokens, isRest⟩ := ih (position + byteLength taken)
      refine ⟨lexer.madeBy symbol position taken ++ tokens, ?_⟩
      rw [lexer.tokensAt_match nonempty found, isRest, byteLength_append, ← Nat.add_assoc,
        List.map_append, List.append_assoc]
  | @stuck c rest missing ih =>
      obtain ⟨tokens, isRest⟩ := ih (position + c.utf8Size)
      refine ⟨tokens, ?_⟩
      rw [lexer.tokensAt_skip skips missing, isRest, byteLength, Nat.add_assoc]

theorem madeBy_add (lexer : Lexer) (symbol : Symbol) (bytes position : Nat) (taken : List Char) :
    lexer.madeBy symbol (bytes + position) taken =
      (lexer.madeBy symbol position taken).map (Token.moved bytes) := by
  unfold madeBy
  split
  · rfl
  · rw [Nat.add_assoc]
    rfl

/-- Where a text begins moves its tokens. -/
theorem tokensAt_add (lexer : Lexer) (skips : lexer.policy = .skip) (bytes position : Nat)
    (text : List Char) : lexer.tokensAt (bytes + position) text =
      (lexer.tokensAt position text).map (Except.map (Token.moved bytes)) := by
  induction text using lexer.stretch_induction generalizing position with
  | nil =>
      rw [tokensAt_nil, tokensAt_nil]
      rfl
  | matched nonempty found ih =>
      rw [lexer.tokensAt_match nonempty found, lexer.tokensAt_match nonempty found, madeBy_add,
        Nat.add_assoc, ih, List.map_append, List.map_map, List.map_map]
      rfl
  | stuck missing ih =>
      rw [lexer.tokensAt_skip skips missing, lexer.tokensAt_skip skips missing, Nat.add_assoc, ih]

/-! ## Both lexers -/

theorem past_eq_of_mem_madeBy {position : Nat} {token : Token}
    (member : token ∈ lexer.madeBy symbol position taken) :
    token.past = position + byteLength taken := by
  unfold madeBy at member
  split at member
  · cases member
  · rw [List.mem_singleton.1 member]

/-- A match in front is the same for both lexers. -/
theorem Parts.matched {position : Nat} {before : List Char} {tokens : List Token}
    (nonempty : taken ≠ [])
    (found : lexer.longestMatch (taken ++ (before ++ c :: rest)) = some (symbol, taken.length))
    (parts : lexer.Parts (position + byteLength taken) before c rest tokens) :
    lexer.Parts position (taken ++ before) c rest
      (lexer.madeBy symbol position taken ++ tokens) := by
  have offset : position + byteLength (taken ++ before) =
      position + byteLength taken + byteLength before := by
    rw [byteLength_append, Nat.add_assoc]
  have step (policy : InvalidPolicy) :
      (lexer.withPolicy policy).tokensAt position (taken ++ (before ++ c :: rest)) =
        (lexer.madeBy symbol position taken).map .ok ++
          (lexer.withPolicy policy).tokensAt (position + byteLength taken) (before ++ c :: rest) :=
    (lexer.withPolicy policy).tokensAt_match nonempty found position
  refine ⟨?_, fun token member => ?_, ?_⟩
  · rw [List.append_assoc, step, parts.strict_eq, offset, List.map_append, List.append_assoc]
  · rw [offset]
    rcases List.mem_append.1 member with isFirst | isLater
    · rw [past_eq_of_mem_madeBy isFirst]
      exact Nat.le_add_right _ _
    · exact parts.past_le token isLater
  · rw [List.append_assoc, step, parts.skip_eq, offset, List.map_append, List.append_assoc]

/-- The lexers make the same tokens, or they part at a character. -/
theorem eq_or_parts (lexer : Lexer) (position : Nat) (text : List Char) :
    (lexer.withPolicy .skip).tokensAt position text =
      (lexer.withPolicy .strict).tokensAt position text ∨
    ∃ before c rest tokens, text = before ++ c :: rest ∧
      lexer.Parts position before c rest tokens := by
  induction text using lexer.stretch_induction generalizing position with
  | nil => exact .inl (by rw [tokensAt_nil, tokensAt_nil])
  | @matched taken rest symbol nonempty found ih =>
      rcases ih (position + byteLength taken) with same | ⟨before, c, later, tokens, rfl, parts⟩
      · refine .inl ?_
        rw [(lexer.withPolicy .skip).tokensAt_match nonempty found,
          (lexer.withPolicy .strict).tokensAt_match nonempty found, same]
        rfl
      · exact .inr ⟨taken ++ before, c, later, _, (List.append_assoc _ _ _).symm,
          parts.matched nonempty found⟩
  | @stuck c rest missing _ =>
      refine .inr ⟨[], c, rest, [], rfl, ?_, nofun, ?_⟩
      · exact (lexer.withPolicy .strict).tokensAt_strict rfl missing position
      · exact (lexer.withPolicy .skip).tokensAt_skip rfl missing position

/-- A skipping lexer makes tokens up to the one that closes the input and meets no error. Without an
error, the strict lexer makes the same tokens. With an error at a character, the tokens in front of
it are within the text in front of the character, and the skipping lexer makes these and then the
tokens of the text behind the character, which are moved to their place. -/
theorem tokens_of_policies (lexer : Lexer) (text : String) :
    (∃ tokens : List Token, (lexer.withPolicy .skip).tokens text =
      tokens.map .ok ++ [.ok (Token.endOfInput (byteLength text.toList))]) ∧
    ((∀ error, .error error ∉ (lexer.withPolicy .strict).tokens text) →
      (lexer.withPolicy .skip).tokens text = (lexer.withPolicy .strict).tokens text) ∧
    ∀ error, .error error ∈ (lexer.withPolicy .strict).tokens text →
      ∃ (before rest : List Char) (tokens : List Token),
        text.toList = before ++ error.found :: rest ∧ byteLength before = error.position ∧
        (lexer.withPolicy .strict).tokens text = tokens.map .ok ++ [.error error] ∧
        (∀ token ∈ tokens, token.past ≤ error.position) ∧
        (lexer.withPolicy .skip).tokens text = tokens.map .ok ++
          ((lexer.withPolicy .skip).tokens (String.ofList rest)).map
            (Except.map (Token.moved (error.position + error.found.utf8Size))) := by
  simp only [tokens_eq, String.toList_ofList]
  have clean := (lexer.withPolicy .skip).exists_tokensAt_eq rfl 0 text.toList
  rw [Nat.zero_add] at clean
  refine ⟨clean, fun noError => ?_, fun error member => ?_⟩
  · rcases lexer.eq_or_parts 0 text.toList with same | ⟨before, c, rest, tokens, isText, parts⟩
    · exact same
    · rw [isText, parts.strict_eq] at noError
      exact absurd (List.mem_append_right _ List.mem_cons_self) (noError _)
  · rcases lexer.eq_or_parts 0 text.toList with same | ⟨before, c, rest, tokens, isText, parts⟩
    · obtain ⟨tokens, isClean⟩ := clean
      rw [← same, isClean] at member
      simp at member
    · obtain ⟨stops, within, goesOn⟩ := parts
      rw [Nat.zero_add] at stops within goesOn
      rw [isText, stops] at member
      obtain rfl : error = ⟨byteLength before, c⟩ := by simpa using member
      rw [isText, stops, goesOn]
      refine ⟨before, rest, tokens, rfl, rfl, rfl, within, congrArg _ ?_⟩
      exact (lexer.withPolicy .skip).tokensAt_add rfl (byteLength before + c.utf8Size) 0 rest

/-- Words of one accented letter and blanks between them, which make no tokens. -/
def accents : Lexer where
  dfa := ⟨[⟨none, [(' ', 1), ('é', 2)]⟩, ⟨some ⟨4⟩, []⟩, ⟨some ⟨3⟩, []⟩]⟩
  ignored := OrderedSet.singleton ⟨4⟩
  policy := .strict

theorem tokens_of_policies_accents :
    (∀ error, .error error ∉ (accents.withPolicy .strict).tokens "é é") ∧
      (accents.withPolicy .skip).tokens "é é" = (accents.withPolicy .strict).tokens "é é" ∧
      .error (⟨3, 'ü'⟩ : LexError) ∈ (accents.withPolicy .strict).tokens "é üé" ∧
      ∃ (before rest : List Char) (tokens : List Token),
        "é üé".toList = before ++ 'ü' :: rest ∧ byteLength before = 3 ∧
        (accents.withPolicy .strict).tokens "é üé" = tokens.map .ok ++ [.error ⟨3, 'ü'⟩] ∧
        (∀ token ∈ tokens, token.past ≤ 3) ∧
        (accents.withPolicy .skip).tokens "é üé" = tokens.map .ok ++
          ((accents.withPolicy .skip).tokens (String.ofList rest)).map
            (Except.map (Token.moved (3 + 'ü'.utf8Size))) := by
  have made : (accents.withPolicy .strict).tokens "é é" =
      [.ok ⟨⟨3⟩, "é", 0, 2⟩, .ok ⟨⟨3⟩, "é", 3, 5⟩, .ok (Token.endOfInput 5)] := by rfl
  have noError : ∀ error, .error error ∉ (accents.withPolicy .strict).tokens "é é" := by
    simp [made]
  have refused : .error (⟨3, 'ü'⟩ : LexError) ∈ (accents.withPolicy .strict).tokens "é üé" := by
    have stops : (accents.withPolicy .strict).tokens "é üé" =
        [.ok ⟨⟨3⟩, "é", 0, 2⟩, .error ⟨3, 'ü'⟩] := by rfl
    simp [stops]
  exact ⟨noError, (tokens_of_policies accents "é é").2.1 noError, refused,
    (tokens_of_policies accents "é üé").2.2 _ refused⟩

end Lexer

end ParserGenerator
