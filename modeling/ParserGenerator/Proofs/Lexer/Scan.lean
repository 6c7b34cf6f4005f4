import ParserGenerator.Proofs.Lexer.Declared

/-!
# The tokens of a text

The reference scan takes the munch of the declared rules from the front of what is left, again and
again. It is told by a relation that knows nothing of automata.

Results:
1. `Lexer.Accords.scans_iff`: a lexer that accords with the rules makes the tokens of the reference
   scan, and there is no other reference scan.
2. `Lexer.exists_front_of_scans`, `Lexer.Accords.matched_of_mem_tokens`: what ends a scan, and the
   tokens in front of it are made by rules.
3. `Lexer.Accords.tokens_of_firstMatches`: a text that a rule matches is one token.
-/

namespace ParserGenerator

/-! ## Definitions -/

/-- The tokens of what is left of a text behind `before`, and the error that ends them. -/
inductive Scans (rules : List DeclaredRule) (policy : InvalidPolicy) :
    (before rest : List Char) → List (Except LexError Token) → Prop where
  | finish (before : List Char) :
      Scans rules policy before [] [.ok (Token.endOfInput (Lexer.byteLength before))]
  | token {before taken rest : List Char} {rule : DeclaredRule}
      {items : List (Except LexError Token)} (munch : Munch rules (taken ++ rest) taken rule)
      (shown : ¬ IsIgnored rules rule.symbol)
      (later : Scans rules policy (before ++ taken) rest items) :
      Scans rules policy before (taken ++ rest)
        (.ok ⟨rule.symbol, String.ofList taken, Lexer.byteLength before,
          Lexer.byteLength (before ++ taken)⟩ :: items)
  | ignored {before taken rest : List Char} {rule : DeclaredRule}
      {items : List (Except LexError Token)} (munch : Munch rules (taken ++ rest) taken rule)
      (hidden : IsIgnored rules rule.symbol)
      (later : Scans rules policy (before ++ taken) rest items) :
      Scans rules policy before (taken ++ rest) items
  | stop {before rest : List Char} {c : Char} (strict : policy = .strict)
      (nothing : NoMunch rules (c :: rest)) :
      Scans rules policy before (c :: rest) [.error ⟨Lexer.byteLength before, c⟩]
  | skip {before rest : List Char} {c : Char} {items : List (Except LexError Token)}
      (skips : policy = .skip) (nothing : NoMunch rules (c :: rest))
      (later : Scans rules policy (before ++ [c]) rest items) :
      Scans rules policy before (c :: rest) items

/-- The rules make the token of its text. -/
structure MadeBy (rules : List DeclaredRule) (token : Token) : Prop where
  nonempty : token.text.toList ≠ []
  first : ∃ rule, FirstMatches rules token.text.toList rule ∧ rule.symbol = token.symbol
  shown : ¬ IsIgnored rules token.symbol

namespace Lexer

variable {lexer : Lexer} {rules : List DeclaredRule} {rule : DeclaredRule}
  {before taken rest text : List Char}

/-! ## One step of the scan -/

theorem Accords.withPolicy (accords : lexer.Accords rules) (policy : InvalidPolicy) :
    (lexer.withPolicy policy).Accords rules := ⟨accords.recognize_eq, accords.ignored_iff⟩

theorem Accords.ignored_eq_false (accords : lexer.Accords rules) {symbol : Symbol}
    (shown : ¬ IsIgnored rules symbol) : lexer.ignored.contains symbol = false :=
  Bool.eq_false_iff.2 fun contained => shown ((accords.ignored_iff symbol).1 contained)

theorem scan_of_longestMatch {symbol : Symbol} (nonempty : taken ≠ [])
    (found : lexer.longestMatch (taken ++ rest) = some (symbol, taken.length)) {fuel : Nat}
    (enough : (taken ++ rest).length ≤ fuel) (position : Nat) :
    ∃ less, rest.length ≤ less ∧ lexer.scan fuel position (taken ++ rest) =
      if lexer.ignored.contains symbol then lexer.scan less (position + byteLength taken) rest
      else .ok ⟨symbol, String.ofList taken, position, position + byteLength taken⟩ ::
        lexer.scan less (position + byteLength taken) rest := by
  cases taken with
  | nil => exact absurd rfl nonempty
  | cons c taken =>
      rw [List.length_append, List.length_cons] at enough
      cases fuel with
      | zero => omega
      | succ fuel =>
          refine ⟨fuel, by omega, ?_⟩
          rw [List.cons_append] at found ⊢
          rw [scan, found]
          dsimp only
          rw [← List.cons_append, List.take_left, List.drop_left]

theorem scan_strict {c : Char} (strict : lexer.policy = .strict)
    (missing : lexer.longestMatch (c :: rest) = none) {fuel : Nat}
    (enough : (c :: rest).length ≤ fuel) (position : Nat) :
    lexer.scan fuel position (c :: rest) = [.error ⟨position, c⟩] := by
  cases fuel with
  | zero => cases enough
  | succ fuel => rw [scan, missing, strict]

theorem scan_skip {c : Char} (skips : lexer.policy = .skip)
    (missing : lexer.longestMatch (c :: rest) = none) {fuel : Nat}
    (enough : (c :: rest).length ≤ fuel) (position : Nat) :
    ∃ less, rest.length ≤ less ∧ lexer.scan fuel position (c :: rest) =
      lexer.scan less (position + byteLength [c]) rest := by
  cases fuel with
  | zero => cases enough
  | succ fuel =>
      refine ⟨fuel, Nat.le_of_succ_le_succ enough, ?_⟩
      rw [scan, missing, skips]
      rfl

/-! ## The whole scan -/

/-- The scan is a reference scan. -/
theorem Accords.scans_scan (accords : lexer.Accords rules) (before : List Char) {fuel : Nat}
    (enough : rest.length ≤ fuel) :
    Scans rules lexer.policy before rest (lexer.scan fuel (byteLength before) rest) := by
  induction length : rest.length using Nat.strongRecOn generalizing before rest fuel with
  | ind length ih =>
      subst length
      rcases accords.longestMatch_cases rest with
        ⟨missing, nothing⟩ | ⟨taken, rule, munch, found⟩
      · cases rest with
        | nil =>
            rw [scan]
            exact .finish before
        | cons c rest =>
            cases policy : lexer.policy with
            | strict =>
                rw [scan_strict policy missing enough]
                exact .stop rfl nothing
            | skip =>
                obtain ⟨less, enoughLeft, next⟩ :=
                  scan_skip policy missing enough (byteLength before)
                rw [next, ← byteLength_append, ← policy]
                exact .skip policy nothing
                  (ih rest.length (Nat.lt_succ_self _) (before ++ [c]) enoughLeft rfl)
      · obtain ⟨later, rfl⟩ := munch.front
        obtain ⟨less, enoughLeft, next⟩ :=
          scan_of_longestMatch munch.nonempty found enough (byteLength before)
        have shorter : later.length < (taken ++ later).length := by
          have positive := List.length_pos_iff.2 munch.nonempty
          rw [List.length_append]
          omega
        have behind := ih later.length shorter (before ++ taken) enoughLeft rfl
        rw [next, ← byteLength_append]
        by_cases isIgnored : IsIgnored rules rule.symbol
        · rw [if_pos ((accords.ignored_iff _).2 isIgnored)]
          exact .ignored munch isIgnored behind
        · rw [accords.ignored_eq_false isIgnored]
          exact .token munch isIgnored behind

/-- There is no other reference scan. -/
theorem Accords.scan_eq (accords : lexer.Accords rules) {items : List (Except LexError Token)}
    (scans : Scans rules lexer.policy before rest items) {fuel : Nat}
    (enough : rest.length ≤ fuel) : lexer.scan fuel (byteLength before) rest = items := by
  induction scans generalizing fuel with
  | finish => rw [scan]
  | @token before taken rest rule items munch shown _ ih =>
      obtain ⟨less, enoughLeft, next⟩ := scan_of_longestMatch munch.nonempty
        (accords.longestMatch_of_munch munch) enough (byteLength before)
      rw [next, accords.ignored_eq_false shown, ← byteLength_append, ih enoughLeft]
      rfl
  | @ignored before taken rest rule items munch hidden _ ih =>
      obtain ⟨less, enoughLeft, next⟩ := scan_of_longestMatch munch.nonempty
        (accords.longestMatch_of_munch munch) enough (byteLength before)
      rw [next, if_pos ((accords.ignored_iff _).2 hidden), ← byteLength_append, ih enoughLeft]
  | stop strict nothing =>
      exact scan_strict strict (accords.longestMatch_of_noMunch nothing) enough _
  | @skip before rest c items skips nothing _ ih =>
      obtain ⟨less, enoughLeft, next⟩ := scan_skip skips
        (accords.longestMatch_of_noMunch nothing) enough (byteLength before)
      rw [next, ← byteLength_append, ih enoughLeft]

/-- The tokens of a text are its reference scan. -/
theorem Accords.scans_iff (accords : lexer.Accords rules) (text : String)
    {items : List (Except LexError Token)} :
    Scans rules lexer.policy [] text.toList items ↔ items = lexer.tokens text := by
  constructor
  · exact fun scans => (accords.scan_eq scans (Nat.le_refl _)).symm
  · rintro rfl
    exact accords.scans_scan [] (Nat.le_refl _)

/-! ## Tokens and rules -/

/-- In front of what ends a scan are tokens that rules make. The end is the token that closes the
input, or an error. -/
theorem exists_front_of_scans {policy : InvalidPolicy} {items : List (Except LexError Token)}
    (scans : Scans rules policy before rest items) :
    ∃ front last, items = List.map .ok front ++ [last] ∧ (∀ token ∈ front, MadeBy rules token) ∧
      (last = .ok (Token.endOfInput (byteLength (before ++ rest))) ∨
        ∃ error, last = .error error) := by
  have noToken : ∀ token ∈ ([] : List Token), MadeBy rules token :=
    fun _ impossible => absurd impossible List.not_mem_nil
  induction scans with
  | finish before =>
      rw [List.append_nil]
      exact ⟨[], _, rfl, noToken, .inl rfl⟩
  | @token before taken rest rule items munch shown _ ih =>
      obtain ⟨front, last, rfl, made, isLast⟩ := ih
      rw [List.append_assoc] at isLast
      refine ⟨_ :: front, last, rfl, List.forall_mem_cons.2 ⟨⟨?_, ?_, shown⟩, made⟩, isLast⟩
      · rw [String.toList_ofList]
        exact munch.nonempty
      · rw [String.toList_ofList]
        exact ⟨rule, munch.first, rfl⟩
  | ignored _ _ _ ih => rwa [List.append_assoc] at ih
  | stop => exact ⟨[], _, rfl, noToken, .inr ⟨_, rfl⟩⟩
  | skip _ _ _ ih => rwa [List.append_assoc] at ih

/-- The text of a token matches a rule with the symbol of the token, unless it closes the input. -/
theorem Accords.matched_of_mem_tokens (accords : lexer.Accords rules) {text : String}
    {token : Token} (member : .ok token ∈ lexer.tokens text) :
    token.symbol = Symbol.endOfInput ∨ ∃ rule ∈ rules, rule.symbol = token.symbol ∧
      rule.regex.Matches token.text.toList := by
  obtain ⟨front, last, isScan, made, isLast⟩ :=
    exists_front_of_scans ((accords.scans_iff text).2 rfl)
  rw [isScan] at member
  rcases List.mem_append.1 member with inFront | atEnd
  · obtain ⟨other, isFront, same⟩ := List.mem_map.1 inFront
    cases same
    obtain ⟨rule, first, sameSymbol⟩ := (made _ isFront).first
    exact .inr ⟨rule, first.mem, sameSymbol, first.1⟩
  · rw [← List.mem_singleton.1 atEnd] at isLast
    rcases isLast with closes | ⟨error, isError⟩
    · cases closes
      exact .inl rfl
    · cases isError

/-- A text without errors has the tokens that are listed for it. -/
theorem tokens_of_lex {text : String} {tokens : List Token} (lexed : lexer.lex text = .ok tokens) :
    lexer.tokens text = tokens.map .ok := by
  unfold lex at lexed
  generalize lexer.tokens text = items at lexed ⊢
  induction items generalizing tokens with
  | nil =>
      cases lexed
      rfl
  | cons item items ih =>
      rw [List.mapM_cons] at lexed
      cases item with
      | error error => cases lexed
      | ok token =>
          cases rest : items.mapM id with
          | error error =>
              rw [rest] at lexed
              cases lexed
          | ok others =>
              rw [rest] at lexed
              cases lexed
              rw [ih rest, List.map_cons]

theorem mem_tokens_of_lex {text : String} {tokens : List Token}
    (lexed : lexer.lex text = .ok tokens) {token : Token} (member : token ∈ tokens) :
    .ok token ∈ lexer.tokens text := by
  rw [tokens_of_lex lexed]
  exact List.mem_map_of_mem member

/-- A text that a rule matches is one token with the symbol of the first rule that does. -/
theorem Accords.tokens_of_firstMatches (accords : lexer.Accords rules) {text : String}
    (nonempty : text.toList ≠ []) (first : FirstMatches rules text.toList rule)
    (shown : ¬ IsIgnored rules rule.symbol) :
    lexer.tokens text = [.ok ⟨rule.symbol, text, 0, byteLength text.toList⟩,
      .ok (Token.endOfInput (byteLength text.toList))] := by
  have munch : Munch rules (text.toList ++ []) text.toList rule := by
    refine ⟨nonempty, List.prefix_append _ _, first, fun longer front long => ?_⟩
    rw [List.append_nil] at front
    exact absurd front.length_le (Nat.not_le_of_lt long)
  have scans : Scans rules lexer.policy [] (text.toList ++ []) _ :=
    .token munch shown (.finish _)
  rw [List.append_nil, accords.scans_iff, String.ofList_toList] at scans
  exact scans.symm

/-- A text that some rule matches, where the rules that match it have one symbol that is not
ignored, is one token. -/
theorem Accords.tokens_of_matches (accords : lexer.Accords rules) {text : String}
    (nonempty : text.toList ≠ []) (matched : SomeMatches rules text.toList) {symbol : Symbol}
    (only : ∀ rule ∈ rules, rule.regex.Matches text.toList → rule.symbol = symbol)
    (shown : ¬ IsIgnored rules symbol) :
    lexer.tokens text = [.ok ⟨symbol, text, 0, byteLength text.toList⟩,
      .ok (Token.endOfInput (byteLength text.toList))] := by
  obtain ⟨rule, first⟩ := matched.exists_first
  obtain rfl := only rule first.mem first.1
  exact accords.tokens_of_firstMatches nonempty first shown

end Lexer

end ParserGenerator
