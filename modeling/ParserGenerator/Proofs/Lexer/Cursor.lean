import ParserGenerator.Lexer.Cursor
import ParserGenerator.Proofs.Lexer.Scan

/-!
# Tokens one by one

A cursor stands between a part of the text that is done and a part that is left, so its offset lies
between characters and no cut fails. Each turn follows one step of the reference scan.

Results:
1. `Lexer.Accords.gives_tokens`: the calls give the tokens of the text, and nothing behind them.
2. `Lexer.define_scans`: rules with well-formed patterns make a lexer whose tokens are their
   reference scan.
-/

namespace ParserGenerator.Lexer

variable {lexer : Lexer} {rules : List DeclaredRule} {before taken rest : List Char}

/-! ## Cuts between characters -/

/-- An offset between characters cuts the text there. -/
theorem fromByte?_append (front back : List Char) :
    fromByte? (front ++ back) (byteLength front) = some back := by
  induction front with
  | nil =>
      rw [List.nil_append, byteLength]
      cases back <;> rfl
  | cons c rest ih =>
      obtain ⟨less, size⟩ := Nat.exists_eq_add_of_lt (byteLength_pos (List.cons_ne_nil c rest))
      rw [Nat.zero_add] at size
      rw [size, List.cons_append, fromByte?, ← size, byteLength, if_pos (Nat.le_add_right _ _),
        Nat.add_sub_cancel_left, ih]

theorem upToByte?_append (front back : List Char) :
    upToByte? (front ++ back) (byteLength front) = some front := by
  induction front with
  | nil =>
      rw [List.nil_append, byteLength]
      cases back <;> rfl
  | cons c rest ih =>
      obtain ⟨less, size⟩ := Nat.exists_eq_add_of_lt (byteLength_pos (List.cons_ne_nil c rest))
      rw [Nat.zero_add] at size
      rw [size, List.cons_append, upToByte?, ← size, byteLength, if_pos (Nat.le_add_right _ _),
        Nat.add_sub_cancel_left, ih, Option.map_some]

theorem slice?_append (before taken rest : List Char) :
    slice? (before ++ (taken ++ rest)) (byteLength before) (byteLength (before ++ taken)) =
      some taken := by
  rw [slice?, fromByte?_append, byteLength_append, Nat.add_sub_cancel_left]
  exact upToByte?_append taken rest

/-! ## Turns of a cursor -/

/-- The cursor in front of `rest`, behind `before`. -/
def Cursor.behind (before rest : List Char) : Cursor := ⟨before ++ rest, byteLength before, false⟩

/-- The cursor at the end of everything. -/
def Cursor.ended (before rest : List Char) : Cursor := ⟨before ++ rest, byteLength before, true⟩

theorem turn_behind (lexer : Lexer) (before rest : List Char) :
    lexer.turn (.behind before rest) = lexer.turnAt (.behind before rest) rest := by
  rw [turn, if_neg (by exact Bool.false_ne_true), Cursor.behind, fromByte?_append,
    Option.bind_some]

theorem turn_end (lexer : Lexer) (before : List Char) : lexer.turn (.behind before []) =
    some (.give (.ok (Token.endOfInput (byteLength before))) (.ended before [])) := by
  rw [turn_behind, turnAt, Cursor.behind, Cursor.ended, List.append_nil]

theorem turn_match {symbol : Symbol} (nonempty : taken ≠ [])
    (found : lexer.longestMatch (taken ++ rest) = some (symbol, taken.length))
    (before : List Char) : lexer.turn (.behind before (taken ++ rest)) =
      if lexer.ignored.contains symbol then some (.skip (.behind (before ++ taken) rest))
      else some (.give (.ok ⟨symbol, String.ofList taken, byteLength before,
        byteLength (before ++ taken)⟩) (.behind (before ++ taken) rest)) := by
  rw [turn_behind]
  cases taken with
  | nil => exact absurd rfl nonempty
  | cons c inner =>
      have cut : (c :: (inner ++ rest)).take (c :: inner).length = c :: inner := by
        rw [← List.cons_append, List.take_left]
      have slice := slice?_append before (c :: inner) rest
      rw [byteLength_append] at slice
      rw [List.cons_append] at found slice ⊢
      rw [turnAt, found]
      simp only [cut, Cursor.behind, slice, Option.map_some, byteLength_append, List.append_assoc,
        List.cons_append]

theorem turn_strict {c : Char} (strict : lexer.policy = .strict)
    (missing : lexer.longestMatch (c :: rest) = none) (before : List Char) :
    lexer.turn (.behind before (c :: rest)) =
      some (.give (.error ⟨byteLength before, c⟩) (.ended before (c :: rest))) := by
  rw [turn_behind, turnAt, missing, strict]
  rfl

theorem turn_drop {c : Char} (skips : lexer.policy = .skip)
    (missing : lexer.longestMatch (c :: rest) = none) (before : List Char) :
    lexer.turn (.behind before (c :: rest)) = some (.skip (.behind (before ++ [c]) rest)) := by
  rw [turn_behind, turnAt, missing, skips]
  simp only [Cursor.behind, byteLength_append, List.append_assoc]
  rfl

/-! ## All calls of a cursor -/

/-- The calls give the items in order, and nothing from then on. -/
def Gives (lexer : Lexer) (cursor : Cursor) (items : List (Except LexError Token)) : Prop :=
  ∀ count, lexer.nth? cursor count = some items[count]?

variable {cursor later : Cursor} {item : Except LexError Token}
  {items : List (Except LexError Token)}

theorem next?_of_give (turned : lexer.turn cursor = some (.give item later)) :
    lexer.next? cursor = some (some item, later) := by
  rw [next?]
  split <;> simp_all

theorem next?_of_skip (turned : lexer.turn cursor = some (.skip later)) :
    lexer.next? cursor = lexer.next? later := by
  rw [next?]
  split <;> simp_all

theorem next?_of_finished (turned : lexer.turn cursor = some .finished) :
    lexer.next? cursor = some (none, cursor) := by
  rw [next?]
  split <;> simp_all

theorem Gives.give (turned : lexer.turn cursor = some (.give item later))
    (gives : lexer.Gives later items) : lexer.Gives cursor (item :: items) := by
  intro count
  cases count with
  | zero => rw [nth?, next?_of_give turned]; rfl
  | succ count =>
      rw [nth?, next?_of_give turned, List.getElem?_cons_succ]
      exact gives count

theorem Gives.skip (turned : lexer.turn cursor = some (.skip later))
    (gives : lexer.Gives later items) : lexer.Gives cursor items := by
  intro count
  rw [← gives count]
  cases count with
  | zero => rw [nth?, nth?, next?_of_skip turned]
  | succ count => rw [nth?, nth?, next?_of_skip turned]

theorem gives_of_done (done : cursor.done = true) : lexer.Gives cursor [] := by
  have turned : lexer.turn cursor = some .finished := by rw [turn, if_pos done]
  intro count
  induction count with
  | zero => rw [nth?, next?_of_finished turned]; rfl
  | succ count ih =>
      rw [nth?, next?_of_finished turned]
      exact ih

/-- A cursor gives the items of the reference scan. -/
theorem Accords.gives_of_scans (accords : lexer.Accords rules)
    (scans : Scans rules lexer.policy before rest items) :
    lexer.Gives (.behind before rest) items := by
  induction scans with
  | finish before => exact .give (turn_end lexer before) (gives_of_done rfl)
  | @token before taken rest rule items munch shown _ ih =>
      refine .give ?_ ih
      rw [turn_match munch.nonempty (accords.longestMatch_of_munch munch),
        accords.ignored_eq_false shown]
      rfl
  | @ignored before taken rest rule items munch hidden _ ih =>
      refine .skip ?_ ih
      rw [turn_match munch.nonempty (accords.longestMatch_of_munch munch),
        if_pos ((accords.ignored_iff _).2 hidden)]
  | @stop before rest c strict nothing =>
      exact .give (turn_strict strict (accords.longestMatch_of_noMunch nothing) before)
        (gives_of_done rfl)
  | @skip before rest c items skips nothing _ ih =>
      exact .skip (turn_drop skips (accords.longestMatch_of_noMunch nothing) before) ih

theorem Accords.gives_tokens (accords : lexer.Accords rules) (text : String) :
    lexer.Gives (.start text) (lexer.tokens text) :=
  accords.gives_of_scans ((accords.scans_iff text).2 rfl)

/-! ## Lexers of declared rules -/

/-- Rules with well-formed patterns make a lexer. Under each policy the tokens of a text are the
reference scan of the declared rules, and a cursor gives them one by one and then nothing, without
a cut inside a character. -/
theorem define_scans {rules : List LexerRule} (parses : ∀ rule ∈ rules, rule.Parses)
    (names : SymbolTable) :
    ∃ lexer later declared, (define rules).outcome names = (.ok lexer, later) ∧
      later.Extends names ∧ List.Forall₂ (Declares later) rules declared ∧
      ∀ policy text,
        (∀ items, Scans declared policy [] text.toList items ↔
          items = (lexer.withPolicy policy).tokens text) ∧
        ∀ count, (lexer.withPolicy policy).nth? (.start text) count =
          some ((lexer.withPolicy policy).tokens text)[count]? := by
  obtain ⟨lexer, later, declared, defined, grown, declares, accords⟩ :=
    define_of_parsed parses names
  refine ⟨lexer, later, declared, defined, grown, declares, fun policy text => ?_⟩
  have chosen : (lexer.withPolicy policy).Accords declared := accords.withPolicy policy
  exact ⟨fun items => chosen.scans_iff text, chosen.gives_tokens text⟩

/-- Two rules that match texts in common, and spaces that make no tokens. -/
def words : List LexerRule :=
  [⟨"space", " +", true⟩, ⟨"if", "if", false⟩, ⟨"word", "[a-z]+", false⟩]

theorem define_scans_words :
    (∀ rule ∈ words, rule.Parses) ∧
    ∃ lexer later declared, (define words).outcome SymbolTable.initial = (.ok lexer, later) ∧
      later.Extends SymbolTable.initial ∧ List.Forall₂ (Declares later) words declared ∧
      ∀ policy text,
        (∀ items, Scans declared policy [] text.toList items ↔
          items = (lexer.withPolicy policy).tokens text) ∧
        ∀ count, (lexer.withPolicy policy).nth? (.start text) count =
          some ((lexer.withPolicy policy).tokens text)[count]? := by
  have parses : ∀ rule ∈ words, rule.Parses := by decide +kernel
  exact ⟨parses, define_scans parses SymbolTable.initial⟩

end ParserGenerator.Lexer
