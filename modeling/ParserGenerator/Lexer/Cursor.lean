import ParserGenerator.Lexer

/-!
# Reading tokens one by one

Tokens can also be asked for one by one. A cursor keeps the text and the offset of the byte that
comes next. What is left of the text and the text of a token are cut out of the input by offsets,
which have to lie between characters. Once the token that closes the input or an error was given,
nothing follows.

Results: `Lexer.turn_skip`, that a turn that gives nothing moves the cursor, by which `Lexer.next?`
terminates.
-/

namespace ParserGenerator

/-! ## Cuts at byte offsets -/

namespace Lexer

/-- The text from a byte offset on, if the offset lies between characters. -/
def fromByte? : List Char → Nat → Option (List Char)
  | text, 0 => some text
  | [], _ + 1 => none
  | c :: rest, offset + 1 =>
      if c.utf8Size ≤ offset + 1 then fromByte? rest (offset + 1 - c.utf8Size) else none

/-- The text in front of a byte offset, if the offset lies between characters. -/
def upToByte? : List Char → Nat → Option (List Char)
  | _, 0 => some []
  | [], _ + 1 => none
  | c :: rest, offset + 1 =>
      if c.utf8Size ≤ offset + 1 then
        (upToByte? rest (offset + 1 - c.utf8Size)).map (c :: ·)
      else none

/-- The text between two byte offsets, if both lie between characters. -/
def slice? (text : List Char) (first past : Nat) : Option (List Char) := do
  upToByte? (← fromByte? text first) (past - first)

/-- What follows an offset reaches to the end of the text. -/
theorem byteLength_fromByte? {text rest : List Char} {offset : Nat}
    (cut : fromByte? text offset = some rest) : offset + byteLength rest = byteLength text := by
  induction text generalizing offset with
  | nil =>
      cases offset with
      | zero =>
          cases cut
          rfl
      | succ => cases cut
  | cons c tail ih =>
      cases offset with
      | zero =>
          cases cut
          exact Nat.zero_add _
      | succ offset =>
          rw [fromByte?] at cut
          split at cut
          · rename_i within
            have inner := ih cut
            rw [byteLength]
            omega
          · cases cut

/-! ## Turns -/

/-- Where tokens are read: the input, the offset of the next byte, and whether all was given. -/
structure Cursor where
  text : List Char
  position : Nat
  done : Bool

/-- The cursor in front of a text. -/
def Cursor.start (text : String) : Cursor := ⟨text.toList, 0, false⟩

/-- What one turn amounts to. -/
inductive Turn where
  /-- A token or an error is given. -/
  | give (item : Except LexError Token) (later : Cursor)
  /-- A stretch of the input is passed over. -/
  | skip (later : Cursor)
  /-- Nothing is left. -/
  | finished

/-- One turn at a cursor in front of what is left, unless a cut falls into a character. -/
def turnAt (lexer : Lexer) (cursor : Cursor) : (rest : List Char) → Option Turn
  | [] =>
      some (.give (.ok (Token.endOfInput (byteLength cursor.text))) { cursor with done := true })
  | found :: rest =>
      match lexer.longestMatch (found :: rest) with
      | some (symbol, count) =>
          let past := cursor.position + byteLength ((found :: rest).take count)
          let later : Cursor := { cursor with position := past }
          if lexer.ignored.contains symbol then some (.skip later)
          else (slice? cursor.text cursor.position past).map fun matched =>
            .give (.ok ⟨symbol, String.ofList matched, cursor.position, past⟩) later
      | none =>
          match lexer.policy with
          | .strict => some (.give (.error ⟨cursor.position, found⟩) { cursor with done := true })
          | .skip => some (.skip { cursor with position := cursor.position + found.utf8Size })

/-- One turn at a cursor, unless a cut falls into a character. -/
def turn (lexer : Lexer) (cursor : Cursor) : Option Turn :=
  if cursor.done then some .finished
  else (fromByte? cursor.text cursor.position).bind (lexer.turnAt cursor)

/-- A match that is remembered takes at least one character, and no more than there are. -/
theorem lastAccepted_count {dfa : Dfa} {text : List Char} {state count result : Nat}
    {last : Option (Symbol × Nat)} {symbol : Symbol}
    (found : lastAccepted dfa state count last text = some (symbol, result)) :
    last = some (symbol, result) ∨ count < result ∧ result ≤ count + text.length := by
  induction text generalizing state count last with
  | nil => exact .inl found
  | cons c rest ih =>
      rw [lastAccepted] at found
      rw [List.length_cons]
      split at found
      · exact .inl found
      · rename_i next _
        rcases ih found with kept | ⟨above, below⟩
        · split at kept
          · cases kept
            exact .inr ⟨Nat.lt_succ_self count, by omega⟩
          · exact .inl kept
        · exact .inr ⟨by omega, by omega⟩

theorem longestMatch_count {lexer : Lexer} {text : List Char} {symbol : Symbol} {count : Nat}
    (found : lexer.longestMatch text = some (symbol, count)) :
    0 < count ∧ count ≤ text.length := by
  rcases lastAccepted_count found with missing | within
  · cases missing
  · rwa [Nat.zero_add] at within

/-- A turn that gives nothing moves the cursor towards the end. -/
theorem turn_skip {lexer : Lexer} {cursor later : Cursor}
    (skips : lexer.turn cursor = some (.skip later)) :
    later.text = cursor.text ∧ cursor.position < later.position ∧
      later.position ≤ byteLength cursor.text := by
  rw [turn] at skips
  split at skips
  · cases skips
  obtain ⟨rest, cut, skips⟩ := Option.bind_eq_some_iff.1 skips
  have whole : cursor.position + byteLength rest = byteLength cursor.text :=
    byteLength_fromByte? cut
  cases rest with
  | nil => cases skips
  | cons found rest =>
      rw [turnAt] at skips
      split at skips
      · rename_i symbol count isMatch
        have taken : (found :: rest).take count ≠ [] := by
          have bound := (longestMatch_count isMatch).1
          simp only [ne_eq, List.take_eq_nil_iff, reduceCtorEq, or_false]
          omega
        have positive := byteLength_pos taken
        have parts := byteLength_append ((found :: rest).take count) ((found :: rest).drop count)
        rw [List.take_append_drop] at parts
        split at skips
        · cases skips
          exact ⟨rfl, by dsimp only; omega, by dsimp only; omega⟩
        · obtain ⟨_, _, impossible⟩ := Option.map_eq_some_iff.1 skips
          cases impossible
      · split at skips
        · cases skips
        · cases skips
          have positive := found.utf8Size_pos
          rw [byteLength] at whole
          exact ⟨rfl, by dsimp only; omega, by dsimp only; omega⟩

/-! ## Calls -/

/-- The next token or error, if one is left, and the cursor behind it. There is no answer if a cut
falls into a character. -/
def next? (lexer : Lexer) (cursor : Cursor) : Option (Option (Except LexError Token) × Cursor) :=
  match _ : lexer.turn cursor with
  | none => none
  | some (.give item later) => some (some item, later)
  | some (.skip later) => next? lexer later
  | some .finished => some (none, cursor)
termination_by byteLength cursor.text - cursor.position
decreasing_by
  obtain ⟨sameText, moved, within⟩ := turn_skip ‹_›
  rw [sameText]
  omega

/-- The answer to the call behind `count` other calls. -/
def nth? (lexer : Lexer) (cursor : Cursor) : Nat → Option (Option (Except LexError Token))
  | 0 => (lexer.next? cursor).map (·.1)
  | count + 1 => do lexer.nth? (← lexer.next? cursor).2 count

end Lexer

end ParserGenerator
