/-!
# Decimal numbers

State numbers, counts and limits are written in decimal. A number that is read may carry a plus
sign and leading zeros, has at least one digit, and stays below a bound.

Results: `readDecimal_repr`, that every number below the bound is read back from its digits.
-/

namespace ParserGenerator.Text

/-- Reads a number below `bound`. -/
def readDecimal (bound : Nat) (text : List Char) : Option Nat :=
  let digits := match text with
    | '+' :: rest => rest
    | _ => text
  if digits ≠ [] ∧ digits.all Char.isDigit then
    let value := Nat.ofDigitChars 10 digits 0
    if value < bound then some value else none
  else none

/-- A state number fits 32 bits. -/
def stateBound : Nat := 0x100000000

/-- A count fits 64 bits. -/
def countBound : Nat := 0x10000000000000000

theorem readDecimal_repr {bound n : Nat} (below : n < bound) :
    readDecimal bound (toString n).toList = some n := by
  have digits : (toString n).toList = Nat.toDigits 10 n := by
    simp [toString, Nat.repr]
  have allDigits : (Nat.toDigits 10 n).all Char.isDigit = true := by
    rw [List.all_eq_true]
    exact fun c member => Nat.isDigit_of_mem_toDigits (by decide) (by decide) member
  have nonempty : Nat.toDigits 10 n ≠ [] := Nat.toDigits_ne_nil
  have value : Nat.ofDigitChars 10 (Nat.toDigits 10 n) 0 = n :=
    Nat.ofDigitChars_toDigits (by decide) (by decide)
  rw [digits]
  unfold readDecimal
  split
  · rename_i rest plus
    rw [plus] at allDigits
    simp at allDigits
  · simp [allDigits, nonempty, value, below]

theorem readDecimal_lt {bound n : Nat} {text : List Char}
    (read : readDecimal bound text = some n) : n < bound := by
  unfold readDecimal at read
  dsimp only at read
  obtain ⟨_, value⟩ := Option.ite_none_right_eq_some.1 read
  obtain ⟨below, isValue⟩ := Option.ite_none_right_eq_some.1 value
  exact Option.some.inj isValue ▸ below

/-- Writes a number with at least two digits. -/
def twoDigits (n : Nat) : String :=
  if n < 10 then "0" ++ toString n else toString n

example : readDecimal stateBound "+042".toList = some 42 := by decide

example : readDecimal stateBound "4294967296".toList = none := by decide

example : readDecimal stateBound "+".toList = none := by decide

end ParserGenerator.Text
