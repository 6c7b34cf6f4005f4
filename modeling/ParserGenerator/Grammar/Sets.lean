import ParserGenerator.Rule

/-!
# Nullable, first and following symbols

Three tables describe what can be derived from a list of rules: the nonterminals that derive the
empty string, the terminals that a string derived from a symbol can begin with (with epsilon for
the empty string), and the terminals that can follow a nonterminal. They are the least tables that
a pass over all rules leaves unchanged, and they are found by passing over the rules again and
again, starting from the terminals alone.

Within a pass a rule sees what earlier rules of the same pass have added.
-/

namespace ParserGenerator

/-- A set for each symbol of a fixed list. -/
abbrev SetsBySymbol := List (Symbol × SymbolSet)

namespace SetsBySymbol

/-- The set of a symbol, if the table has one. -/
def get? (table : SetsBySymbol) (symbol : Symbol) : Option SymbolSet := table.lookup symbol

/-- The set of a symbol, which is empty if the table has none. -/
def get (table : SetsBySymbol) (symbol : Symbol) : SymbolSet := (table.get? symbol).getD ∅

/-- Adds members to the set of a symbol, if the table has one. -/
def grow (table : SetsBySymbol) (symbol : Symbol) (added : SymbolSet) : SetsBySymbol :=
  table.map fun (key, set) => if key = symbol then (key, set ∪ added) else (key, set)

theorem get?_grow (table : SetsBySymbol) (symbol key : Symbol) (added : SymbolSet) :
    (table.grow symbol added).get? key =
      (table.get? key).map fun set => if key = symbol then set ∪ added else set := by
  induction table with
  | nil => rfl
  | cons entry rest ih =>
      obtain ⟨first, set⟩ := entry
      simp only [grow, get?, List.map_cons] at ih ⊢
      by_cases known : key = first
      · subst known
        by_cases grown : key = symbol <;> simp [grown]
      · have skip : (key == first) = false := by simpa using known
        by_cases grown : first = symbol
        · rw [if_pos grown, List.lookup_cons, List.lookup_cons, skip]
          exact ih
        · rw [if_neg grown, List.lookup_cons, List.lookup_cons, skip]
          exact ih

end SetsBySymbol

/-- The nullable nonterminals and the FIRST and FOLLOW sets. -/
structure GrammarSets where
  nullable : SymbolSet
  first : SetsBySymbol
  follow : SetsBySymbol
deriving DecidableEq

namespace GrammarSets

/-- The first symbols of a string up to the first symbol that is not nullable, and whether there is
no such symbol. -/
def firstWalk (sets : GrammarSets) : SymbolString → SymbolSet × Bool
  | [] => (∅, true)
  | symbol :: rest =>
      let own := sets.first.get symbol
      if sets.nullable.contains symbol then
        let (later, allNullable) := sets.firstWalk rest
        (own ∪ later, allNullable)
      else (own, false)

/-- FIRST of a string: it contains epsilon if and only if every symbol is nullable. -/
def firstOf (sets : GrammarSets) (string : SymbolString) : SymbolSet :=
  let (found, allNullable) := sets.firstWalk string
  if allNullable then (found.erase Symbol.epsilon).insert Symbol.epsilon
  else found.erase Symbol.epsilon

/-- FOLLOW of the last symbol of a reversed string, and of the symbols in front of it as long as
all behind them are nullable; epsilon if all of the string is. -/
def followOfReversed (sets : GrammarSets) : SymbolString → SymbolSet
  | [] => OrderedSet.singleton Symbol.epsilon
  | last :: earlier =>
      if sets.nullable.contains last then sets.follow.get last ∪ sets.followOfReversed earlier
      else sets.follow.get last

/-- FOLLOW of a string. -/
def followOf (sets : GrammarSets) (string : SymbolString) : SymbolSet :=
  sets.followOfReversed string.reverse

/-! ## The least tables -/

/-- Lets a rule contribute to what its left-hand side derives. -/
def growFirst (sets : GrammarSets) (rule : Rule) : GrammarSets :=
  let head := sets.firstOf rule.rhs
  { sets with
    nullable :=
      if (sets.firstWalk rule.rhs).2 then sets.nullable.insert rule.lhs else sets.nullable
    first := sets.first.grow rule.lhs head }

/-- Goes over a right-hand side from its end, adds to FOLLOW of each nonterminal what can stand
behind it, and returns what can stand behind the symbol in front. -/
def growFollow (isNonterminal : Symbol → Bool) (trailer : SymbolSet) (sets : GrammarSets) :
    SymbolString → SymbolSet × GrammarSets
  | [] => (trailer, sets)
  | symbol :: rest =>
      let (behind, sets) := growFollow isNonterminal trailer sets rest
      let grown :=
        if isNonterminal symbol then { sets with follow := sets.follow.grow symbol behind }
        else sets
      let own := (sets.first.get symbol).erase Symbol.epsilon
      -- What is behind a nullable symbol can come right behind the symbol in front of it.
      (if sets.nullable.contains symbol then behind ∪ own else own, grown)

/-- Lets a rule contribute to all tables. -/
def applyRule (isNonterminal : Symbol → Bool) (sets : GrammarSets) (rule : Rule) : GrammarSets :=
  let sets := sets.growFirst rule
  (growFollow isNonterminal (sets.follow.get rule.lhs) sets rule.rhs).2

/-- One pass over the rules. -/
def pass (rules : List Rule) (sets : GrammarSets) : GrammarSets :=
  rules.foldl (applyRule fun symbol => rules.any (·.lhs == symbol)) sets

/-- Passes over the rules until a pass changes nothing, at most `fuel` times. -/
def stabilize (rules : List Rule) : (fuel : Nat) → GrammarSets → GrammarSets
  | 0, sets => sets
  | fuel + 1, sets =>
      let next := sets.pass rules
      if next = sets then sets else stabilize rules fuel next

/-- The tables before the first pass: a terminal begins with itself, and the end of the input
follows the start. -/
def initial (terminals nonterminals : List Symbol) : GrammarSets where
  nullable := ∅
  first :=
    terminals.map (fun symbol => (symbol, OrderedSet.singleton symbol)) ++
      nonterminals.map fun symbol => (symbol, ∅)
  follow :=
    terminals.map (fun symbol => (symbol, ∅)) ++
      nonterminals.map fun symbol =>
        (symbol, if symbol = Symbol.start then OrderedSet.singleton Symbol.endOfInput else ∅)

/-- A bound on the number of members that passes can add: each of `count` symbols can become
nullable, and its two sets can gain each symbol and epsilon. -/
def capacity (count : Nat) : Nat := count + 2 * (count * (count + 1))

/-- The tables of a list of rules with the given terminals and nonterminals. -/
def ofRules (rules : List Rule) (terminals nonterminals : List Symbol) : GrammarSets :=
  stabilize rules (capacity (terminals.length + nonterminals.length))
    (initial terminals nonterminals)

end GrammarSets

end ParserGenerator
