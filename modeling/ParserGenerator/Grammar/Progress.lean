import ParserGenerator.Grammar.Sets

/-!
# What a pass over the rules reports

A pass tells whether it has changed a table. It does not compare the tables that it leaves with
those that it began with: it notes every change when it is made, which is when a symbol becomes
nullable that was not, and when a set has more members behind an addition than in front of it.
-/

namespace ParserGenerator

/-- Whether adding members to the set of a symbol, if the table has one, makes the set larger. -/
def SetsBySymbol.grows (table : SetsBySymbol) (symbol : Symbol) (added : SymbolSet) : Bool :=
  table.any fun (key, set) => key == symbol && (set ∪ added).size != set.size

namespace GrammarSets

/-- The tables in the middle of a pass, and whether one of them was changed so far. -/
structure Progress where
  sets : GrammarSets
  changed : Bool

namespace Progress

/-- Notes that a symbol is nullable. -/
def markNullable (progress : Progress) (symbol : Symbol) : Progress :=
  if progress.sets.nullable.contains symbol then progress
  else ⟨{ progress.sets with nullable := progress.sets.nullable.insert symbol }, true⟩

/-- Adds to FIRST of a symbol. -/
def growFirst (progress : Progress) (symbol : Symbol) (added : SymbolSet) : Progress :=
  ⟨{ progress.sets with first := progress.sets.first.grow symbol added },
    progress.changed || progress.sets.first.grows symbol added⟩

/-- Adds to FOLLOW of a symbol. -/
def growFollow (progress : Progress) (symbol : Symbol) (added : SymbolSet) : Progress :=
  ⟨{ progress.sets with follow := progress.sets.follow.grow symbol added },
    progress.changed || progress.sets.follow.grows symbol added⟩

/-- Lets a rule contribute to what its left-hand side derives. -/
def derive (progress : Progress) (rule : Rule) : Progress :=
  let head := progress.sets.firstOf rule.rhs
  let marked :=
    if (progress.sets.firstWalk rule.rhs).2 then progress.markNullable rule.lhs else progress
  marked.growFirst rule.lhs head

/-- Goes over a right-hand side from its end, adds to FOLLOW of each nonterminal what can stand
behind it, and returns what can stand behind the symbol in front. -/
def followBack (isNonterminal : Symbol → Bool) (trailer : SymbolSet) (progress : Progress) :
    SymbolString → SymbolSet × Progress
  | [] => (trailer, progress)
  | symbol :: rest =>
      let (behind, progress) := followBack isNonterminal trailer progress rest
      let grown := if isNonterminal symbol then progress.growFollow symbol behind else progress
      let own := (grown.sets.first.get symbol).erase Symbol.epsilon
      (if grown.sets.nullable.contains symbol then behind ∪ own else own, grown)

/-- Lets a rule contribute to all tables. -/
def applyRule (isNonterminal : Symbol → Bool) (progress : Progress) (rule : Rule) : Progress :=
  let derived := progress.derive rule
  (followBack isNonterminal (derived.sets.follow.get rule.lhs) derived rule.rhs).2

end Progress

/-- One pass over the rules, with its report. -/
def reportedPass (rules : List Rule) (sets : GrammarSets) : Progress :=
  rules.foldl (Progress.applyRule fun symbol => rules.any (·.lhs == symbol)) ⟨sets, false⟩

end GrammarSets

end ParserGenerator
