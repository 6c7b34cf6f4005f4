import ParserGenerator.Grammar

/-!
# Asking a grammar for the sets of strings

FIRST and FOLLOW of a string are worked out once: a grammar that is asked for the same string again
gives the set that it remembers. FOLLOW of a string may rest on FOLLOW of the string without its
last symbol, which is then remembered as well. Another pass over the rules leaves all that is
remembered as it is.
-/

namespace ParserGenerator

/-- The sets of strings that are known already. -/
abbrev KnownSets := List (SymbolString × SymbolSet)

/-- A grammar with the FIRST and FOLLOW sets of strings that it remembers. -/
structure Consultation where
  grammar : Grammar
  first : KnownSets
  follow : KnownSets

/-- What a grammar can be asked. -/
inductive Question where
  | first (string : SymbolString)
  | follow (string : SymbolString)
  /-- Asks for another pass over the rules and whether it has changed a set. -/
  | update
deriving DecidableEq, Repr

/-- What a grammar answers: a set, or whether a set has changed. -/
inductive Answer where
  | set (members : SymbolSet)
  | changed (grown : Bool)
deriving DecidableEq

namespace Consultation

/-- A grammar that was not asked yet. -/
def ofGrammar (g : Grammar) : Consultation := ⟨g, [], []⟩

/-- FIRST of a string. -/
def firstOf (consulted : Consultation) (string : SymbolString) : SymbolSet × Consultation :=
  match consulted.first.lookup string with
  | some set => (set, consulted)
  | none =>
      let set := consulted.grammar.firstOf string
      (set, { consulted with first := (string, set) :: consulted.first })

/-- FOLLOW of a reversed string. It is remembered for the string in its own order, and so is that of
every shorter string that was needed for it. -/
def followOfReversed (consulted : Consultation) : SymbolString → SymbolSet × Consultation
  | [] => (OrderedSet.singleton Symbol.epsilon, consulted)
  | last :: earlier =>
      let string := (last :: earlier).reverse
      match consulted.follow.lookup string with
      | some set => (set, consulted)
      | none =>
          let own := consulted.grammar.sets.follow.get last
          let (set, consulted) :=
            if consulted.grammar.isNullable last then
              let (further, consulted) := consulted.followOfReversed earlier
              (own ∪ further, consulted)
            else (own, consulted)
          (set, { consulted with follow := (string, set) :: consulted.follow })

/-- FOLLOW of a string. -/
def followOf (consulted : Consultation) (string : SymbolString) : SymbolSet × Consultation :=
  consulted.followOfReversed string.reverse

/-- Passes over the rules once more, and says whether that changed a set. -/
def update (consulted : Consultation) : Bool × Consultation :=
  let (changed, grammar) := consulted.grammar.update
  (changed, { consulted with grammar })

def ask (consulted : Consultation) : Question → Answer × Consultation
  | .first string =>
      let (set, consulted) := consulted.firstOf string
      (.set set, consulted)
  | .follow string =>
      let (set, consulted) := consulted.followOf string
      (.set set, consulted)
  | .update =>
      let (changed, consulted) := consulted.update
      (.changed changed, consulted)

/-- Asks the questions of a list in order. -/
def askAll (consulted : Consultation) : List Question → List Answer × Consultation
  | [] => ([], consulted)
  | question :: rest =>
      let (answer, consulted) := consulted.ask question
      let (answers, consulted) := consulted.askAll rest
      (answer :: answers, consulted)

end Consultation

end ParserGenerator
