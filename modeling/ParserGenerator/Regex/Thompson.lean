import ParserGenerator.Nfa
import ParserGenerator.Regex

/-!
# The automaton of a regular expression

Each form of regular expression has an automaton that is put together from the automata of its
parts. The parts are embedded between states of the whole: in a row for a concatenation, side by
side behind silent edges for an alternation, and between two fresh states with a silent edge back
for a repetition.
-/

namespace ParserGenerator

namespace Nfa

/-- Reads one character of the set. -/
def ofCharSet (set : CharSet) : Nfa :=
  set.toList.foldl (fun nfa c => nfa.addEdge initial (.char c) final) empty

/-- Puts automata in a row between the state `start` and the final state. -/
def chain (nfa : Nfa) (start : Nat) : List Nfa → Nfa
  | [] => nfa.addEdge start .epsilon final
  | [last] => nfa.embed last start final
  | item :: rest =>
      let (middle, nfa) := nfa.addState
      (nfa.embed item start middle).chain middle rest

/-- One automaton after another. -/
def concat (items : List Nfa) : Nfa := empty.chain initial items

/-- Puts automata side by side, each behind a fresh state. -/
def spread (nfa : Nfa) : List Nfa → Nfa
  | [] => nfa
  | branch :: rest =>
      let (start, nfa) := nfa.addState
      ((nfa.addEdge initial .epsilon start).embed branch start final).spread rest

/-- One of several automata. -/
def alt (branches : List Nfa) : Nfa := empty.spread branches

/-- An automaton, or nothing. -/
def optional (inner : Nfa) : Nfa :=
  (empty.embed inner initial final).addEdge initial .epsilon final

/-- An automaton once or more often. -/
def plus (inner : Nfa) : Nfa :=
  let (start, nfa) := empty.addState
  let (stop, nfa) := nfa.addState
  (((nfa.addEdge initial .epsilon start).embed inner start stop).addEdge stop .epsilon start).addEdge
    stop .epsilon final

/-- An automaton any number of times. -/
def star (inner : Nfa) : Nfa := inner.plus.addEdge initial .epsilon final

end Nfa

namespace Regex

mutual
/-- The automaton that accepts the language of a regular expression. -/
def toNfa : Regex → Nfa
  | .leaf set => .ofCharSet set
  | .concat items => .concat (toNfas items)
  | .alt branches => .alt (toNfas branches)
  | .optional inner => inner.toNfa.optional
  | .star inner => inner.toNfa.star
  | .plus inner => inner.toNfa.plus

/-- The automata of several regular expressions. -/
def toNfas : List Regex → List Nfa
  | [] => []
  | regex :: rest => regex.toNfa :: toNfas rest
end

end Regex

end ParserGenerator
