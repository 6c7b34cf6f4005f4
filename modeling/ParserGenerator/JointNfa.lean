import ParserGenerator.Dfa
import ParserGenerator.Exploration
import ParserGenerator.Nfa

/-!
# The automata of several rules under one initial state

The automata of a lexer's rules are joined by silent edges from a common initial state, and each
rule's final state accepts the rule's symbol. The deterministic automaton has a state for each set
of states that a text leads to. Of several rules whose final states lie in a set, the one that was
added first is accepted. The initial state accepts nothing, whatever lies in its set.
-/

namespace ParserGenerator

/-- Joined automata with their accepting states in the order in which the rules were added. -/
structure JointNfa where
  nfa : Nfa
  accepting : List (Nat × Symbol)

namespace JointNfa

def empty : JointNfa := ⟨Nfa.empty, []⟩

/-- The number of rules. -/
def ruleCount (joint : JointNfa) : Nat := joint.accepting.length

def isEmpty (joint : JointNfa) : Bool := joint.accepting.isEmpty

/-- Adds the automaton of a rule behind all rules added before. -/
def addRule (joint : JointNfa) (symbol : Symbol) (rule : Nfa) : JointNfa :=
  let (start, nfa) := joint.nfa.addState
  let (stop, nfa) := nfa.addState
  ⟨(nfa.embed rule start stop).addEdge Nfa.initial .epsilon start,
    joint.accepting ++ [(stop, symbol)]⟩

/-- The symbol that a set of states accepts. -/
def accepted (joint : JointNfa) (states : OrderedSet Nat) : Option Symbol :=
  (joint.accepting.find? fun (state, _) => states.contains state).map (·.2)

/-- The characters on the edges out of a set of states. -/
def readable (joint : JointNfa) (states : OrderedSet Nat) : CharSet :=
  OrderedSet.ofList (states.toList.flatMap fun state =>
    (joint.nfa.edges state).filterMap fun edge =>
      match edge.label with
      | .epsilon => none
      | .char c => some c)

/-- The sets of states that the readable characters lead to, by ascending characters. -/
def successors (joint : JointNfa) (states : OrderedSet Nat) : List (Char × OrderedSet Nat) :=
  (joint.readable states).toList.map fun c => (c, joint.nfa.closure (joint.nfa.move states c))

/-- The sets of states that texts lead to. There are no more of them than sets of states. -/
def subsets (joint : JointNfa) : Exploration (OrderedSet Nat) Char :=
  explore (fun states _ => (joint.successors states, ())) (Nat.pow 2 joint.nfa.size) ()
    (joint.nfa.closure [Nfa.initial])

/-- The deterministic automaton of all rules. -/
def toDfa (joint : JointNfa) : Dfa :=
  let found := joint.subsets
  -- No rule takes the empty text, so the initial state never accepts.
  ⟨(found.nodes.zip found.rows).zipIdx.map fun ((states, row), index) =>
    ⟨if index = Dfa.initial then none else joint.accepted states, row⟩⟩

end JointNfa

end ParserGenerator
