import ParserGenerator.CharSet

/-!
# Nondeterministic automata

An automaton has numbered states. State 0 is the initial one and state 1 the final one; an edge
reads one character or nothing. An automaton is put between two states of another one by `embed`,
which maps its initial and final state to these two and gives its other states fresh numbers.

Functions on states that may not exist come in two forms: one treats a missing state as a state
without edges, the other, marked by `?`, has no answer when such a state is used.
-/

namespace ParserGenerator

/-- What an edge reads. -/
inductive Label where
  | epsilon
  | char (c : Char)
deriving DecidableEq, Repr

/-- What an edge reads, between parentheses. -/
def Label.display : Label → String
  | .epsilon => "(eps)"
  | .char c => "(" ++ CharSet.display c ++ ")"

/-- An edge out of a state. -/
structure Edge where
  label : Label
  target : Nat
deriving DecidableEq, Repr

/-- The edges out of each state, by the states' numbers. -/
structure Nfa where
  rows : List (List Edge)
deriving DecidableEq

namespace Nfa

def initial : Nat := 0

def final : Nat := 1

/-- The automaton with the initial and the final state and no edge. -/
def empty : Nfa := ⟨[[], []]⟩

instance : Inhabited Nfa := ⟨empty⟩

def size (nfa : Nfa) : Nat := nfa.rows.length

def isEmpty (nfa : Nfa) : Bool := nfa.rows.isEmpty

/-- The edges out of a state in the order in which they were added. -/
def edges (nfa : Nfa) (state : Nat) : List Edge := nfa.rows[state]?.getD []

/-- The edges out of a state that exists. -/
def edges? (nfa : Nfa) (state : Nat) : Option (List Edge) := nfa.rows[state]?

/-- All edges with their sources, by ascending sources. -/
def transitions (nfa : Nfa) : List (Nat × Edge) :=
  nfa.rows.zipIdx.flatMap fun (row, source) => row.map fun edge => (source, edge)

/-! ## Construction -/

/-- Adds a state and tells its number. -/
def addState (nfa : Nfa) : Nat × Nfa := (nfa.size, ⟨nfa.rows ++ [[]]⟩)

/-- Adds an edge to a state, unless the state has the same edge already. -/
def addEdge (nfa : Nfa) (source : Nat) (label : Label) (target : Nat) : Nfa :=
  let edge : Edge := ⟨label, target⟩
  ⟨nfa.rows.modify source fun row => if edge ∈ row then row else row ++ [edge]⟩

/-- Adds an edge to a state that exists. -/
def addEdge? (nfa : Nfa) (source : Nat) (label : Label) (target : Nat) : Option Nfa :=
  if source < nfa.size then some (nfa.addEdge source label target) else none

/-- Where a state of an automaton that is embedded in `host` goes. -/
def image (host : Nfa) (start stop : Nat) : Nat → Nat
  | 0 => start
  | 1 => stop
  | inner + 2 => host.size + inner

/-- The host with room for the inner states of an automaton to be embedded. -/
def widen (host child : Nfa) : Nfa := ⟨host.rows ++ List.replicate (child.size - 2) []⟩

/-- Copies `child` between two states of `host`. -/
def embed (host child : Nfa) (start stop : Nat) : Nfa :=
  child.transitions.foldl
    (fun nfa (source, edge) =>
      nfa.addEdge (host.image start stop source) edge.label (host.image start stop edge.target))
    (host.widen child)

/-- Copies `child` between two states of `host`, if no edge of the child leads out of the child
and each starts at a state of the result. -/
def embed? (host child : Nfa) (start stop : Nat) : Option Nfa :=
  if child.transitions.all fun (source, edge) =>
      edge.target < child.size && host.image start stop source < (host.widen child).size
  then some (host.embed child start stop)
  else none

/-- Every edge leads to a state of the automaton. -/
def Closed (nfa : Nfa) : Prop :=
  ∀ source edge, edge ∈ nfa.edges source → edge.target < nfa.size

/-! ## Runs -/

/-- The states that edges reading nothing lead to. -/
def silentTargets (nfa : Nfa) (state : Nat) : List Nat :=
  (nfa.edges state).filterMap fun edge =>
    if edge.label = .epsilon then some edge.target else none

/-- Visits the states on a stack and all that silent edges lead to from them. -/
def visit (nfa : Nfa) : (fuel : Nat) → (visited : OrderedSet Nat) → (stack : List Nat) →
    OrderedSet Nat
  | 0, visited, _ => visited
  | _ + 1, visited, [] => visited
  | fuel + 1, visited, state :: stack =>
      -- A state may wait on the stack several times and is expanded at its first turn.
      if visited.contains state then nfa.visit fuel visited stack
      else nfa.visit fuel (visited.insert state) (nfa.silentTargets state ++ stack)

/-- The states that are reached from `states` by silent edges alone. Each edge is followed at
most once, which bounds the number of visits. -/
def closure (nfa : Nfa) (states : List Nat) : OrderedSet Nat :=
  nfa.visit (states.length + nfa.transitions.length) ∅ states

/-- Whether all states of a set exist. -/
def containsAll (nfa : Nfa) (states : OrderedSet Nat) : Bool :=
  states.toList.all (· < nfa.size)

/-- The closure, if all of its states exist. -/
def closure? (nfa : Nfa) (states : List Nat) : Option (OrderedSet Nat) :=
  let reached := nfa.closure states
  if nfa.containsAll reached then some reached else none

/-- The states that edges reading `c` lead to from a set of states. -/
def move (nfa : Nfa) (states : OrderedSet Nat) (c : Char) : List Nat :=
  states.toList.flatMap fun state =>
    (nfa.edges state).filterMap fun edge =>
      if edge.label = .char c then some edge.target else none

/-- The states that reading a text leads to from a set that is closed under silent edges. -/
def run (nfa : Nfa) (states : OrderedSet Nat) (text : List Char) : OrderedSet Nat :=
  text.foldl (fun states c => nfa.closure (nfa.move states c)) states

/-- Whether the automaton accepts the whole of a text. -/
def accepts (nfa : Nfa) (text : List Char) : Bool :=
  (nfa.run (nfa.closure [initial]) text).contains final

/-- The states that reading a text leads to, if all states on the way exist. -/
def run? (nfa : Nfa) (states : OrderedSet Nat) : List Char → Option (OrderedSet Nat)
  | [] => some states
  | c :: rest => do
      let states ← nfa.closure? (nfa.move states c)
      nfa.run? states rest

/-- Whether the automaton accepts a text, if all states on the way exist. -/
def accepts? (nfa : Nfa) (text : List Char) : Option Bool := do
  let states ← nfa.closure? [initial]
  let states ← nfa.run? states text
  pure (states.contains final)

/-- One line for each edge. -/
def display (nfa : Nfa) : String :=
  String.join (nfa.transitions.map fun (source, edge) =>
    toString source ++ " -> " ++ toString edge.target ++ " " ++ edge.label.display ++ "\n")

end Nfa

end ParserGenerator
