import ParserGenerator.CharSet
import ParserGenerator.Symbol

/-!
# Deterministic automata

A deterministic automaton drives the lexer: it starts in state 0, has at most one edge for each
character out of a state, and a state may accept a symbol.
-/

namespace ParserGenerator

/-- What a state accepts, and its edges by ascending characters. -/
structure DfaState where
  accepts : Option Symbol
  edges : List (Char × Nat)
deriving DecidableEq, Repr

/-- The states by number. -/
structure Dfa where
  states : List DfaState
deriving DecidableEq, Repr

namespace Dfa

def initial : Nat := 0

def size (dfa : Dfa) : Nat := dfa.states.length

def isEmpty (dfa : Dfa) : Bool := dfa.states.isEmpty

/-- The state that a character leads to. -/
def step (dfa : Dfa) (state : Nat) (c : Char) : Option Nat := do
  (← dfa.states[state]?).edges.lookup c

/-- The symbol that a state accepts. -/
def accepted (dfa : Dfa) (state : Nat) : Option Symbol := do
  (← dfa.states[state]?).accepts

/-- The state that a text leads to. -/
def run (dfa : Dfa) (state : Nat) : List Char → Option Nat
  | [] => some state
  | c :: rest => do dfa.run (← dfa.step state c) rest

/-- The symbol that is accepted after the whole of a text. -/
def recognize (dfa : Dfa) (text : List Char) : Option Symbol := do
  dfa.accepted (← dfa.run initial text)

/-- The states that are entered while reading a text, up to a missing edge. -/
def walk (dfa : Dfa) (state : Nat) : List Char → List Nat
  | [] => []
  | c :: rest =>
      match dfa.step state c with
      | none => []
      | some next => next :: dfa.walk next rest

/-- The states with what they accept, each followed by a line for each edge. -/
def display (names : SymbolTable) (dfa : Dfa) : String :=
  String.join (dfa.states.zipIdx.map fun (state, index) =>
    let title := match state.accepts with
      | some symbol =>
          "state " ++ toString index ++ " (accepts " ++ names.display symbol ++ "):\n"
      | none => "state " ++ toString index ++ ":\n"
    title ++ String.join (state.edges.map fun (c, target) =>
      "  " ++ CharSet.display c ++ " -> " ++ toString target ++ "\n"))

end Dfa

end ParserGenerator
