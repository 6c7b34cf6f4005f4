import ParserGenerator.Automaton.Closure
import ParserGenerator.Exploration

/-!
# The canonical automaton of a grammar

The states of the automaton are closed item sets. The first one is the closure of the start rule
with its marker in front; an edge for a symbol leads to the closure of the items that expect the
symbol, with their markers moved over it. States are numbered in the order in which they are
found.
-/

namespace ParserGenerator

/-- Why no automaton was built. -/
inductive BuildError where
  | tooManyStates (limit : Nat)
deriving DecidableEq, Repr

def BuildError.message : BuildError → String
  | tooManyStates limit => "the automaton exceeds the limit of " ++ toString limit ++ " states"

/-- An item set with its numbered edges. -/
structure AutomatonState where
  items : ItemSet
  edges : List (Symbol × Nat)
deriving DecidableEq

/-- The states by number. -/
structure Automaton where
  states : List AutomatonState
deriving DecidableEq

namespace Automaton

/-- Adds an item to the kernel of a symbol; kernels are listed in the order of their first item. -/
def addToKernel (symbol : Symbol) (item : Item) : List (Symbol × ItemSet) →
    List (Symbol × ItemSet)
  | [] => [(symbol, ItemSet.ofList [item])]
  | (key, kernel) :: rest =>
      if key = symbol then (key, kernel.insert item) :: rest
      else (key, kernel) :: addToKernel symbol item rest

/-- The items behind each symbol that some item expects, with their markers moved over it. -/
def kernels (g : Grammar) (set : ItemSet) : List (Symbol × ItemSet) :=
  set.items.foldl
    (fun found item =>
      match item.core.nextSymbol g with
      | none => found
      | some symbol => addToKernel symbol ⟨item.core.shifted, item.lookahead⟩ found)
    []

/-- Closes the kernels of a list in order. -/
def closeKernels (g : Grammar) (known : KnownClosures) : List (Symbol × ItemSet) →
    List (Symbol × ItemSet) × KnownClosures
  | [] => ([], known)
  | (symbol, kernel) :: rest =>
      let (closed, known) := known.close g kernel
      let (later, known) := closeKernels g known rest
      ((symbol, closed) :: later, known)

/-- The edges out of a state and the item sets they lead to. -/
def successors (g : Grammar) (set : ItemSet) (known : KnownClosures) :
    List (Symbol × ItemSet) × KnownClosures :=
  closeKernels g known (kernels g set)

/-- The item of the start rule with its marker in front. -/
def startItem (g : Grammar) : Item :=
  ⟨⟨Grammar.startRuleId, 0⟩, (g.follow? Symbol.start).getD ∅⟩

/-- The number of cores: a rule has a marker in front of each symbol of its right-hand side and
one behind it. -/
def coreCount (g : Grammar) : Nat := (g.rules.flatMap Rule.rhs).length + g.rules.length

/-- A bound on the number of item sets: each core is missing or has a set of terminals. -/
def itemSetBound (g : Grammar) : Nat := Nat.pow 2 (coreCount g * (g.terminalBound + 1))

/-- The item sets found from the start rule, with at most `limit` of them unless the search is to
fail. -/
def collection (g : Grammar) (limit : Nat) : Exploration ItemSet Symbol :=
  let (first, known) := KnownClosures.close g [] (ItemSet.ofList [startItem g])
  explore (successors g) limit known first

/-- The automaton of a grammar, if it has no more states than a limit. Where no limit is given,
the number of item sets is the limit. -/
def generate (g : Grammar) (limit : Option Nat) : Except BuildError Automaton :=
  let limit := limit.getD (itemSetBound g)
  let found := collection g limit
  if found.isComplete then
    .ok ⟨(found.nodes.zip found.rows).map fun (items, edges) => ⟨items, edges⟩⟩
  else .error (.tooManyStates limit)

def size (automaton : Automaton) : Nat := automaton.states.length

def isEmpty (automaton : Automaton) : Bool := automaton.states.isEmpty

/-- The states with their items and edges, if all rules of the items exist. -/
def display? (names : SymbolTable) (g : Grammar) (automaton : Automaton) : Option String := do
  let parts ← automaton.states.zipIdx.mapM fun (state, index) => do
    let items ← state.items.display? names g
    let edge (entry : Symbol × Nat) : String :=
      "- " ++ names.display entry.1 ++ " => " ++ Text.twoDigits entry.2 ++ "\n"
    pure ((if index = 0 then "" else "\n") ++ "#### State " ++ Text.twoDigits index ++ "\n" ++
      "## items\n" ++ items ++ "## edges\n" ++ String.join (state.edges.map edge))
  pure (String.join parts)

end Automaton

end ParserGenerator
