/-!
# Exploring a graph from its first node

Two constructions number the nodes of a graph that is known only through the successors of each
node: the deterministic automaton of a lexer and the canonical collection of a grammar. Nodes are
numbered in the order in which they are found, starting from one node, and a node that is found
again keeps its number. Expanding a node may use and extend a memory, which lets a costly step
reuse what earlier ones computed.

The search stops early when it has found more nodes than a limit allows; `Exploration.isComplete`
tells whether every node that was found has been expanded.
-/

namespace ParserGenerator

/-- The nodes that were found, in order, and for the expanded ones their numbered edges. -/
structure Exploration (ν ℓ : Type) where
  nodes : List ν
  rows : List (List (ℓ × Nat))

namespace Exploration

variable {ν ℓ σ : Type} [DecidableEq ν]

/-- Whether every node that was found has been expanded. -/
def isComplete (found : Exploration ν ℓ) : Bool := found.nodes.length == found.rows.length

/-- The number of a node among the known ones, which a new node joins at the end. -/
def numberOf (known : List ν) (node : ν) : Nat × List ν :=
  match known.idxOf? node with
  | some index => (index, known)
  | none => (known.length, known ++ [node])

/-- Numbers the targets of a row of edges in order. -/
def numberTargets (known : List ν) : List (ℓ × ν) → List (ℓ × Nat) × List ν
  | [] => ([], known)
  | (label, node) :: rest =>
      let (number, known) := numberOf known node
      let (row, known) := numberTargets known rest
      ((label, number) :: row, known)

/-- Expands the nodes that were found and not expanded yet, at most `fuel` of them. -/
def resume (expand : ν → σ → List (ℓ × ν) × σ) (limit : Nat) :
    (fuel : Nat) → (memory : σ) → Exploration ν ℓ → Exploration ν ℓ
  | 0, _, found => found
  | fuel + 1, memory, found =>
      match found.nodes[found.rows.length]? with
      | none => found
      | some node =>
          let (targets, memory) := expand node memory
          let (row, nodes) := numberTargets found.nodes targets
          -- The row of a node that breaks the limit is dropped, which leaves the search incomplete.
          if found.nodes.length < nodes.length ∧ limit < nodes.length then { found with nodes }
          else resume expand limit fuel memory ⟨nodes, found.rows ++ [row]⟩

end Exploration

/-- Explores a graph from `first`, breadth first, until all nodes are expanded or more than
`limit` nodes are found. One expansion more than the limit is enough for either. -/
def explore {ν ℓ σ : Type} [DecidableEq ν] (expand : ν → σ → List (ℓ × ν) × σ) (limit : Nat)
    (memory : σ) (first : ν) : Exploration ν ℓ :=
  Exploration.resume expand limit (limit + 1) memory ⟨[first], []⟩

end ParserGenerator
