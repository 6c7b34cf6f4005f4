import ParserGenerator.Proofs.Exploration.Worklist
import ParserGenerator.Proofs.JointNfa.Subsets
import ParserGenerator.Proofs.Nfa.Worklist

/-!
# The states of the deterministic automaton

The search for sets of states goes on as long as one of them waits to be expanded. It ends, since
there are only so many sets of states and none is numbered twice. In the automaton that it leaves
every edge leads to a state, every state is reached by a text, and the initial state, which accepts
nothing, is entered by no edge.

Results:
1. `JointNfa.determines_iff`: the search ends, and leaves the deterministic automaton.
2. `JointNfa.wellFormed_toDfa`: the automaton is well formed.
3. `JointNfa.determines_wellFormed`: both for the automata of any rules.
-/

namespace ParserGenerator

/-! ## Definitions -/

/-- A state has at most one edge for a character, edges lead to states other than the initial one,
every state is reached from the initial one, and the initial one accepts nothing. -/
structure Dfa.WellFormed (dfa : Dfa) : Prop where
  distinct : ∀ state ∈ dfa.states, (state.edges.map Prod.fst).Nodup
  target_lt : ∀ state ∈ dfa.states, ∀ edge ∈ state.edges, edge.2 < dfa.size
  target_ne : ∀ state ∈ dfa.states, ∀ edge ∈ state.edges, edge.2 ≠ Dfa.initial
  reached : ∀ state, state < dfa.size → ∃ text, dfa.run Dfa.initial text = some state
  initial_accepts : dfa.accepted Dfa.initial = none

/-- The states stand for sets, each for another one: a text leads to the state that stands for the
states of the nondeterministic automaton that the text leads to. -/
structure Dfa.StandsFor (dfa : Dfa) (nfa : Nfa) (sets : List (OrderedSet Nat)) : Prop where
  length_eq : sets.length = dfa.size
  distinct : sets.Nodup
  getElem?_run : ∀ text state, dfa.run Dfa.initial text = some state →
    sets[state]? = some (nfa.run (nfa.closure [Nfa.initial]) text)

namespace JointNfa

/-- The deterministic automaton of the sets of states and the edges that a search has found. -/
def ofExploration (joint : JointNfa) (found : Exploration (OrderedSet Nat) Char) : Dfa :=
  ⟨(found.nodes.zip found.rows).zipIdx.map fun ((states, row), index) =>
    ⟨if index = Dfa.initial then none else joint.accepted states, row⟩⟩

/-- The queue of sets of states, however many there are, runs empty, and the automaton has what was
found by then. -/
def Determines (joint : JointNfa) (dfa : Dfa) : Prop :=
  ∃ final, Worklist.Finds .deque (fun states (_ : Unit) => (joint.successors states, ())) none ()
    (joint.nfa.closure [Nfa.initial]) (some final) ∧ joint.ofExploration final = dfa

variable {joint : JointNfa} {rules : List (Symbol × Nfa)} {index : Nat} {state : DfaState}

/-! ## Edges -/

theorem exists_node_of_state (isState : joint.toDfa.states[index]? = some state) :
    ∃ states, joint.subsets.nodes[index]? = some states ∧
      joint.subsets.rows[index]? = some state.edges := by
  simp only [toDfa, List.getElem?_map, List.getElem?_zipIdx, Option.map_eq_some_iff] at isState
  obtain ⟨⟨⟨states, row⟩, number⟩, ⟨⟨found, row'⟩, both, equal⟩, rfl⟩ := isState
  cases equal
  obtain ⟨node, expanded⟩ := List.getElem?_zip_eq_some.1 both
  exact ⟨states, node, expanded⟩

/-- The characters on the edges of a state are the readable ones of its set. -/
theorem distinct_edges (isState : joint.toDfa.states[index]? = some state) :
    (state.edges.map Prod.fst).Nodup := by
  obtain ⟨states, node, expanded⟩ := exists_node_of_state isState
  rw [((explored_subsets joint).names index states _ node expanded).labels, successors,
    List.map_map]
  exact (List.map_id' _).symm ▸ (joint.readable states).nodup_toList

/-- An edge leads to the state for the closure of what its character leads to. -/
theorem exists_node_of_edge (isState : joint.toDfa.states[index]? = some state) {c : Char}
    {target : Nat} (edge : (c, target) ∈ state.edges) :
    ∃ states, joint.subsets.nodes[target]? =
      some (joint.nfa.closure (joint.nfa.move states c)) := by
  obtain ⟨states, node, expanded⟩ := exists_node_of_state isState
  obtain ⟨next, isNode, successor⟩ :=
    ((explored_subsets joint).names index states _ node expanded).exists_of_mem edge
  exact ⟨states, mem_successors successor ▸ isNode⟩

theorem step_of_edge (isState : joint.toDfa.states[index]? = some state) {c : Char} {target : Nat}
    (edge : (c, target) ∈ state.edges) : joint.toDfa.step index c = some target := by
  rw [Dfa.step, isState, Option.bind_eq_bind, Option.bind_some]
  exact (lookup_eq_some_iff_mem (distinct_edges isState)).2 edge

theorem run_append (dfa : Dfa) (first : Nat) (front back : List Char) :
    dfa.run first (front ++ back) =
      (dfa.run first front).bind fun middle => dfa.run middle back := by
  induction front generalizing first with
  | nil => rfl
  | cons c front ih =>
      rw [List.cons_append, Dfa.run, Dfa.run]
      cases dfa.step first c with
      | none => rfl
      | some next => exact ih next

section

variable (closed : joint.nfa.Closed) (nonempty : Nfa.initial < joint.nfa.size)
include closed nonempty

theorem size_toDfa : joint.toDfa.size = joint.subsets.nodes.length := by
  have complete := (complete_subsets closed nonempty).1
  rw [toDfa, Dfa.size, List.length_map, List.length_zipIdx, List.length_zip, complete, Nat.min_self]

/-- Every state is reached by a text: it was found on an edge out of a state that was found
before. -/
theorem exists_run_of_lt {number : Nat} (bound : number < joint.toDfa.size) :
    ∃ text, joint.toDfa.run Dfa.initial text = some number := by
  have complete := (complete_subsets closed nonempty).1
  have entered : joint.subsets.Entered := Exploration.entered_explore (beq_iff_eq.2 complete.symm)
  induction number using Nat.strongRecOn with
  | ind number ih =>
      rw [size_toDfa closed nonempty] at bound ih
      rcases entered number bound with isFirst | ⟨source, row, c, before, isRow, member⟩
      · exact ⟨[], congrArg some isFirst.symm⟩
      · have inside := Nat.lt_trans before bound
        obtain ⟨text, run⟩ := ih source before inside
        have isState := getElem?_states (List.getElem?_eq_getElem inside) isRow
        refine ⟨text ++ [c], ?_⟩
        rw [run_append, run, Option.bind_some, Dfa.run, step_of_edge isState member]
        rfl

/-- The automaton is well formed where no edge enters the common initial state. -/
theorem wellFormed_toDfa
    (notEntered : ∀ source edge, edge ∈ joint.nfa.edges source → edge.target ≠ Nfa.initial) :
    joint.toDfa.WellFormed where
  distinct state member := by
    obtain ⟨index, isState⟩ := List.getElem?_of_mem member
    exact distinct_edges isState
  target_lt state member edge isEdge := by
    obtain ⟨index, isState⟩ := List.getElem?_of_mem member
    obtain ⟨_, isNode⟩ := exists_node_of_edge isState isEdge
    rw [size_toDfa closed nonempty]
    exact (List.getElem?_eq_some_iff.1 isNode).1
  target_ne state member edge isEdge isInitial := by
    obtain ⟨index, isState⟩ := List.getElem?_of_mem member
    obtain ⟨states, isNode⟩ := exists_node_of_edge isState isEdge
    -- The set of the initial state has the common initial state, a set behind an edge has not.
    have starts := (explored_subsets joint).starts
    rw [isInitial] at isNode
    have same := Option.some.inj (starts.symm.trans isNode)
    have inFirst : Nfa.initial ∈ joint.nfa.closure [Nfa.initial] :=
      Nfa.mem_closure.2 ⟨_, List.mem_cons_self, .here _⟩
    rw [same, Nfa.mem_closure] at inFirst
    obtain ⟨behind, moved, path⟩ := inFirst
    obtain ⟨source, _, entering⟩ := Nfa.mem_move.1 moved
    exact notEntered source _ entering (eq_nil_of_path_initial notEntered path rfl).1
  reached _ bound := exists_run_of_lt closed nonempty bound
  initial_accepts :=
    (accepted_toDfa closed nonempty (explored_subsets joint).starts).trans (if_pos rfl)

theorem standsFor_toDfa : joint.toDfa.StandsFor joint.nfa joint.subsets.nodes where
  length_eq := (size_toDfa closed nonempty).symm
  distinct := (explored_subsets joint).distinct
  getElem?_run text state run := by
    rcases run_toDfa closed nonempty (explored_subsets joint).starts text with
      ⟨last, found, isNode⟩ | ⟨missing, _⟩
    · cases found.symm.trans run
      exact isNode
    · cases missing.symm.trans run

/-- The search for sets of states ends, and leaves the deterministic automaton. -/
theorem determines_iff {dfa : Dfa} : joint.Determines dfa ↔ dfa = joint.toDfa := by
  have complete := (complete_subsets closed nonempty).1
  have ends := Exploration.ends_resume (beq_iff_eq.2 complete.symm)
  constructor
  · rintro ⟨final, finds, rfl⟩
    obtain ⟨other, endsToo, isOther⟩ := Worklist.finds_none_iff.1 finds
    cases isOther
    rw [endsToo.unique ends]
    rfl
  · exact fun same => ⟨_, Worklist.finds_none_iff.2 ⟨_, ends, rfl⟩, same.symm⟩

end

/-! ## The automata of rules -/

/-- For any automata whose edges lead to states: every worklist of a closure runs empty, and so does
the search for sets of states, which leaves the deterministic automaton. It has at most as many
states as there are sets of states, each of its states stands for another set, and it is well
formed. -/
theorem determines_wellFormed (closed : ∀ rule ∈ rules, rule.2.Closed) :
    let joint := ofRules rules
    (∀ states last, joint.nfa.Empties ∅ states.reverse last ↔ last = joint.nfa.closure states) ∧
    (∀ dfa, joint.Determines dfa ↔ dfa = joint.toDfa) ∧
    joint.toDfa.size ≤ Nat.pow 2 joint.nfa.size ∧ joint.toDfa.WellFormed ∧
    ∃ sets, joint.toDfa.StandsFor joint.nfa sets := by
  have joins := joins_ofRules closed
  refine ⟨fun _ _ => Nfa.empties_iff, fun _ => determines_iff joins.closed joins.initial_lt, ?_,
    wellFormed_toDfa joins.closed joins.initial_lt joins.not_entered,
    _, standsFor_toDfa joins.closed joins.initial_lt⟩
  rw [size_toDfa joins.closed joins.initial_lt]
  exact (complete_subsets joins.closed joins.initial_lt).2

/-- Two rules whose silent edges lead around in circles, through the final state of the first and
the initial state of both. -/
def silentCircles : List (Symbol × Nfa) :=
  [(⟨3⟩, ⟨[[⟨.epsilon, 1⟩, ⟨.char 'a', 1⟩], [⟨.epsilon, 0⟩]]⟩),
    (⟨4⟩, ⟨[[⟨.epsilon, 2⟩], [⟨.char 'a', 0⟩], [⟨.epsilon, 0⟩, ⟨.char 'b', 1⟩]]⟩)]

theorem determines_wellFormed_silentCircles :
    (∀ rule ∈ silentCircles, rule.2.Closed) ∧
    let joint := ofRules silentCircles
    (∀ states last, joint.nfa.Empties ∅ states.reverse last ↔ last = joint.nfa.closure states) ∧
    (∀ dfa, joint.Determines dfa ↔ dfa = joint.toDfa) ∧
    joint.toDfa.size ≤ Nat.pow 2 joint.nfa.size ∧ joint.toDfa.WellFormed ∧
    ∃ sets, joint.toDfa.StandsFor joint.nfa sets := by
  have closed : ∀ rule ∈ silentCircles, rule.2.Closed := by decide
  exact ⟨closed, determines_wellFormed closed⟩

end JointNfa

end ParserGenerator
