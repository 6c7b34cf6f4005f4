import Mathlib.Data.List.Sublists
import ParserGenerator.Proofs.Exploration
import ParserGenerator.Proofs.JointNfa.Rules
import ParserGenerator.Proofs.OrderedSetSize

/-!
# The deterministic automaton of several rules

The states of the deterministic automaton are the sets of states that texts lead to. There are no
more of them than sets of states, so the search expands them all, and a run leads to the state for
the set that the nondeterministic run leads to. The initial state accepts nothing. No edge leads
back to it, since no edge enters the common initial state that its set has and no other set has.

Results:
1. `JointNfa.step_toDfa`, `JointNfa.run_toDfa`: what a run of the automaton leads to.
2. `JointNfa.recognize_ofRules`: the automaton recognizes the first rule that accepts a text.
-/

namespace ParserGenerator.JointNfa

variable {joint : JointNfa} {rules : List (Symbol × Nfa)}

/-! ## All sets of states -/

/-- The sets of the states of an automaton. -/
def allSubsets (size : Nat) : List (OrderedSet Nat) :=
  (List.range size).sublists.map OrderedSet.ofList

theorem length_allSubsets (size : Nat) : (allSubsets size).length = Nat.pow 2 size := by
  rw [allSubsets, List.length_map, List.length_sublists, List.length_range]
  rfl

theorem mem_allSubsets {size : Nat} {states : OrderedSet Nat}
    (exist : ∀ state ∈ states, state < size) : states ∈ allSubsets size := by
  refine List.mem_map.2 ⟨(List.range size).filter states.contains,
    List.mem_sublists.2 List.filter_sublist, OrderedSet.ext_mem fun state => ?_⟩
  rw [OrderedSet.mem_ofList, List.mem_filter, List.mem_range, OrderedSet.contains_iff]
  exact ⟨And.right, fun member => ⟨exist state member, member⟩⟩

/-! ## The search -/

theorem mem_successors {states : OrderedSet Nat} {entry : Char × OrderedSet Nat}
    (member : entry ∈ joint.successors states) :
    entry.2 = joint.nfa.closure (joint.nfa.move states entry.1) := by
  obtain ⟨c, _, rfl⟩ := List.mem_map.1 member
  rfl

/-- Nothing is remembered between two expansions. -/
theorem successors_spec (joint : JointNfa) (states : OrderedSet Nat) (_ : Unit) (_ : True) :
    joint.successors states = joint.successors states ∧ True := ⟨rfl, trivial⟩

/-- Every set that the search finds is expanded. -/
theorem complete_subsets (closed : joint.nfa.Closed) (nonempty : Nfa.initial < joint.nfa.size) :
    joint.subsets.rows.length = joint.subsets.nodes.length ∧
      joint.subsets.nodes.length ≤ Nat.pow 2 joint.nfa.size := by
  have count := length_allSubsets joint.nfa.size
  have complete : joint.subsets.rows.length = joint.subsets.nodes.length ∧
      joint.subsets.nodes.length ≤ (allSubsets joint.nfa.size).length := by
    refine Exploration.complete_explore (Nat.le_of_eq count) joint.successors_spec ?_ ?_ trivial
    · intro states _ entry member
      rw [mem_successors member]
      exact mem_allSubsets (closed.lt_of_mem_closure closed.lt_of_mem_move)
    · refine mem_allSubsets (closed.lt_of_mem_closure fun state member => ?_)
      rw [List.mem_singleton.1 member]
      exact nonempty
  rwa [count] at complete

theorem explored_subsets (joint : JointNfa) :
    Exploration.Explored joint.successors (joint.nfa.closure [Nfa.initial]) joint.subsets :=
  Exploration.explore_explored joint.successors_spec trivial

/-! ## Steps -/

theorem getElem?_states {index : Nat} {states : OrderedSet Nat} {row : List (Char × Nat)}
    (node : joint.subsets.nodes[index]? = some states)
    (expanded : joint.subsets.rows[index]? = some row) :
    joint.toDfa.states[index]? =
      some ⟨if index = Dfa.initial then none else joint.accepted states, row⟩ := by
  have both : (joint.subsets.nodes.zip joint.subsets.rows)[index]? = some (states, row) :=
    List.getElem?_zip_eq_some.2 ⟨node, expanded⟩
  simp only [toDfa, List.getElem?_map, List.getElem?_zipIdx, both, Option.map_some, Nat.zero_add]

theorem mem_readable {states : OrderedSet Nat} {c : Char} :
    c ∈ joint.readable states ↔ ∃ target, target ∈ joint.nfa.move states c := by
  simp only [readable, OrderedSet.mem_ofList, List.mem_flatMap, List.mem_filterMap, Nfa.mem_move]
  constructor
  · rintro ⟨state, member, ⟨label, target⟩, edge, reads⟩
    cases label with
    | epsilon => cases reads
    | char d =>
        cases reads
        exact ⟨target, state, member, edge⟩
  · rintro ⟨target, state, member, edge⟩
    exact ⟨state, member, _, edge, rfl⟩

theorem lookup_map_self {α β : Type} [DecidableEq α] (keys : List α) (value : α → β) (key : α) :
    (keys.map fun other => (other, value other)).lookup key =
      if key ∈ keys then some (value key) else none := by
  induction keys with
  | nil => rfl
  | cons first rest ih =>
      rw [List.map_cons, List.lookup_cons, ih]
      by_cases same : key = first
      · simp [same]
      · simp [same, beq_eq_false_iff_ne.2 same]

theorem lookup_successors (states : OrderedSet Nat) (c : Char) :
    (joint.successors states).lookup c = if c ∈ joint.readable states then
      some (joint.nfa.closure (joint.nfa.move states c)) else none :=
  (lookup_map_self _ _ c).trans (if_congr Iff.rfl rfl rfl)

section Runs

variable (closed : joint.nfa.Closed) (nonempty : Nfa.initial < joint.nfa.size)
include closed nonempty

/-- A step leads to the set that reading the character leads to; without a step there is none. -/
theorem step_toDfa {index : Nat} {states : OrderedSet Nat}
    (node : joint.subsets.nodes[index]? = some states) (c : Char) :
    (∃ next, joint.toDfa.step index c = some next ∧ joint.subsets.nodes[next]? =
      some (joint.nfa.closure (joint.nfa.move states c))) ∨
    joint.toDfa.step index c = none ∧ joint.nfa.move states c = [] := by
  obtain ⟨bound, _⟩ := List.getElem?_eq_some_iff.1 node
  rw [← (complete_subsets closed nonempty).1] at bound
  have expanded := List.getElem?_eq_getElem bound
  have names := ((explored_subsets joint).names index states _ node expanded).lookup c
  have step : joint.toDfa.step index c = joint.subsets.rows[index].lookup c := by
    rw [Dfa.step, getElem?_states node expanded, Option.bind_eq_bind, Option.bind_some]
  rw [← step, lookup_successors] at names
  by_cases reads : c ∈ joint.readable states
  · rw [if_pos reads, Option.map_some] at names
    obtain ⟨next, found, isNode⟩ := Option.map_eq_some_iff.1 names
    exact .inl ⟨next, found, isNode⟩
  · rw [if_neg reads, Option.map_none, Option.map_eq_none_iff] at names
    refine .inr ⟨names, List.eq_nil_iff_forall_not_mem.2 fun target moved => ?_⟩
    exact reads (mem_readable.2 ⟨target, moved⟩)

/-- A run leads to the set that the text leads to; where it stops early, that set is empty. -/
theorem run_toDfa {index : Nat} {states : OrderedSet Nat}
    (node : joint.subsets.nodes[index]? = some states) (text : List Char) :
    (∃ last, joint.toDfa.run index text = some last ∧
      joint.subsets.nodes[last]? = some (joint.nfa.run states text)) ∨
    joint.toDfa.run index text = none ∧ joint.nfa.run states text = ∅ := by
  induction text generalizing index states with
  | nil => exact .inl ⟨index, rfl, node⟩
  | cons c rest ih =>
      have step : joint.nfa.run states (c :: rest) =
          joint.nfa.run (joint.nfa.closure (joint.nfa.move states c)) rest := rfl
      rw [Dfa.run, step]
      rcases step_toDfa closed nonempty node c with ⟨next, found, isNode⟩ | ⟨missing, nothing⟩
      · rw [found]
        exact ih isNode
      · rw [missing, nothing, Nfa.closure_nil]
        exact .inr ⟨rfl, joint.nfa.run_empty rest⟩

theorem accepted_toDfa {index : Nat} {states : OrderedSet Nat}
    (node : joint.subsets.nodes[index]? = some states) :
    joint.toDfa.accepted index = if index = Dfa.initial then none else joint.accepted states := by
  obtain ⟨bound, _⟩ := List.getElem?_eq_some_iff.1 node
  rw [← (complete_subsets closed nonempty).1] at bound
  rw [Dfa.accepted, getElem?_states node (List.getElem?_eq_getElem bound)]
  rfl

end Runs

/-! ## What is recognized -/

theorem accepted_empty (joint : JointNfa) : joint.accepted ∅ = none := by
  rw [accepted, Option.map_eq_none_iff, List.find?_eq_none]
  exact fun entry _ => nofun

/-- A path that reads something does not come back to a state that no edge enters. -/
theorem eq_nil_of_path_initial {nfa : Nfa}
    (notEntered : ∀ source edge, edge ∈ nfa.edges source → edge.target ≠ Nfa.initial)
    {first last : Nat} {text : List Char} (path : nfa.Path first text last)
    (isInitial : last = Nfa.initial) : first = Nfa.initial ∧ text = [] := by
  induction path with
  | here => exact ⟨isInitial, rfl⟩
  | silent edge _ ih => exact absurd (ih isInitial).1 (notEntered _ _ edge)
  | read edge _ ih => exact absurd (ih isInitial).1 (notEntered _ _ edge)

/-- The deterministic automaton recognizes the first rule that accepts a text that is not empty. -/
theorem Joins.recognize_eq (joins : Joins joint rules) (text : List Char) :
    joint.toDfa.recognize text =
      if text = [] then none else (rules.find? fun rule => rule.2.accepts text).map (·.1) := by
  have starts : joint.subsets.nodes[Dfa.initial]? = some (joint.nfa.closure [Nfa.initial]) :=
    (explored_subsets joint).starts
  by_cases empty : text = []
  · rw [if_pos empty, empty]
    rw [Dfa.recognize, Dfa.run, Option.bind_eq_bind, Option.bind_some]
    exact (accepted_toDfa joins.closed joins.initial_lt starts).trans (if_pos rfl)
  · rw [if_neg empty, ← joins.accepted_eq]
    rcases run_toDfa joins.closed joins.initial_lt starts text with
      ⟨last, found, isNode⟩ | ⟨missing, nothing⟩
    · rw [Dfa.recognize, found, Option.bind_eq_bind, Option.bind_some,
        accepted_toDfa joins.closed joins.initial_lt isNode, if_neg]
      -- The set of the initial state has the common initial state, the set reached has not.
      intro isInitial
      rw [isInitial] at isNode
      have same := Option.some.inj (starts.symm.trans isNode)
      have inFirst : Nfa.initial ∈ joint.nfa.closure [Nfa.initial] :=
        Nfa.mem_closure.2 ⟨_, List.mem_cons_self, .here _⟩
      rw [same, Nfa.mem_run] at inFirst
      obtain ⟨state, _, path⟩ := inFirst
      exact empty (eq_nil_of_path_initial joins.not_entered path rfl).2
    · rw [Dfa.recognize, missing, nothing, accepted_empty]
      rfl

/-- Of any automata whose edges lead to states, the deterministic automaton of all of them
recognizes the first one that accepts a text that is not empty. -/
theorem recognize_ofRules {rules : List (Symbol × Nfa)} (closed : ∀ rule ∈ rules, rule.2.Closed)
    (text : List Char) : (ofRules rules).toDfa.recognize text =
      if text = [] then none else (rules.find? fun rule => rule.2.accepts text).map (·.1) :=
  (joins_ofRules closed).recognize_eq text

/-- Two automata that accept texts in common. Edges of the first one leave its final state and
enter its initial state, and silent edges of the second one lead around in a circle. -/
def circles : List (Symbol × Nfa) :=
  [(⟨3⟩, ⟨[[⟨.char 'a', 1⟩], [⟨.epsilon, 0⟩]]⟩),
    (⟨4⟩, ⟨[[⟨.epsilon, 2⟩], [⟨.char 'b', 1⟩], [⟨.epsilon, 0⟩, ⟨.char 'a', 1⟩]]⟩)]

theorem recognize_ofRules_circles :
    (∀ rule ∈ circles, rule.2.Closed) ∧
      (ofRules circles).toDfa.recognize ['a', 'a'] = some ⟨3⟩ ∧
      (ofRules circles).toDfa.recognize ['a'] = some ⟨3⟩ ∧
      (ofRules circles).toDfa.recognize ['a', 'b'] = some ⟨4⟩ ∧
      (ofRules circles).toDfa.recognize ['b'] = none ∧
      (ofRules circles).toDfa.recognize [] = none := by
  have closed : ∀ rule ∈ circles, rule.2.Closed := by decide
  refine ⟨closed, ?_, ?_, ?_, ?_, ?_⟩
  · exact (recognize_ofRules closed ['a', 'a']).trans (by decide)
  · exact (recognize_ofRules closed ['a']).trans (by decide)
  · exact (recognize_ofRules closed ['a', 'b']).trans (by decide)
  · exact (recognize_ofRules closed ['b']).trans (by decide)
  · exact (recognize_ofRules closed []).trans (by decide)

end ParserGenerator.JointNfa
