import Mathlib.Data.List.Forall2
import ParserGenerator.JointNfa
import ParserGenerator.Proofs.Nfa.Construction

/-!
# The rules of a joint automaton

Each rule's automaton is copied to states of its own, behind a silent edge from the common initial
state. No edge leads from the copy back to older states, and only the silent edge leads into it, so
that the copy accepts what the rule accepts, even where edges enter the rule's initial state or
leave its final state. Older rules are not touched.

Results: `JointNfa.Joins.addRule`, that the rules are joined one after the other, and
`JointNfa.Joins.accepted_eq`, that a set of states reached by a text accepts the first rule that
accepts the text.
-/

namespace ParserGenerator.JointNfa

variable {joint : JointNfa} {rules : List (Symbol × Nfa)}

/-! ## Definitions -/

/-- The joint automaton of rules in their order. -/
def ofRules (rules : List (Symbol × Nfa)) : JointNfa :=
  rules.foldl (fun joint (symbol, rule) => joint.addRule symbol rule) empty

/-- The state accepts the rule's symbol and is reached by the texts that the rule accepts. -/
structure StandsFor (nfa : Nfa) (accepting : Nat × Symbol) (rule : Symbol × Nfa) : Prop where
  state_lt : accepting.1 < nfa.size
  symbol_eq : accepting.2 = rule.1
  path_iff : ∀ text, nfa.Path Nfa.initial text accepting.1 ↔ rule.2.accepts text = true

/-- The automata of the rules are joined in the order of the rules. -/
structure Joins (joint : JointNfa) (rules : List (Symbol × Nfa)) : Prop where
  closed : joint.nfa.Closed
  initial_lt : Nfa.initial < joint.nfa.size
  not_entered : ∀ source edge, edge ∈ joint.nfa.edges source → edge.target ≠ Nfa.initial
  accepting : List.Forall₂ (StandsFor joint.nfa) joint.accepting rules

/-- The automaton behind adding a rule. -/
def joined (nfa rule : Nfa) : Nfa :=
  (nfa.addState.2.addState.2.embed rule nfa.size (nfa.size + 1)).addEdge Nfa.initial .epsilon
    nfa.size

/-! ## The copy of a rule -/

theorem addRule_eq (joint : JointNfa) (symbol : Symbol) (rule : Nfa) :
    joint.addRule symbol rule =
      ⟨joined joint.nfa rule, joint.accepting ++ [(joint.nfa.size + 1, symbol)]⟩ := by
  have second : joint.nfa.addState.2.addState.1 = joint.nfa.size + 1 := Nfa.size_addState joint.nfa
  unfold joined
  rw [← second]
  rfl

theorem image_fresh (nfa : Nfa) (state : Nat) :
    nfa.addState.2.addState.2.image nfa.size (nfa.size + 1) state = nfa.size + state := by
  match state with
  | 0 => rfl
  | 1 => rfl
  | inner + 2 =>
      show nfa.addState.2.addState.2.size + inner = _
      rw [Nfa.size_addState, Nfa.size_addState]
      omega

variable {nfa rule : Nfa}

theorem size_joined : (joined nfa rule).size = nfa.size + 2 + (rule.size - 2) := by
  rw [joined, Nfa.size_addEdge, Nfa.size_embed] <;> rw [Nfa.size_addState, Nfa.size_addState]
  · omega
  · exact Nat.lt_succ_self _

theorem mem_edges_joined (initialBound : Nfa.initial < nfa.size) {state : Nat} {edge : Edge} :
    edge ∈ (joined nfa rule).edges state ↔
      (edge ∈ nfa.edges state ∨ ∃ source inner, inner ∈ rule.edges source ∧
        state = nfa.size + source ∧ edge = ⟨inner.label, nfa.size + inner.target⟩) ∨
      state = Nfa.initial ∧ edge = ⟨.epsilon, nfa.size⟩ := by
  have size : nfa.addState.2.addState.2.size = nfa.size + 2 := by
    rw [Nfa.size_addState, Nfa.size_addState]
  rw [joined, Nfa.mem_edges_addEdge, Nfa.mem_edges_embed (by omega) (by omega)]
  · simp only [image_fresh, Nfa.copy, Nfa.edges_addState]
  · rw [Nfa.size_embed (by omega) (by omega)]
    omega

/-- An edge of the joined automaton is an old one, a copied one, or the one into the copy. -/
theorem edge_joined (initialBound : Nfa.initial < nfa.size) {label : Label} {first second : Nat}
    (edge : ⟨label, second⟩ ∈ (joined nfa rule).edges first) :
    ⟨label, second⟩ ∈ nfa.edges first ∨
      (∃ source target, ⟨label, target⟩ ∈ rule.edges source ∧ first = nfa.size + source ∧
        second = nfa.size + target) ∨
      first = Nfa.initial ∧ label = .epsilon ∧ second = nfa.size := by
  rcases (mem_edges_joined initialBound).1 edge with (old | ⟨source, inner, copied, rfl, equal⟩) |
    ⟨rfl, equal⟩
  · exact .inl old
  · cases equal
    exact .inr (.inl ⟨source, inner.target, copied, rfl, rfl⟩)
  · cases equal
    exact .inr (.inr ⟨rfl, rfl, rfl⟩)

theorem path_joined_of_path (initialBound : Nfa.initial < nfa.size) {first last : Nat}
    {text : List Char} (path : nfa.Path first text last) :
    (joined nfa rule).Path first text last := by
  induction path with
  | here => exact .here _
  | silent edge _ ih => exact .silent ((mem_edges_joined initialBound).2 (.inl (.inl edge))) ih
  | read edge _ ih => exact .read ((mem_edges_joined initialBound).2 (.inl (.inl edge))) ih

/-- A path to an old state stays among the old states and edges. -/
theorem path_of_path_joined (initialBound : Nfa.initial < nfa.size) {first last : Nat}
    {text : List Char} (path : (joined nfa rule).Path first text last) (old : last < nfa.size) :
    first < nfa.size ∧ nfa.Path first text last := by
  have back {label : Label} {first second : Nat}
      (edge : ⟨label, second⟩ ∈ (joined nfa rule).edges first) (below : second < nfa.size) :
      ⟨label, second⟩ ∈ nfa.edges first := by
    rcases edge_joined initialBound edge with old | ⟨_, _, _, _, rfl⟩ | ⟨_, _, rfl⟩
    · exact old
    · omega
    · omega
  induction path with
  | here => exact ⟨old, .here _⟩
  | silent edge _ ih =>
      obtain ⟨below, later⟩ := ih old
      have inside := back edge below
      exact ⟨Nfa.lt_size_of_mem_edges inside, .silent inside later⟩
  | read edge _ ih =>
      obtain ⟨below, later⟩ := ih old
      have inside := back edge below
      exact ⟨Nfa.lt_size_of_mem_edges inside, .read inside later⟩

theorem path_copied (initialBound : Nfa.initial < nfa.size) {first last : Nat} {text : List Char}
    (path : rule.Path first text last) :
    (joined nfa rule).Path (nfa.size + first) text (nfa.size + last) := by
  induction path with
  | here => exact .here _
  | silent edge _ ih =>
      exact .silent ((mem_edges_joined initialBound).2 (.inl (.inr ⟨_, _, edge, rfl, rfl⟩))) ih
  | read edge _ ih =>
      exact .read ((mem_edges_joined initialBound).2 (.inl (.inr ⟨_, _, edge, rfl, rfl⟩))) ih

/-- A path to a state of the copy starts in the copy or, by the edge into it, at the initial
state; no other old state leads there. -/
theorem path_rule_of_path_joined (closed : nfa.Closed) (initialBound : Nfa.initial < nfa.size)
    (notEntered : ∀ source edge, edge ∈ nfa.edges source → edge.target ≠ Nfa.initial)
    {first last stop : Nat} {text : List Char} (path : (joined nfa rule).Path first text last)
    (isCopy : last = nfa.size + stop) :
    (∃ source, first = nfa.size + source ∧ rule.Path source text stop) ∨
      first = Nfa.initial ∧ rule.Path Nfa.initial text stop := by
  -- An old edge leads to an old state that is not the initial one, from where nothing is reached.
  have noWay {label : Label} {first second : Nat} {rest : List Char}
      (edge : ⟨label, second⟩ ∈ nfa.edges first)
      (later : (∃ source, second = nfa.size + source ∧ rule.Path source rest stop) ∨
        second = Nfa.initial ∧ rule.Path Nfa.initial rest stop) : False := by
    rcases later with ⟨source, rfl, _⟩ | ⟨rfl, _⟩
    · have := closed _ _ edge
      dsimp only at this
      omega
    · exact notEntered _ _ edge rfl
  induction path with
  | here => exact .inl ⟨stop, isCopy, .here _⟩
  | silent edge _ ih =>
      rcases edge_joined initialBound edge with old | ⟨source, target, copied, rfl, rfl⟩ |
        ⟨rfl, _, rfl⟩
      · exact (noWay old (ih isCopy)).elim
      · rcases ih isCopy with ⟨other, same, later⟩ | ⟨isInitial, _⟩
        · cases Nat.add_left_cancel same
          exact .inl ⟨source, rfl, .silent copied later⟩
        · omega
      · rcases ih isCopy with ⟨other, same, later⟩ | ⟨isInitial, _⟩
        · cases Nat.left_eq_add.1 same
          exact .inr ⟨rfl, later⟩
        · omega
  | read edge _ ih =>
      rcases edge_joined initialBound edge with old | ⟨source, target, copied, rfl, rfl⟩ |
        ⟨_, isEpsilon, _⟩
      · exact (noWay old (ih isCopy)).elim
      · rcases ih isCopy with ⟨other, same, later⟩ | ⟨isInitial, _⟩
        · cases Nat.add_left_cancel same
          exact .inl ⟨source, rfl, .read copied later⟩
        · omega
      · cases isEpsilon

/-! ## Adding rules -/

theorem joins_empty : Joins empty [] where
  closed := Nfa.closed_empty
  initial_lt := by decide
  not_entered := Nfa.Embeddable.empty.not_entered
  accepting := .nil

theorem closed_joined (closed : nfa.Closed) (initialBound : Nfa.initial < nfa.size)
    (ruleClosed : rule.Closed) : (joined nfa rule).Closed := by
  have size : nfa.addState.2.addState.2.size = nfa.size + 2 := by
    rw [Nfa.size_addState, Nfa.size_addState]
  have size' : (nfa.addState.2.addState.2.embed rule nfa.size (nfa.size + 1)).size = _ :=
    Nfa.size_embed (by omega) (by omega)
  exact (closed.addState.addState.embed ruleClosed (by omega) (by omega)).addEdge .epsilon
    (by omega) (by omega)

theorem not_entered_joined (initialBound : Nfa.initial < nfa.size)
    (notEntered : ∀ source edge, edge ∈ nfa.edges source → edge.target ≠ Nfa.initial) :
    ∀ source edge, edge ∈ (joined nfa rule).edges source → edge.target ≠ Nfa.initial := by
  rintro source ⟨label, target⟩ edge
  rcases edge_joined initialBound edge with old | ⟨_, _, _, _, rfl⟩ | ⟨_, _, rfl⟩
  · exact notEntered source _ old
  · exact Nat.ne_of_gt (Nat.lt_add_right _ initialBound)
  · exact Nat.ne_of_gt initialBound

/-- A state of an older rule is reached as before. -/
theorem StandsFor.joined {accepting : Nat × Symbol} {older : Symbol × Nfa}
    (stands : StandsFor nfa accepting older) (initialBound : Nfa.initial < nfa.size) (rule : Nfa) :
    StandsFor (joined nfa rule) accepting older where
  state_lt := by
    rw [size_joined, Nat.add_assoc]
    exact Nat.lt_add_right _ stands.state_lt
  symbol_eq := stands.symbol_eq
  path_iff text := by
    rw [← stands.path_iff text]
    exact ⟨fun path => (path_of_path_joined initialBound path stands.state_lt).2,
      path_joined_of_path initialBound⟩

/-- The copy of the final state stands for the rule. -/
theorem standsFor_copy (closed : nfa.Closed) (initialBound : Nfa.initial < nfa.size)
    (notEntered : ∀ source edge, edge ∈ nfa.edges source → edge.target ≠ Nfa.initial)
    (symbol : Symbol) (rule : Nfa) :
    StandsFor (joined nfa rule) (nfa.size + Nfa.final, symbol) (symbol, rule) where
  state_lt := by
    rw [size_joined]
    exact Nat.lt_add_right _ (Nat.lt_succ_self _)
  symbol_eq := rfl
  path_iff text := by
    rw [Nfa.accepts_iff]
    constructor
    · intro path
      rcases path_rule_of_path_joined closed initialBound notEntered path rfl with
        ⟨source, same, _⟩ | ⟨_, later⟩
      · exact absurd same (Nat.ne_of_lt (Nat.lt_add_right _ initialBound))
      · exact later
    · intro path
      exact .silent ((mem_edges_joined initialBound).2 (.inr ⟨rfl, rfl⟩))
        (path_copied initialBound path)

/-- The automata of the rules stay joined when one more is added behind them. -/
theorem Joins.addRule (joins : Joins joint rules) (symbol : Symbol) {rule : Nfa}
    (closed : rule.Closed) : Joins (joint.addRule symbol rule) (rules ++ [(symbol, rule)]) := by
  rw [addRule_eq]
  refine ⟨closed_joined joins.closed joins.initial_lt closed, ?_,
    not_entered_joined joins.initial_lt joins.not_entered, ?_⟩
  · dsimp only
    rw [size_joined, Nat.add_assoc]
    exact Nat.lt_add_right _ joins.initial_lt
  · refine List.rel_append (joins.accepting.imp fun _ _ stands => ?_) (.cons ?_ .nil)
    · exact stands.joined joins.initial_lt rule
    · exact standsFor_copy joins.closed joins.initial_lt joins.not_entered symbol rule

theorem joins_ofRules (closed : ∀ rule ∈ rules, rule.2.Closed) : Joins (ofRules rules) rules := by
  suffices general : ∀ (joint : JointNfa) (before : List (Symbol × Nfa)), Joins joint before →
      Joins (rules.foldl (fun joint (symbol, rule) => joint.addRule symbol rule) joint)
        (before ++ rules) from general empty [] joins_empty
  induction rules with
  | nil =>
      intro joint before joins
      rw [List.append_nil]
      exact joins
  | cons rule rest ih =>
      intro joint before joins
      obtain ⟨first, later⟩ := List.forall_mem_cons.1 closed
      have step := ih later _ _ (joins.addRule rule.1 first)
      rwa [List.append_assoc] at step

/-! ## What a set of states accepts -/

theorem find?_of_forall₂ {α β γ : Type} {relates : α → β → Prop} {left : List α} {right : List β}
    (related : List.Forall₂ relates left right) {keepLeft : α → Bool} {keepRight : β → Bool}
    {valueLeft : α → γ} {valueRight : β → γ}
    (same : ∀ a b, relates a b → keepLeft a = keepRight b ∧ valueLeft a = valueRight b) :
    (left.find? keepLeft).map valueLeft = (right.find? keepRight).map valueRight := by
  induction related with
  | nil => rfl
  | @cons a b left right first _ ih =>
      obtain ⟨keeps, values⟩ := same a b first
      rw [List.find?_cons, List.find?_cons, keeps]
      split
      · rw [Option.map_some, Option.map_some, values]
      · exact ih

/-- The states that a text leads to accept the symbol of the first rule that accepts the text. -/
theorem Joins.accepted_eq (joins : Joins joint rules) (text : List Char) :
    joint.accepted (joint.nfa.run (joint.nfa.closure [Nfa.initial]) text) =
      (rules.find? fun rule => rule.2.accepts text).map (·.1) := by
  refine find?_of_forall₂ joins.accepting fun accepting rule stands => ⟨?_, stands.symbol_eq⟩
  rw [Bool.eq_iff_iff, OrderedSet.contains_iff, Nfa.mem_run, ← stands.path_iff]
  simp only [List.mem_singleton, exists_eq_left]

end ParserGenerator.JointNfa
