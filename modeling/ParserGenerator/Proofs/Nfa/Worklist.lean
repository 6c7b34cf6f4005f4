import Mathlib.Logic.Relation
import ParserGenerator.Proofs.Nfa.Construction

/-!
# The worklist of a closure

A closure is found with a stack of states that wait: the latest one is taken off, and if it was not
visited yet, its silent targets that were not visited either are put on the stack in their order. No
bound on the number of turns is in sight, and the same state may wait many times; silent edges may
lead around in circles. Yet each turn takes one entry off the stack, and each entry that is put on
it is paid for by an edge that leaves a state visited for the first time.

Results:
1. `Nfa.exists_empties`: the stack runs empty.
2. `Nfa.empties_iff`: what was visited then is the closure.
3. `Nfa.Closed.closure?_reaches`: where edges lead to states, the closure of states has an answer,
   the states that silent edges lead to in ascending order.
-/

namespace ParserGenerator.Nfa

variable {nfa : Nfa} {visited last : OrderedSet Nat} {stack : List Nat} {state : Nat}

/-! ## Definitions -/

/-- What a state that was just visited puts on top of the stack. -/
def pushed (nfa : Nfa) (visited : OrderedSet Nat) (state : Nat) : List Nat :=
  ((nfa.silentTargets state).filter fun target => !visited.contains target).reverse

/-- The stack, with its top in front, runs empty, and `last` was visited by then. -/
inductive Empties (nfa : Nfa) : OrderedSet Nat → (stack : List Nat) → (last : OrderedSet Nat) → Prop
  | done {visited : OrderedSet Nat} : Empties nfa visited [] visited
  | skip {visited last : OrderedSet Nat} {state : Nat} {stack : List Nat} (known : state ∈ visited)
      (later : Empties nfa visited stack last) : Empties nfa visited (state :: stack) last
  | visit {visited last : OrderedSet Nat} {state : Nat} {stack : List Nat}
      (fresh : state ∉ visited)
      (later : Empties nfa (visited.insert state)
        (nfa.pushed (visited.insert state) state ++ stack) last) :
      Empties nfa visited (state :: stack) last

/-! ## Turns -/

theorem mem_pushed {target : Nat} :
    target ∈ nfa.pushed visited state ↔ target ∈ nfa.silentTargets state ∧ target ∉ visited := by
  rw [pushed, List.mem_reverse, List.mem_filter, Bool.not_eq_true', ← Bool.not_eq_true,
    OrderedSet.contains_iff]

theorem length_pushed_le (nfa : Nfa) (visited : OrderedSet Nat) (state : Nat) :
    (nfa.pushed visited state).length ≤ (nfa.edges state).length := by
  rw [pushed, List.length_reverse]
  exact Nat.le_trans (List.length_filter_le _ _) (nfa.length_silentTargets_le state)

/-- Every turn leaves less to do: an entry is gone, and the edges out of a visited state pay for
those that join it. -/
theorem exists_empties (nfa : Nfa) (visited : OrderedSet Nat) (stack : List Nat) :
    ∃ last, nfa.Empties visited stack last := by
  generalize amount : stack.length + nfa.openTransitions visited = work
  induction work using Nat.strongRecOn generalizing visited stack with
  | ind work ih =>
      cases stack with
      | nil => exact ⟨visited, .done⟩
      | cons state stack =>
          rw [List.length_cons] at amount
          by_cases known : state ∈ visited
          · obtain ⟨last, later⟩ := ih _ (by omega) visited stack rfl
            exact ⟨last, .skip known later⟩
          · have paid := nfa.openTransitions_insert known
            have joined := nfa.length_pushed_le (visited.insert state) state
            have less : (nfa.pushed (visited.insert state) state ++ stack).length +
                nfa.openTransitions (visited.insert state) < work := by
              rw [List.length_append]
              omega
            obtain ⟨last, later⟩ := ih _ less _ _ rfl
            exact ⟨last, .visit known later⟩

/-! ## What was visited -/

/-- What waits may leave out states that were visited. -/
theorem Followed.of_pushed
    (followed : nfa.Followed visited (nfa.silentTargets state ++ stack)) :
    nfa.Followed visited (nfa.pushed visited state ++ stack) := by
  intro other member target isTarget
  by_cases known : target ∈ visited
  · exact .inl known
  · refine .inr (List.mem_append.2 ?_)
    have waits := (followed other member target isTarget).resolve_left known
    exact (List.mem_append.1 waits).imp_left fun waits => mem_pushed.2 ⟨waits, known⟩

theorem found_pushed (followed : nfa.Followed visited (nfa.pushed visited state ++ stack))
    {reached : Nat} :
    nfa.Found visited (nfa.pushed visited state ++ stack) reached ↔
      nfa.Found visited (nfa.silentTargets state ++ stack) reached := by
  constructor
  · rintro (done | ⟨other, waits, path⟩)
    · exact .inl done
    · refine .inr ⟨other, List.mem_append.2 ?_, path⟩
      exact (List.mem_append.1 waits).imp_left fun waits => (mem_pushed.1 waits).1
  · rintro (done | ⟨other, waits, path⟩)
    · exact .inl done
    · by_cases known : other ∈ visited
      · exact followed.found path rfl known
      · refine .inr ⟨other, List.mem_append.2 ?_, path⟩
        exact (List.mem_append.1 waits).imp_left fun waits => mem_pushed.2 ⟨waits, known⟩

theorem Empties.mem_iff (empties : nfa.Empties visited stack last)
    (followed : nfa.Followed visited stack) {reached : Nat} :
    reached ∈ last ↔ nfa.Found visited stack reached := by
  induction empties with
  | done => exact found_nil.symm
  | skip known _ ih =>
      have skipped := followed.skip known
      exact (ih skipped).trans (found_skip skipped known)
  | visit _ _ ih =>
      have expanded := followed.expand.of_pushed
      exact (ih expanded).trans ((found_pushed expanded).trans found_expand)

/-- The worklist that starts with some states, the last one on top, runs empty, and what was visited
is the closure of the states. -/
theorem empties_iff {states : List Nat} :
    nfa.Empties ∅ states.reverse last ↔ last = nfa.closure states := by
  have isClosure : ∀ {other}, nfa.Empties ∅ states.reverse other → other = nfa.closure states := by
    intro other empties
    refine OrderedSet.ext_mem fun reached => ?_
    rw [empties.mem_iff fun _ member => absurd member OrderedSet.not_mem_empty, mem_closure, Found,
      or_iff_right OrderedSet.not_mem_empty]
    simp only [List.mem_reverse]
  refine ⟨isClosure, fun same => ?_⟩
  obtain ⟨other, empties⟩ := nfa.exists_empties ∅ states.reverse
  rw [same, ← isClosure empties]
  exact empties

/-! ## Reachable states -/

/-- A silent edge leads from one state to the other. -/
def Silent (nfa : Nfa) (source target : Nat) : Prop := ⟨.epsilon, target⟩ ∈ nfa.edges source

/-- Paths that read nothing are sequences of silent edges, of any length. -/
theorem path_nil_iff_reaches {first last : Nat} :
    nfa.Path first [] last ↔ Relation.ReflTransGen nfa.Silent first last := by
  constructor
  · intro path
    generalize isText : [] = text at path
    induction path with
    | here => exact .refl
    | silent edge _ ih => exact .head edge (ih isText)
    | read => cases isText
  · intro reaches
    induction reaches using Relation.ReflTransGen.head_induction_on with
    | refl => exact .here _
    | head edge _ ih => exact .silent edge ih

/-- For an automaton whose edges lead to states, and a list of states: no missing state is met, and
the worklist runs empty in one way. What was visited are the states that zero or more silent edges
lead to from a state of the list, listed in ascending order. -/
theorem Closed.closure?_reaches (closed : nfa.Closed) {states : List Nat}
    (exist : ∀ state ∈ states, state < nfa.size) :
    ∃ reached, nfa.closure? states = some reached ∧
      (∀ last, nfa.Empties ∅ states.reverse last ↔ last = reached) ∧
      reached.toList.Pairwise (· < ·) ∧
      ∀ state, state ∈ reached.toList ↔
        ∃ first ∈ states, Relation.ReflTransGen nfa.Silent first state := by
  refine ⟨nfa.closure states, closed.closure?_eq exist, fun last => empties_iff,
    (nfa.closure states).ascending, fun state => ?_⟩
  rw [← OrderedSet.mem_def, mem_closure]
  simp only [path_nil_iff_reaches]

/-- Silent edges lead around from state 0 to 2, 3 and back, and from 0 and 4 to themselves. -/
def silentRing : Nfa := ⟨[[⟨.epsilon, 2⟩, ⟨.epsilon, 0⟩], [], [⟨.epsilon, 3⟩, ⟨.char 'a', 4⟩],
  [⟨.epsilon, 2⟩, ⟨.epsilon, 0⟩, ⟨.char 'b', 1⟩], [⟨.epsilon, 4⟩]]⟩

/-- State 2 is given twice, and waits again when 0 and 3 are visited. -/
theorem closure?_reaches_silentRing :
    silentRing.Closed ∧ (∀ state ∈ [2, 0, 2], state < silentRing.size) ∧
    (∃ reached, silentRing.closure? [2, 0, 2] = some reached ∧
      (∀ last, silentRing.Empties ∅ [2, 0, 2].reverse last ↔ last = reached) ∧
      reached.toList.Pairwise (· < ·) ∧
      ∀ state, state ∈ reached.toList ↔
        ∃ first ∈ [2, 0, 2], Relation.ReflTransGen silentRing.Silent first state) ∧
    (silentRing.closure? [2, 0, 2]).map OrderedSet.toList = some [0, 2, 3] := by
  have closed : silentRing.Closed := by decide
  have exist : ∀ state ∈ [2, 0, 2], state < silentRing.size := by decide
  exact ⟨closed, exist, closed.closure?_reaches exist, by decide⟩

end ParserGenerator.Nfa
