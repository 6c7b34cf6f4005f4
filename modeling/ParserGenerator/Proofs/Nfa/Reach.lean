import ParserGenerator.Nfa.Path

/-!
# What closures and runs reach

The closure of some states is computed with a stack and a bound on the number of visits. What it
holds is what paths of silent edges lead to, and what a run over a text holds is what paths reading
the text lead to. So an automaton accepts a text exactly when a path from the initial state to
the final state reads it.

Results:
1. `Nfa.mem_closure`: the closure of some states, epsilon cycles included.
2. `Nfa.mem_run`, `Nfa.accepts_iff`: runs over a text.
3. `Nfa.accepts?_of_closed`: where all edges lead to states, no missing state is met.
-/

namespace ParserGenerator.Nfa

variable {nfa : Nfa}

/-! ## Edges and transitions -/

theorem mem_silentTargets {state target : Nat} :
    target ∈ nfa.silentTargets state ↔ ⟨.epsilon, target⟩ ∈ nfa.edges state := by
  simp only [silentTargets, List.mem_filterMap]
  constructor
  · rintro ⟨⟨label, other⟩, member, kept⟩
    split at kept
    · rename_i silent
      cases silent
      cases kept
      exact member
    · cases kept
  · exact fun member => ⟨_, member, if_pos rfl⟩

theorem mem_move {states : OrderedSet Nat} {c : Char} {target : Nat} :
    target ∈ nfa.move states c ↔ ∃ state ∈ states, ⟨.char c, target⟩ ∈ nfa.edges state := by
  simp only [move, List.mem_flatMap, List.mem_filterMap]
  refine exists_congr fun state => and_congr_right fun _ => ⟨?_, fun member => ?_⟩
  · rintro ⟨⟨label, other⟩, member, kept⟩
    split at kept
    · rename_i reads
      cases reads
      cases kept
      exact member
    · cases kept
  · exact ⟨_, member, if_pos rfl⟩

theorem mem_transitions {state : Nat} {edge : Edge} :
    (state, edge) ∈ nfa.transitions ↔ edge ∈ nfa.edges state := by
  simp only [transitions, List.mem_flatMap, List.mem_map, Prod.exists, List.mem_zipIdx_iff_getElem?,
    Prod.mk.injEq, edges]
  constructor
  · rintro ⟨row, source, found, other, member, rfl, rfl⟩
    rw [found]
    exact member
  · intro member
    cases found : nfa.rows[state]? with
    | none =>
        rw [found] at member
        cases member
    | some row =>
        rw [found] at member
        exact ⟨row, state, found, edge, member, rfl, rfl⟩

theorem countP_rows (rows : List (List Edge)) (first state : Nat) :
    ((rows.zipIdx first).flatMap fun (row, source) =>
        row.map fun edge => (source, edge)).countP (·.1 == state) =
      if first ≤ state then (rows[state - first]?.getD []).length else 0 := by
  induction rows generalizing first with
  | nil => simp
  | cons row rows ih =>
      rw [List.zipIdx_cons, List.flatMap_cons, List.countP_append, ih, List.countP_map]
      by_cases same : first = state
      · subst same
        rw [if_neg (Nat.not_succ_le_self first), if_pos (Nat.le_refl first), Nat.sub_self]
        simp [Function.comp_def]
      · have others : row.countP ((fun transition : Nat × Edge => transition.1 == state) ∘
            fun edge => (first, edge)) = 0 := by
          simp [List.countP_eq_zero, same]
        rw [others, Nat.zero_add]
        by_cases below : first ≤ state
        · have step : state - first = state - (first + 1) + 1 := by omega
          rw [if_pos (by omega), if_pos below, step, List.getElem?_cons_succ]
        · rw [if_neg (by omega), if_neg below]

/-- The edges that are listed under a state are the state's edges. -/
theorem countP_transitions (nfa : Nfa) (state : Nat) :
    nfa.transitions.countP (·.1 == state) = (nfa.edges state).length := by
  rw [transitions, countP_rows, if_pos (Nat.zero_le _)]
  rfl

/-! ## Closures -/

/-- The transitions out of states that were not visited yet. Each of them may still put a state on
the stack. -/
def openTransitions (nfa : Nfa) (visited : OrderedSet Nat) : Nat :=
  nfa.transitions.countP fun transition => !visited.contains transition.1

theorem openTransitions_insert {visited : OrderedSet Nat} {state : Nat}
    (fresh : state ∉ visited) :
    nfa.openTransitions (visited.insert state) + (nfa.edges state).length =
      nfa.openTransitions visited := by
  rw [← countP_transitions, openTransitions, openTransitions]
  have unknown : visited.contains state = false := by
    rw [Bool.eq_false_iff]
    exact fun known => fresh (OrderedSet.contains_iff.1 known)
  induction nfa.transitions with
  | nil => rfl
  | cons transition rest ih =>
      obtain ⟨source, edge⟩ := transition
      simp only [List.countP_cons]
      by_cases same : source = state
      · subst same
        have known : (visited.insert source).contains source = true :=
          OrderedSet.contains_iff.2 (OrderedSet.mem_insert.2 (.inl rfl))
        simp only [known, unknown, beq_self_eq_true, Bool.not_true, Bool.not_false,
          Bool.false_eq_true, if_false, if_true]
        omega
      · have kept : (visited.insert state).contains source = visited.contains source := by
          rw [Bool.eq_iff_iff, OrderedSet.contains_iff, OrderedSet.contains_iff,
            OrderedSet.mem_insert, or_iff_right same]
        simp only [kept, beq_eq_false_iff_ne.2 same, Bool.false_eq_true, if_false]
        omega

theorem length_silentTargets_le (nfa : Nfa) (state : Nat) :
    (nfa.silentTargets state).length ≤ (nfa.edges state).length := List.length_filterMap_le _ _

/-- A path of silent edges is no edge at all or begins with one. -/
theorem path_nil_iff {first last : Nat} :
    nfa.Path first [] last ↔
      last = first ∨ ∃ second ∈ nfa.silentTargets first, nfa.Path second [] last := by
  constructor
  · intro path
    cases path with
    | here => exact .inl rfl
    | silent edge later => exact .inr ⟨_, mem_silentTargets.2 edge, later⟩
  · rintro (rfl | ⟨second, target, later⟩)
    · exact .here _
    · exact .silent (mem_silentTargets.1 target) later

/-- What visited states lead to by an edge was visited or waits on the stack. -/
def Followed (nfa : Nfa) (visited : OrderedSet Nat) (stack : List Nat) : Prop :=
  ∀ state ∈ visited, ∀ target ∈ nfa.silentTargets state, target ∈ visited ∨ target ∈ stack

/-- The state was visited, or silent edges lead to it from what waits. -/
def Found (nfa : Nfa) (visited : OrderedSet Nat) (stack : List Nat) (last : Nat) : Prop :=
  last ∈ visited ∨ ∃ state ∈ stack, nfa.Path state [] last

section Visits

variable {visited : OrderedSet Nat} {stack : List Nat} {state last : Nat}

/-- What silent edges lead to from visited states is found. -/
theorem Followed.found (followed : nfa.Followed visited stack) {first : Nat} {text : List Char}
    (path : nfa.Path first text last) (silent : text = []) (known : first ∈ visited) :
    nfa.Found visited stack last := by
  induction path with
  | here => exact .inl known
  | silent edge later ih =>
      rcases followed _ known _ (mem_silentTargets.2 edge) with done | waits
      · exact ih silent done
      · exact .inr ⟨_, waits, silent ▸ later⟩
  | read => cases silent

/-- A state that was visited need not wait. -/
theorem Followed.skip (followed : nfa.Followed visited (state :: stack)) (known : state ∈ visited) :
    nfa.Followed visited stack := by
  intro other member target isTarget
  rcases followed other member target isTarget with done | waits
  · exact .inl done
  rcases List.mem_cons.1 waits with rfl | later
  · exact .inl known
  · exact .inr later

/-- A state is visited when its targets wait. -/
theorem Followed.expand (followed : nfa.Followed visited (state :: stack)) :
    nfa.Followed (visited.insert state) (nfa.silentTargets state ++ stack) := by
  intro other member target isTarget
  rcases OrderedSet.mem_insert.1 member with rfl | old
  · exact .inr (List.mem_append_left _ isTarget)
  rcases followed other old target isTarget with done | waits
  · exact .inl (OrderedSet.mem_insert.2 (.inr done))
  rcases List.mem_cons.1 waits with rfl | later
  · exact .inl (OrderedSet.mem_insert.2 (.inl rfl))
  · exact .inr (List.mem_append_right _ later)

theorem found_nil : nfa.Found visited [] last ↔ last ∈ visited :=
  or_iff_left fun ⟨_, member, _⟩ => List.not_mem_nil member

theorem found_skip (followed : nfa.Followed visited stack) (known : state ∈ visited) :
    nfa.Found visited stack last ↔ nfa.Found visited (state :: stack) last := by
  constructor
  · rintro (done | ⟨other, waits, path⟩)
    · exact .inl done
    · exact .inr ⟨other, List.mem_cons_of_mem _ waits, path⟩
  · rintro (done | ⟨other, waits, path⟩)
    · exact .inl done
    rcases List.mem_cons.1 waits with rfl | later
    · exact followed.found path rfl known
    · exact .inr ⟨other, later, path⟩

theorem found_expand : nfa.Found (visited.insert state) (nfa.silentTargets state ++ stack) last ↔
    nfa.Found visited (state :: stack) last := by
  unfold Found
  simp only [OrderedSet.mem_insert, List.mem_append, List.mem_cons]
  constructor
  · rintro ((rfl | done) | ⟨other, target | waits, path⟩)
    · exact .inr ⟨_, .inl rfl, .here _⟩
    · exact .inl done
    · exact .inr ⟨state, .inl rfl, path_nil_iff.2 (.inr ⟨other, target, path⟩)⟩
    · exact .inr ⟨other, .inr waits, path⟩
  · rintro (done | ⟨other, rfl | waits, path⟩)
    · exact .inl (.inr done)
    · rcases path_nil_iff.1 path with rfl | ⟨second, target, later⟩
      · exact .inl (.inl rfl)
      · exact .inr ⟨second, .inl target, later⟩
    · exact .inr ⟨other, .inr waits, path⟩

/-- The visits end when the stack is empty, and then all that silent edges lead to was visited. -/
theorem mem_visit {fuel : Nat} (enough : stack.length + nfa.openTransitions visited ≤ fuel)
    (followed : nfa.Followed visited stack) :
    last ∈ nfa.visit fuel visited stack ↔ nfa.Found visited stack last := by
  induction fuel generalizing visited stack with
  | zero =>
      have done : stack = [] := List.length_eq_zero_iff.1 (by omega)
      rw [visit, done, found_nil]
  | succ fuel ih =>
      cases stack with
      | nil => rw [visit, found_nil]
      | cons state stack =>
          rw [List.length_cons] at enough
          rw [visit]
          split
          · rename_i known
            have inVisited := OrderedSet.contains_iff.1 known
            have skipped := followed.skip inVisited
            rw [ih (by omega) skipped, found_skip skipped inVisited]
          · rename_i unknown
            have fresh : state ∉ visited := fun member =>
              unknown (OrderedSet.contains_iff.2 member)
            -- The transitions out of the state pay for the targets that are pushed.
            have paid := nfa.openTransitions_insert fresh
            have pushed := nfa.length_silentTargets_le state
            rw [ih (by rw [List.length_append]; omega) followed.expand, found_expand]

end Visits

/-- The closure holds what silent edges lead to. -/
theorem mem_closure {states : List Nat} {last : Nat} :
    last ∈ nfa.closure states ↔ ∃ state ∈ states, nfa.Path state [] last := by
  have all : nfa.openTransitions ∅ = nfa.transitions.length :=
    List.countP_eq_length.2 fun _ _ => rfl
  rw [closure, mem_visit (Nat.le_of_eq (by rw [all]))]
  · exact or_iff_right OrderedSet.not_mem_empty
  · exact fun _ member => absurd member OrderedSet.not_mem_empty

theorem closure_nil (nfa : Nfa) : nfa.closure [] = ∅ := by
  refine OrderedSet.ext_mem fun state => ?_
  rw [mem_closure]
  exact ⟨fun ⟨_, member, _⟩ => absurd member List.not_mem_nil,
    fun member => absurd member OrderedSet.not_mem_empty⟩

/-! ## Runs -/

/-- A path reads its first character on an edge behind silent ones. -/
theorem path_cons_iff {first last : Nat} {c : Char} {rest : List Char} :
    nfa.Path first (c :: rest) last ↔ ∃ before, nfa.Path first [] before ∧
      ∃ behind, ⟨.char c, behind⟩ ∈ nfa.edges before ∧ nfa.Path behind rest last := by
  constructor
  · intro path
    generalize isText : c :: rest = text at path
    induction path with
    | here => cases isText
    | silent edge _ ih =>
        obtain ⟨before, silent, found⟩ := ih isText
        exact ⟨before, .silent edge silent, found⟩
    | read edge later =>
        cases isText
        exact ⟨_, .here _, _, edge, later⟩
  · rintro ⟨before, silent, behind, edge, later⟩
    exact silent.append (.read edge later)

/-- What is reached by reading a text from the closure of some states. -/
theorem mem_run {states : List Nat} {text : List Char} {last : Nat} :
    last ∈ nfa.run (nfa.closure states) text ↔ ∃ state ∈ states, nfa.Path state text last := by
  induction text generalizing states with
  | nil => exact mem_closure
  | cons c rest ih =>
      have step : nfa.run (nfa.closure states) (c :: rest) =
          nfa.run (nfa.closure (nfa.move (nfa.closure states) c)) rest := rfl
      rw [step, ih]
      constructor
      · rintro ⟨behind, moved, later⟩
        obtain ⟨before, reached, edge⟩ := mem_move.1 moved
        obtain ⟨state, member, silent⟩ := mem_closure.1 reached
        exact ⟨state, member, path_cons_iff.2 ⟨before, silent, behind, edge, later⟩⟩
      · rintro ⟨state, member, path⟩
        obtain ⟨before, silent, behind, edge, later⟩ := path_cons_iff.1 path
        exact ⟨behind, mem_move.2 ⟨before, mem_closure.2 ⟨state, member, silent⟩, edge⟩, later⟩

theorem run_empty (nfa : Nfa) (text : List Char) : nfa.run ∅ text = ∅ := by
  induction text with
  | nil => rfl
  | cons c rest ih =>
      have step : nfa.run ∅ (c :: rest) = nfa.run (nfa.closure []) rest := rfl
      rw [step, closure_nil, ih]

/-- A text is accepted when a path from the initial to the final state reads it. -/
theorem accepts_iff {text : List Char} : nfa.accepts text = true ↔ nfa.Path initial text final := by
  rw [accepts, OrderedSet.contains_iff, mem_run]
  simp only [List.mem_singleton, exists_eq_left]

/-! ## Automata without missing states -/

theorem Closed.path_lt (closed : nfa.Closed) {first last : Nat} {text : List Char}
    (path : nfa.Path first text last) (bound : first < nfa.size) : last < nfa.size := by
  induction path with
  | here => exact bound
  | silent edge _ ih => exact ih (closed _ _ edge)
  | read edge _ ih => exact ih (closed _ _ edge)

theorem Closed.lt_of_mem_closure (closed : nfa.Closed) {states : List Nat}
    (exist : ∀ state ∈ states, state < nfa.size) :
    ∀ state ∈ nfa.closure states, state < nfa.size := by
  intro state member
  obtain ⟨first, inStates, path⟩ := mem_closure.1 member
  exact closed.path_lt path (exist first inStates)

theorem Closed.closure?_eq (closed : nfa.Closed) {states : List Nat}
    (exist : ∀ state ∈ states, state < nfa.size) :
    nfa.closure? states = some (nfa.closure states) := by
  have all : nfa.containsAll (nfa.closure states) = true := by
    rw [containsAll, List.all_eq_true]
    exact fun state member => decide_eq_true (closed.lt_of_mem_closure exist state member)
  exact if_pos all

theorem Closed.lt_of_mem_move (closed : nfa.Closed) {states : OrderedSet Nat} {c : Char} :
    ∀ state ∈ nfa.move states c, state < nfa.size := by
  intro state moved
  obtain ⟨source, _, edge⟩ := mem_move.1 moved
  exact closed source _ edge

theorem Closed.run?_eq (closed : nfa.Closed) (states : OrderedSet Nat) (text : List Char) :
    nfa.run? states text = some (nfa.run states text) := by
  induction text generalizing states with
  | nil => rfl
  | cons c rest ih =>
      rw [run?, closed.closure?_eq closed.lt_of_mem_move]
      exact ih _

/-- Where the initial state exists and edges lead to states, acceptance has an answer. -/
theorem accepts?_of_closed (closed : nfa.Closed) (nonempty : 0 < nfa.size) (text : List Char) :
    nfa.accepts? text = some (nfa.accepts text) := by
  have exist : ∀ state ∈ [initial], state < nfa.size := by
    intro state member
    rw [List.mem_singleton.1 member]
    exact nonempty
  rw [accepts?, closed.closure?_eq exist, Option.bind_eq_bind, Option.bind_some, closed.run?_eq]
  rfl

end ParserGenerator.Nfa
