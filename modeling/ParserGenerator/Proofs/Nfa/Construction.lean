import ParserGenerator.Proofs.Nfa.Reach

/-!
# The edges after each construction

An automaton grows by states, edges and copies of other automata. For each of these this module says
how many states there are afterwards and which edges leave each of them; later proofs speak of these
edges and never open a construction.

Results: `Nfa.mem_edges_addEdge` and `Nfa.mem_edges_embed`, and that every construction keeps
`Nfa.Simple`, `Nfa.Closed` and `Nfa.Embeddable`.
-/

namespace ParserGenerator.Nfa

variable {nfa host child : Nfa} {start stop : Nat}

/-! ## Edges and sizes -/

theorem lt_size_of_mem_edges {state : Nat} {edge : Edge} (member : edge ∈ nfa.edges state) :
    state < nfa.size := by
  rcases Nat.lt_or_ge state nfa.size with below | above
  · exact below
  · rw [edges, List.getElem?_eq_none above] at member
    cases member

@[simp] theorem edges_empty (state : Nat) : empty.edges state = [] := by
  match state with
  | 0 => rfl
  | 1 => rfl
  | _ + 2 => rfl

@[simp] theorem size_addState (nfa : Nfa) : nfa.addState.2.size = nfa.size + 1 := by
  simp [addState, size]

theorem edges_append_replicate (rows : List (List Edge)) (count state : Nat) :
    edges ⟨rows ++ List.replicate count []⟩ state = edges ⟨rows⟩ state := by
  unfold edges
  rcases Nat.lt_or_ge state rows.length with below | above
  · rw [List.getElem?_append_left below]
  · rw [List.getElem?_append_right above, List.getElem?_eq_none above, List.getElem?_replicate]
    split <;> rfl

@[simp] theorem edges_addState (nfa : Nfa) (state : Nat) :
    nfa.addState.2.edges state = nfa.edges state := edges_append_replicate nfa.rows 1 state

@[simp] theorem size_addEdge (nfa : Nfa) (source : Nat) (label : Label) (target : Nat) :
    (nfa.addEdge source label target).size = nfa.size := List.length_modify _ _ _

theorem mem_edges_addEdge {source target state : Nat} {label : Label} {edge : Edge}
    (bound : source < nfa.size) : edge ∈ (nfa.addEdge source label target).edges state ↔
      edge ∈ nfa.edges state ∨ state = source ∧ edge = ⟨label, target⟩ := by
  unfold edges addEdge
  rw [List.getElem?_modify]
  by_cases same : source = state
  · subst same
    rw [List.getElem?_eq_getElem bound]
    simp only [if_true, Option.map_eq_map, Option.map_some, Option.getD_some, true_and]
    split
    · rename_i known
      exact ⟨.inl, fun either => either.elim id fun equal => equal ▸ known⟩
    · rw [List.mem_append, List.mem_singleton]
  · simp [same, Ne.symm same]

@[simp] theorem size_widen (host child : Nfa) :
    (host.widen child).size = host.size + (child.size - 2) := by
  simp [widen, size]

theorem edges_widen (host child : Nfa) (state : Nat) :
    (host.widen child).edges state = host.edges state :=
  edges_append_replicate host.rows _ state

theorem image_lt {state : Nat} (startBound : start < host.size) (stopBound : stop < host.size)
    (bound : state < child.size) :
    host.image start stop state < (host.widen child).size := by
  rw [size_widen]
  match state with
  | 0 => exact Nat.lt_add_right _ startBound
  | 1 => exact Nat.lt_add_right _ stopBound
  | inner + 2 =>
      show host.size + inner < _
      omega

/-- The copy of an edge. -/
def copy (host : Nfa) (start stop : Nat) (edge : Edge) : Edge :=
  ⟨edge.label, host.image start stop edge.target⟩

theorem foldl_addEdge {transitions : List (Nat × Edge)} {base : Nfa}
    (bounds : ∀ transition ∈ transitions, host.image start stop transition.1 < base.size) :
    (transitions.foldl (fun nfa (source, edge) => nfa.addEdge (host.image start stop source)
        edge.label (host.image start stop edge.target)) base).size = base.size ∧
      ∀ state edge, edge ∈ (transitions.foldl (fun nfa (source, edge) =>
          nfa.addEdge (host.image start stop source) edge.label
            (host.image start stop edge.target)) base).edges state ↔
        edge ∈ base.edges state ∨ ∃ transition ∈ transitions,
          state = host.image start stop transition.1 ∧
            edge = host.copy start stop transition.2 := by
  induction transitions generalizing base with
  | nil => simp
  | cons transition rest ih =>
      obtain ⟨source, inner⟩ := transition
      have bound := bounds _ List.mem_cons_self
      obtain ⟨size, members⟩ := @ih (base.addEdge (host.image start stop source) inner.label
        (host.image start stop inner.target)) fun other later => by
          rw [size_addEdge]
          exact bounds other (List.mem_cons_of_mem _ later)
      rw [List.foldl_cons]
      refine ⟨size.trans (size_addEdge _ _ _ _), fun state edge => ?_⟩
      rw [members, mem_edges_addEdge bound, or_assoc]
      simp only [List.mem_cons, exists_eq_or_imp, copy]

@[simp] theorem size_embed (startBound : start < host.size) (stopBound : stop < host.size) :
    (host.embed child start stop).size = host.size + (child.size - 2) := by
  rw [embed, (foldl_addEdge _).1, size_widen]
  intro transition member
  exact image_lt startBound stopBound (lt_size_of_mem_edges (mem_transitions.1 member))

/-- The edges behind an embedding: those of the host and the copies of the child's. -/
theorem mem_edges_embed (startBound : start < host.size) (stopBound : stop < host.size)
    {state : Nat} {edge : Edge} : edge ∈ (host.embed child start stop).edges state ↔
      edge ∈ host.edges state ∨ ∃ source inner, inner ∈ child.edges source ∧
        state = host.image start stop source ∧ edge = host.copy start stop inner := by
  rw [embed, (foldl_addEdge _).2, edges_widen]
  · simp only [Prod.exists, mem_transitions]
  · intro transition member
    exact image_lt startBound stopBound (lt_size_of_mem_edges (mem_transitions.1 member))

/-! ## What is added to a state -/

/-- An edge that is added goes behind the edges of its source, unless it is one of them. -/
theorem edges_addEdge_cases (nfa : Nfa) (source : Nat) (label : Label) (target state : Nat) :
    (nfa.addEdge source label target).edges state = nfa.edges state ∨
      state = source ∧ ⟨label, target⟩ ∉ nfa.edges state ∧
        (nfa.addEdge source label target).edges state = nfa.edges state ++ [⟨label, target⟩] := by
  unfold edges addEdge
  simp only [List.getElem?_modify]
  by_cases same : source = state
  · subst same
    cases nfa.rows[source]? with
    | none => exact .inl rfl
    | some row =>
        by_cases known : (⟨label, target⟩ : Edge) ∈ row
        · simp [known]
        · simp [known]
  · simp [same]

theorem edges_prefix_addEdge (nfa : Nfa) (source : Nat) (label : Label) (target state : Nat) :
    nfa.edges state <+: (nfa.addEdge source label target).edges state := by
  rcases nfa.edges_addEdge_cases source label target state with same | ⟨_, _, grown⟩
  · simp [same]
  · rw [grown]
    exact List.prefix_append _ _

theorem edges_addEdge_of_ne {source state : Nat} (differs : state ≠ source) (label : Label)
    (target : Nat) : (nfa.addEdge source label target).edges state = nfa.edges state := by
  rcases nfa.edges_addEdge_cases source label target state with same | ⟨isSource, _⟩
  · exact same
  · exact absurd isSource differs

/-- What holds of the host with its new states and stays when the copy of an edge is added holds
behind the embedding. -/
theorem embed_induction {motive : Nfa → Prop} (widened : motive (host.widen child))
    (copied : ∀ grown source edge, edge ∈ child.edges source → motive grown →
      motive (grown.addEdge (host.image start stop source) edge.label
        (host.image start stop edge.target))) :
    motive (host.embed child start stop) := by
  unfold embed
  refine List.foldlRecOn (motive := motive) _ _ widened fun grown holds transition member => ?_
  exact copied grown _ _ (mem_transitions.1 member) holds

/-- The host's edges stay, in their order and in front of the copies. -/
theorem edges_prefix_embed (host child : Nfa) (start stop state : Nat) :
    host.edges state <+: (host.embed child start stop).edges state := by
  refine embed_induction (motive := fun grown => host.edges state <+: grown.edges state) ?_ ?_
  · simp [edges_widen]
  · exact fun grown source edge _ kept => kept.trans (edges_prefix_addEdge grown _ _ _ state)

/-- No state has the same edge twice. -/
def Simple (nfa : Nfa) : Prop := ∀ state, (nfa.edges state).Nodup

namespace Simple

theorem empty : Nfa.empty.Simple := fun state => by
  rw [edges_empty]
  exact List.nodup_nil

theorem addState (simple : nfa.Simple) : nfa.addState.2.Simple := fun state => by
  rw [edges_addState]
  exact simple state

theorem addEdge (simple : nfa.Simple) (source : Nat) (label : Label) (target : Nat) :
    (nfa.addEdge source label target).Simple := by
  intro state
  rcases nfa.edges_addEdge_cases source label target state with same | ⟨_, fresh, grown⟩
  · rw [same]
    exact simple state
  · rw [grown, List.nodup_append]
    refine ⟨simple state, List.pairwise_singleton _ _, fun edge old other isNew => ?_⟩
    rw [List.mem_singleton.1 isNew]
    exact fun equal => fresh (equal ▸ old)

/-- Copies of two edges of the child may be equal, and are then one edge. -/
theorem embed (simple : host.Simple) (child : Nfa) (start stop : Nat) :
    (host.embed child start stop).Simple := by
  refine embed_induction (fun state => ?_) fun grown source edge _ kept => kept.addEdge _ _ _
  rw [edges_widen]
  exact simple state

end Simple

/-! ## Edges lead to states -/

theorem closed_iff : nfa.Closed ↔ ∀ row ∈ nfa.rows, ∀ edge ∈ row, edge.target < nfa.size := by
  constructor
  · intro closed row member edge inRow
    obtain ⟨source, found⟩ := List.mem_iff_getElem?.1 member
    refine closed source edge ?_
    rwa [edges, found, Option.getD_some]
  · intro within source edge member
    rw [edges, List.getElem?_eq_getElem (lt_size_of_mem_edges member)] at member
    exact within _ (List.getElem_mem _) edge member

instance (nfa : Nfa) : Decidable nfa.Closed := decidable_of_iff _ closed_iff.symm

theorem closed_empty : empty.Closed := by
  intro source edge member
  rw [edges_empty] at member
  cases member

theorem Closed.addState (closed : nfa.Closed) : nfa.addState.2.Closed := by
  intro source edge member
  rw [edges_addState] at member
  rw [size_addState]
  exact Nat.lt_succ_of_lt (closed source edge member)

theorem Closed.addEdge (closed : nfa.Closed) {source target : Nat} (label : Label)
    (sourceBound : source < nfa.size) (targetBound : target < nfa.size) :
    (nfa.addEdge source label target).Closed := by
  intro state edge member
  rw [size_addEdge]
  rcases (mem_edges_addEdge sourceBound).1 member with old | ⟨_, rfl⟩
  · exact closed state edge old
  · exact targetBound

theorem Closed.embed (hostClosed : host.Closed) (childClosed : child.Closed)
    (startBound : start < host.size) (stopBound : stop < host.size) :
    (host.embed child start stop).Closed := by
  intro state edge member
  rw [size_embed startBound stopBound]
  rcases (mem_edges_embed startBound stopBound).1 member with old | ⟨source, inner, copied, _, rfl⟩
  · exact Nat.lt_add_right _ (hostClosed state edge old)
  · rw [← size_widen]
    exact image_lt startBound stopBound (childClosed source inner copied)

/-! ## Automata for embedding -/

/-- The automaton can be put between two states of another one: nothing enters its initial state,
nothing leaves its final state, and all edges lead to states. -/
structure Embeddable (nfa : Nfa) : Prop where
  closed : nfa.Closed
  final_lt : final < nfa.size
  not_entered : ∀ source edge, edge ∈ nfa.edges source → edge.target ≠ initial
  not_left : nfa.edges final = []

namespace Embeddable

theorem initial_lt (embeddable : nfa.Embeddable) : initial < nfa.size :=
  Nat.lt_trans (by decide) embeddable.final_lt

theorem empty : Nfa.empty.Embeddable where
  closed := closed_empty
  final_lt := by decide
  not_entered source edge member := by
    rw [edges_empty] at member
    cases member
  not_left := rfl

theorem addState (embeddable : nfa.Embeddable) : nfa.addState.2.Embeddable where
  closed := embeddable.closed.addState
  final_lt := by
    rw [size_addState]
    exact Nat.lt_succ_of_lt embeddable.final_lt
  not_entered source edge member := by
    rw [edges_addState] at member
    exact embeddable.not_entered source edge member
  not_left := (edges_addState nfa final).trans embeddable.not_left

theorem addEdge (embeddable : nfa.Embeddable) {source target : Nat} (label : Label)
    (sourceBound : source < nfa.size) (targetBound : target < nfa.size) (notFinal : source ≠ final)
    (notInitial : target ≠ initial) : (nfa.addEdge source label target).Embeddable where
  closed := embeddable.closed.addEdge label sourceBound targetBound
  final_lt := (size_addEdge nfa source label target).symm ▸ embeddable.final_lt
  not_entered state edge member := by
    rcases (mem_edges_addEdge sourceBound).1 member with old | ⟨_, rfl⟩
    · exact embeddable.not_entered state edge old
    · exact notInitial
  not_left := by
    refine List.eq_nil_iff_forall_not_mem.2 fun edge member => ?_
    rcases (mem_edges_addEdge sourceBound).1 member with old | ⟨same, _⟩
    · rw [embeddable.not_left] at old
      cases old
    · exact notFinal same.symm

theorem image_ne_initial (embeddable : host.Embeddable) (notInitial : stop ≠ initial) {state : Nat}
    (differs : state ≠ initial) : host.image start stop state ≠ initial := by
  match state with
  | 0 => exact absurd rfl differs
  | 1 => exact notInitial
  | inner + 2 =>
      have := embeddable.initial_lt
      show host.size + inner ≠ initial
      unfold initial at *
      omega

theorem image_eq_final (embeddable : host.Embeddable) (notFinal : start ≠ final) {state : Nat}
    (isFinal : host.image start stop state = final) : state = final := by
  match state with
  | 0 => exact absurd isFinal notFinal
  | 1 => rfl
  | inner + 2 =>
      have := embeddable.final_lt
      replace isFinal : host.size + inner = final := isFinal
      omega

theorem embed (embeddable : host.Embeddable) (inner : child.Embeddable)
    (startBound : start < host.size) (stopBound : stop < host.size) (notFinal : start ≠ final)
    (notInitial : stop ≠ initial) : (host.embed child start stop).Embeddable where
  closed := embeddable.closed.embed inner.closed startBound stopBound
  final_lt := by
    rw [size_embed startBound stopBound]
    exact Nat.lt_add_right _ embeddable.final_lt
  not_entered state edge member := by
    rcases (mem_edges_embed startBound stopBound).1 member with old | ⟨source, edge, copied, _, rfl⟩
    · exact embeddable.not_entered state edge old
    · exact embeddable.image_ne_initial notInitial (inner.not_entered source edge copied)
  not_left := by
    refine List.eq_nil_iff_forall_not_mem.2 fun edge member => ?_
    rcases (mem_edges_embed startBound stopBound).1 member with
      old | ⟨source, edge, copied, same, _⟩
    · rw [embeddable.not_left] at old
      cases old
    · rw [embeddable.image_eq_final notFinal same.symm, inner.not_left] at copied
      cases copied

/-- Of the host's states only `start` gets edges: no copied edge leaves `stop`. -/
theorem edges_embed_of_ne (inner : child.Embeddable) {state : Nat} (bound : state < host.size)
    (differs : state ≠ start) :
    (host.embed child start stop).edges state = host.edges state := by
  refine embed_induction (motive := fun grown => grown.edges state = host.edges state)
    (edges_widen host child state) fun grown source edge copied kept => ?_
  rw [edges_addEdge_of_ne, kept]
  match source with
  | 0 => exact differs
  | 1 =>
      rw [show child.edges 1 = [] from inner.not_left] at copied
      cases copied
  | source + 2 =>
      show state ≠ host.size + source
      omega

end Embeddable

end ParserGenerator.Nfa
