import ParserGenerator.Automaton
import ParserGenerator.Proofs.Automaton.KnownClosures
import ParserGenerator.Proofs.Exploration

/-!
# The states and edges of a generated automaton

The search for states reuses closures and numbers what it finds. What it leaves behind can be said
without either: the states are the closures of their kernels, and the edges lead from each state to
the closures of its moved items.

Results: `Automaton.canonical_of_generate`, and for the edges `Automaton.Canonical.exists_edge` and
`Automaton.Canonical.itemsAt_of_edge`.
-/

namespace ParserGenerator

/-! ## Definitions -/

namespace Automaton

/-- The items that expect a symbol, with their markers moved over it. -/
def moved (g : Grammar) (symbol : Symbol) (items : List Item) : List Item :=
  items.filterMap fun item =>
    if item.core.nextSymbol g = some symbol then some ⟨item.core.shifted, item.lookahead⟩ else none

/-- The edges out of an item set and the closures they lead to. -/
def successorSets (g : Grammar) (set : ItemSet) : List (Symbol × ItemSet) :=
  (kernels g set).map fun (symbol, kernel) => (symbol, g.closure kernel)

/-- The items of a state; a state that does not exist has none. -/
def itemsAt (automaton : Automaton) (state : Nat) : ItemSet :=
  (automaton.states[state]?.map AutomatonState.items).getD ∅

/-- An edge for the symbol leads from one state to the other. -/
def Edge (automaton : Automaton) (source : Nat) (symbol : Symbol) (target : Nat) : Prop :=
  ∃ state, automaton.states[source]? = some state ∧ state.edges.lookup symbol = some target

/-- The states are distinct, the first one is the closure of the start item, and the edges lead to
the closures of the moved items. -/
structure Canonical (g : Grammar) (automaton : Automaton) : Prop where
  starts : (automaton.states.map AutomatonState.items)[0]? =
    some (g.closure (ItemSet.ofList [startItem g]))
  distinct : (automaton.states.map AutomatonState.items).Nodup
  edges : ∀ (index : Nat) (state : AutomatonState), automaton.states[index]? = some state →
    Exploration.Names (automaton.states.map AutomatonState.items) state.edges
      (successorSets g state.items)

/-! ## Kernels -/

theorem lookup_addToKernel (symbol key : Symbol) (item : Item) (found : List (Symbol × ItemSet)) :
    (addToKernel symbol item found).lookup key =
      if key = symbol then some (((found.lookup symbol).getD ∅).insert item)
      else found.lookup key := by
  induction found with
  | nil =>
      rw [addToKernel, List.lookup_cons]
      by_cases same : key = symbol
      · rw [same, beq_self_eq_true, if_pos rfl]
        rfl
      · rw [beq_eq_false_iff_ne.2 same, if_neg same]
  | cons entry rest ih =>
      obtain ⟨first, kernel⟩ := entry
      rw [addToKernel]
      by_cases found : first = symbol
      · rw [if_pos found, found, List.lookup_cons, List.lookup_cons, List.lookup_cons]
        by_cases same : key = symbol
        · rw [same, beq_self_eq_true, if_pos rfl]
          rfl
        · rw [beq_eq_false_iff_ne.2 same, if_neg same]
      · rw [if_neg found, List.lookup_cons, List.lookup_cons, List.lookup_cons,
          beq_eq_false_iff_ne.2 (Ne.symm found)]
        by_cases isFirst : key = first
        · rw [isFirst, beq_self_eq_true, if_neg found]
        · rw [beq_eq_false_iff_ne.2 isFirst]
          exact ih

theorem keys_addToKernel (symbol : Symbol) (item : Item) (found : List (Symbol × ItemSet)) :
    (addToKernel symbol item found).map Prod.fst = withKey (found.map Prod.fst) symbol := by
  induction found with
  | nil => rfl
  | cons entry rest ih =>
      obtain ⟨first, kernel⟩ := entry
      rw [addToKernel]
      by_cases found : first = symbol
      · rw [if_pos found, List.map_cons, List.map_cons, withKey,
          if_pos (List.mem_cons.2 (.inl found.symm))]
      · rw [if_neg found, List.map_cons, List.map_cons, withKey_cons found, ih]

theorem nodup_kernels (g : Grammar) (set : ItemSet) : ((kernels g set).map Prod.fst).Nodup := by
  unfold kernels
  generalize nothing : ([] : List (Symbol × ItemSet)) = found
  have distinct : (found.map Prod.fst).Nodup := by
    rw [← nothing]
    exact List.nodup_nil
  clear nothing
  induction set.items generalizing found with
  | nil => exact distinct
  | cons item rest ih =>
      rw [List.foldl_cons]
      cases item.core.nextSymbol g with
      | none => exact ih found distinct
      | some symbol =>
          refine ih _ ?_
          rw [keys_addToKernel]
          exact nodup_withKey distinct symbol

theorem keys_foldl_addToKernel (g : Grammar) (items : List Item)
    (found : List (Symbol × ItemSet)) :
    (items.foldl (fun found item =>
        match item.core.nextSymbol g with
        | none => found
        | some symbol => addToKernel symbol ⟨item.core.shifted, item.lookahead⟩ found)
      found).map Prod.fst =
      ((items.map Item.core).filterMap (ItemCore.nextSymbol g)).foldl withKey
        (found.map Prod.fst) := by
  induction items generalizing found with
  | nil => rfl
  | cons item rest ih =>
      rw [List.foldl_cons, ih, List.map_cons, List.filterMap_cons]
      cases item.core.nextSymbol g with
      | none => rfl
      | some symbol =>
          dsimp only
          rw [keys_addToKernel]
          rfl

/-- The symbols of kernels are those that items expect, each once. -/
theorem keys_kernels (g : Grammar) (set : ItemSet) :
    (kernels g set).map Prod.fst =
      ((set.items.map Item.core).filterMap (ItemCore.nextSymbol g)).eraseDups := by
  rw [← foldl_withKey_nil]
  exact keys_foldl_addToKernel g set.items []

theorem lookup_foldl_addToKernel (g : Grammar) (symbol : Symbol) (items : List Item)
    (found : List (Symbol × ItemSet)) :
    (items.foldl (fun found item =>
        match item.core.nextSymbol g with
        | none => found
        | some symbol => addToKernel symbol ⟨item.core.shifted, item.lookahead⟩ found)
      found).lookup symbol =
      if moved g symbol items = [] then found.lookup symbol
      else some ((moved g symbol items).foldl ItemSet.insert ((found.lookup symbol).getD ∅)) := by
  induction items generalizing found with
  | nil => rfl
  | cons item rest ih =>
      rw [List.foldl_cons, ih]
      unfold moved
      rw [List.filterMap_cons]
      cases next : item.core.nextSymbol g with
      | none => rfl
      | some expected =>
          dsimp only
          rw [lookup_addToKernel]
          by_cases same : expected = symbol
          · rw [same, if_pos rfl, if_pos rfl, if_neg (List.cons_ne_nil _ _), List.foldl_cons]
            split
            · rename_i none
              rw [none]
              rfl
            · rfl
          · rw [if_neg (Ne.symm same), if_neg fun equal => same (Option.some.inj equal)]

/-- The kernel behind a symbol holds the moved items. -/
theorem lookup_kernels (g : Grammar) (symbol : Symbol) (set : ItemSet) :
    (kernels g set).lookup symbol =
      if moved g symbol set.items = [] then none
      else some (ItemSet.ofList (moved g symbol set.items)) :=
  lookup_foldl_addToKernel g symbol set.items []

variable {g : Grammar} {automaton : Automaton} {symbol : Symbol}

theorem mem_moved {items : List Item} {item : Item} :
    item ∈ moved g symbol items ↔
      ∃ old ∈ items, old.core.nextSymbol g = some symbol ∧
        item = ⟨old.core.shifted, old.lookahead⟩ := by
  unfold moved
  rw [List.mem_filterMap]
  constructor
  · rintro ⟨old, member, kept⟩
    split at kept
    · rename_i next
      exact ⟨old, member, next, (Option.some.inj kept).symm⟩
    · cases kept
  · rintro ⟨old, member, next, equal⟩
    exact ⟨old, member, by rw [if_pos next, equal]⟩

theorem closeKernels_spec {known : KnownClosures} (sound : known.Sound g)
    (kernels : List (Symbol × ItemSet)) :
    (closeKernels g known kernels).1 =
        kernels.map (fun (symbol, kernel) => (symbol, g.closure kernel)) ∧
      KnownClosures.Sound g (closeKernels g known kernels).2 := by
  induction kernels generalizing known with
  | nil => exact ⟨rfl, sound⟩
  | cons entry rest ih =>
      obtain ⟨symbol, kernel⟩ := entry
      obtain ⟨closed, sound'⟩ := KnownClosures.close_spec sound kernel
      obtain ⟨later, sound''⟩ := ih sound'
      refine ⟨?_, sound''⟩
      show (symbol, (known.close g kernel).1) ::
        (closeKernels g (known.close g kernel).2 rest).1 = _
      rw [closed, later]
      rfl

/-! ## The generated automaton -/

theorem successors_spec (g : Grammar) (set : ItemSet) (known : KnownClosures)
    (sound : known.Sound g) :
    (successors g set known).1 = successorSets g set ∧
      KnownClosures.Sound g (successors g set known).2 := closeKernels_spec sound (kernels g set)

/-- The search starts at the closure of the start item. -/
theorem collection_eq (g : Grammar) (limit : Nat) :
    ∃ known, KnownClosures.Sound g known ∧ collection g limit =
      explore (successors g) limit known (g.closure (ItemSet.ofList [startItem g])) := by
  obtain ⟨closed, sound⟩ :=
    KnownClosures.close_spec (@KnownClosures.sound_nil g) (ItemSet.ofList [startItem g])
  refine ⟨_, sound, ?_⟩
  unfold collection
  dsimp only
  rw [closed]

theorem explored_collection (g : Grammar) (limit : Nat) :
    Exploration.Explored (successorSets g) (g.closure (ItemSet.ofList [startItem g]))
      (collection g limit) := by
  obtain ⟨known, sound, equal⟩ := collection_eq g limit
  rw [equal]
  exact Exploration.explore_explored (successors_spec g) sound

/-- The automaton has the nodes and rows of a complete search. -/
theorem collection_of_generate {limit : Option Nat} (built : generate g limit = .ok automaton) :
    ∃ limit, (collection g limit).isComplete = true ∧
      automaton.states.map AutomatonState.items = (collection g limit).nodes ∧
      automaton.states.map AutomatonState.edges = (collection g limit).rows := by
  unfold generate at built
  refine ⟨limit.getD (itemSetBound g), ?_⟩
  dsimp only at built
  generalize collection g (limit.getD (itemSetBound g)) = found at built ⊢
  split at built
  · rename_i complete
    cases built
    have lengths := complete
    rw [Exploration.isComplete, beq_iff_eq] at lengths
    refine ⟨complete, ?_, ?_⟩
    · rw [List.map_map]
      exact List.map_fst_zip (Nat.le_of_eq lengths)
    · rw [List.map_map]
      exact List.map_snd_zip (Nat.le_of_eq lengths.symm)
  · cases built

/-- What the states and edges of a generated automaton are. -/
theorem canonical_of_generate {limit : Option Nat} (built : generate g limit = .ok automaton) :
    automaton.Canonical g := by
  obtain ⟨limit, _, nodes, rows⟩ := collection_of_generate built
  have explored := explored_collection g limit
  refine ⟨?_, ?_, fun index state isState => ?_⟩
  · exact nodes ▸ explored.starts
  · exact nodes ▸ explored.distinct
  · rw [nodes]
    refine explored.names index state.items state.edges ?_ ?_
    · rw [← nodes, List.getElem?_map, isState]
      rfl
    · rw [← rows, List.getElem?_map, isState]
      rfl

/-! ## States and edges -/

theorem itemsAt_eq {state : Nat} {set : ItemSet}
    (found : (automaton.states.map AutomatonState.items)[state]? = some set) :
    automaton.itemsAt state = set := by
  rw [List.getElem?_map] at found
  unfold itemsAt
  rw [found]
  rfl

theorem itemsAt_of_getElem? {state : Nat} {entry : AutomatonState}
    (found : automaton.states[state]? = some entry) : automaton.itemsAt state = entry.items := by
  unfold itemsAt
  rw [found]
  rfl

theorem getElem?_of_has {state : Nat} {core : ItemCore} (has : (automaton.itemsAt state).Has core) :
    ∃ entry, automaton.states[state]? = some entry := by
  cases found : automaton.states[state]? with
  | none =>
      unfold itemsAt at has
      rw [found] at has
      exact absurd has ItemSet.not_has_empty
  | some entry => exact ⟨entry, rfl⟩

/-- A symbol that some item of a state expects has an edge out of the state. -/
theorem Canonical.exists_edge (canonical : automaton.Canonical g) {state : Nat} {core : ItemCore}
    (has : (automaton.itemsAt state).Has core) (next : core.nextSymbol g = some symbol) :
    ∃ target, automaton.Edge state symbol target := by
  obtain ⟨entry, found⟩ := getElem?_of_has has
  rw [itemsAt_of_getElem? found] at has
  obtain ⟨item, member, isCore⟩ := ItemSet.has_iff.1 has
  have nonempty : moved g symbol entry.items.items ≠ [] :=
    List.ne_nil_of_mem (mem_moved.2 ⟨item, member, isCore ▸ next, rfl⟩)
  have lookup := (canonical.edges state entry found).lookup symbol
  unfold successorSets at lookup
  rw [lookup_map, lookup_kernels, if_neg nonempty] at lookup
  cases isTarget : entry.edges.lookup symbol with
  | none =>
      rw [isTarget] at lookup
      cases lookup
  | some target => exact ⟨target, entry, found, isTarget⟩

/-- An edge leads to the closure of the moved items, and there are such items. -/
theorem Canonical.itemsAt_of_edge (canonical : automaton.Canonical g) {state target : Nat}
    (edge : automaton.Edge state symbol target) :
    moved g symbol (automaton.itemsAt state).items ≠ [] ∧ automaton.itemsAt target =
      g.closure (ItemSet.ofList (moved g symbol (automaton.itemsAt state).items)) := by
  obtain ⟨entry, found, isTarget⟩ := edge
  have lookup := (canonical.edges state entry found).lookup symbol
  unfold successorSets at lookup
  rw [isTarget, lookup_map, lookup_kernels] at lookup
  rw [itemsAt_of_getElem? found]
  split at lookup
  · cases lookup
  · rename_i nonempty
    exact ⟨nonempty, itemsAt_eq (Option.some.inj lookup)⟩

theorem Canonical.edge_iff_mem (canonical : automaton.Canonical g) {state target : Nat}
    {entry : AutomatonState} (found : automaton.states[state]? = some entry) :
    automaton.Edge state symbol target ↔ (symbol, target) ∈ entry.edges := by
  have distinct : (entry.edges.map Prod.fst).Nodup := by
    rw [(canonical.edges state entry found).labels]
    unfold successorSets
    rw [List.map_map]
    exact nodup_kernels g entry.items
  rw [← lookup_eq_some_iff_mem distinct]
  constructor
  · rintro ⟨other, isOther, isTarget⟩
    cases found.symm.trans isOther
    exact isTarget
  · exact fun isTarget => ⟨entry, found, isTarget⟩

theorem has_moved {set : ItemSet} {core : ItemCore} :
    (ItemSet.ofList (moved g symbol set.items)).Has core ↔
      ∃ old, set.Has old ∧ old.nextSymbol g = some symbol ∧ core = old.shifted := by
  rw [ItemSet.has_ofList]
  constructor
  · rintro ⟨item, member, isCore⟩
    obtain ⟨old, inSet, next, equal⟩ := mem_moved.1 member
    exact ⟨old.core, ItemSet.has_iff.2 ⟨old, inSet, rfl⟩, next, by rw [← isCore, equal]⟩
  · rintro ⟨old, has, next, equal⟩
    obtain ⟨item, member, isOld⟩ := ItemSet.has_iff.1 has
    exact ⟨_, mem_moved.2 ⟨item, member, isOld ▸ next, rfl⟩, by rw [equal, isOld]⟩

theorem mem_lookahead_moved {set : ItemSet} {core : ItemCore} {x : Symbol} :
    x ∈ (ItemSet.ofList (moved g symbol set.items)).lookahead core ↔
      ∃ old, x ∈ set.lookahead old ∧ old.nextSymbol g = some symbol ∧ core = old.shifted := by
  rw [ItemSet.mem_lookahead_ofList]
  constructor
  · rintro ⟨item, member, isCore, inSet⟩
    obtain ⟨old, inItems, next, equal⟩ := mem_moved.1 member
    rw [equal] at isCore inSet
    exact ⟨old.core, ItemSet.mem_lookahead_iff.2 ⟨old, inItems, rfl, inSet⟩, next, isCore.symm⟩
  · rintro ⟨old, looks, next, equal⟩
    obtain ⟨item, member, isOld, inSet⟩ := ItemSet.mem_lookahead_iff.1 looks
    exact ⟨_, mem_moved.2 ⟨item, member, isOld ▸ next, rfl⟩, by rw [equal, isOld], inSet⟩

end Automaton

end ParserGenerator
