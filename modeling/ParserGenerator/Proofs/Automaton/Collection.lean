import Mathlib.Data.List.ProdSigma
import Mathlib.Data.List.Sublists
import ParserGenerator.Proofs.Automaton.Path

/-!
# The canonical collection

The search for states always ends: a state is a choice of cores and of terminals behind them, and
there are no more of these choices than the search allows. What it has found then is the canonical
collection. State 0 is the closure of the start item, an edge for a symbol leads to the closure of
the items that expect the symbol, every state is reached along edges, and no edge leads back to
state 0, because the start rule is expected nowhere.

Results: `Automaton.isCollection_of_generate`.
-/

namespace ParserGenerator

/-! ## Definitions -/

namespace Grammar

/-- The rules with each place of a marker. -/
def cores (g : Grammar) : List ItemCore :=
  g.rules.zipIdx.flatMap fun (rule, id) =>
    (List.range (rule.rhs.length + 1)).map fun marker => ⟨id, marker⟩

/-- The symbols that can be in a lookahead: the end of the input and those of right-hand sides. -/
def closers (g : Grammar) : List Symbol := Symbol.endOfInput :: g.rules.flatMap Rule.rhs

/-- What an item set can hold: a core, and a symbol in the lookahead of a core. -/
def holdings (g : Grammar) : List (ItemCore × Option Symbol) :=
  g.cores ×ˢ (none :: g.closers.map some)

end Grammar

namespace ItemSet

/-- The item set that holds what is listed. -/
def ofHoldings (listed : List (ItemCore × Option Symbol)) : ItemSet :=
  ofList (listed.map fun (core, x) => ⟨core, OrderedSet.ofList x.toList⟩)

/-- Whether a set holds a core, or a symbol in the lookahead of a core. -/
def holds (set : ItemSet) : ItemCore × Option Symbol → Bool
  | (core, none) => (set.get? core).isSome
  | (core, some x) => (set.lookahead core).contains x

/-- The set holds nothing but items of rules with possible lookaheads. -/
structure Over (g : Grammar) (set : ItemSet) : Prop where
  cores : ∀ core, set.Has core → core ∈ g.cores
  looks : ∀ core, ∀ x ∈ set.lookahead core, x ∈ g.closers

end ItemSet

/-- The item sets over the rules of the grammar. -/
def Grammar.itemSets (g : Grammar) : List ItemSet := g.holdings.sublists.map ItemSet.ofHoldings

/-- The automaton is the canonical collection of the grammar with its transitions. -/
structure Automaton.IsCollection (g : Grammar) (automaton : Automaton) : Prop where
  distinct : (automaton.states.map AutomatonState.items).Nodup
  starts : 0 < automaton.size ∧
    IsClosure g [⟨⟨Grammar.startRuleId, 0⟩, OrderedSet.singleton Symbol.endOfInput⟩]
      (automaton.itemsAt 0)
  single : ∀ state ∈ automaton.states, (state.edges.map Prod.fst).Nodup
  expects : ∀ source symbol, (∃ target, automaton.Edge source symbol target) ↔
    ∃ core, (automaton.itemsAt source).Has core ∧ core.nextSymbol g = some symbol
  closes : ∀ source symbol target, automaton.Edge source symbol target →
    target < automaton.size ∧ IsClosure g
      (Automaton.moved g symbol (automaton.itemsAt source).items) (automaton.itemsAt target)
  reached : ∀ state, state < automaton.size →
    ∃ below read, automaton.Path (state :: below) read
  fresh : ∀ source symbol, ¬ automaton.Edge source symbol 0

/-! ## All item sets -/

namespace Grammar

variable {g : Grammar}

theorem mem_cores {core : ItemCore} :
    core ∈ g.cores ↔
      ∃ rule, g.rule? core.rule = some rule ∧ core.marker ≤ rule.rhs.length := by
  simp only [cores, List.mem_flatMap, List.mem_map, List.mem_range, Prod.exists,
    List.mem_zipIdx_iff_getElem?, Nat.lt_succ_iff]
  constructor
  · rintro ⟨rule, id, found, marker, bound, rfl⟩
    exact ⟨rule, found, bound⟩
  · rintro ⟨rule, found, bound⟩
    exact ⟨rule, core.rule, found, core.marker, bound, rfl⟩

theorem length_cores (g : Grammar) : g.cores.length = Automaton.coreCount g := by
  have counted (rules : List Rule) (first : Nat) :
      ((rules.zipIdx first).flatMap fun (rule, id) =>
        (List.range (rule.rhs.length + 1)).map fun marker => (⟨id, marker⟩ : ItemCore)).length =
      (rules.flatMap Rule.rhs).length + rules.length := by
    induction rules generalizing first with
    | nil => rfl
    | cons rule rest ih =>
        rw [List.zipIdx_cons, List.flatMap_cons, List.length_append, ih, List.length_map,
          List.length_range, List.flatMap_cons, List.length_append, List.length_cons]
        omega
  exact counted g.rules 0

theorem length_itemSets (g : Grammar) : g.itemSets.length = Automaton.itemSetBound g := by
  have closers : (none :: g.closers.map some).length = g.terminalBound + 1 := by
    rw [List.length_cons, List.length_map, closers, List.length_cons, terminalBound, Nat.add_comm 1]
  rw [itemSets, List.length_map, List.length_sublists, holdings, List.length_product, length_cores,
    closers]
  rfl

theorem mem_holdings {core : ItemCore} {x : Option Symbol} :
    (core, x) ∈ g.holdings ↔ core ∈ g.cores ∧ ∀ symbol ∈ x, symbol ∈ g.closers := by
  rw [holdings, List.mem_product]
  cases x with
  | none => simp
  | some symbol => simp

end Grammar

namespace ItemSet

variable {g : Grammar} {set : ItemSet} {listed : List (ItemCore × Option Symbol)}
  {core : ItemCore} {x : Symbol}

theorem has_ofHoldings : (ofHoldings listed).Has core ↔ ∃ x, (core, x) ∈ listed := by
  unfold ofHoldings
  rw [has_ofList]
  constructor
  · rintro ⟨item, member, isCore⟩
    obtain ⟨⟨core', x⟩, inListed, equal⟩ := List.mem_map.1 member
    cases equal
    exact ⟨x, isCore ▸ inListed⟩
  · rintro ⟨x, inListed⟩
    exact ⟨_, List.mem_map.2 ⟨_, inListed, rfl⟩, rfl⟩

theorem mem_lookahead_ofHoldings :
    x ∈ (ofHoldings listed).lookahead core ↔ (core, some x) ∈ listed := by
  unfold ofHoldings
  rw [mem_lookahead_ofList]
  constructor
  · rintro ⟨item, member, isCore, inSet⟩
    obtain ⟨⟨core', other⟩, inListed, equal⟩ := List.mem_map.1 member
    cases equal
    rw [OrderedSet.mem_ofList, Option.mem_toList] at inSet
    cases inSet
    exact isCore ▸ inListed
  · intro inListed
    refine ⟨_, List.mem_map.2 ⟨_, inListed, rfl⟩, rfl, ?_⟩
    rw [OrderedSet.mem_ofList]
    exact List.mem_singleton.2 rfl

theorem mem_itemSets : set ∈ g.itemSets ↔ set.Over g := by
  constructor
  · intro member
    obtain ⟨listed, isSublist, rfl⟩ := List.mem_map.1 member
    have within := (List.mem_sublists.1 isSublist).subset
    constructor
    · intro core has
      obtain ⟨x, inListed⟩ := has_ofHoldings.1 has
      exact (Grammar.mem_holdings.1 (within inListed)).1
    · intro core x looks
      exact (Grammar.mem_holdings.1 (within (mem_lookahead_ofHoldings.1 looks))).2 x rfl
  · intro isOver
    refine List.mem_map.2
      ⟨g.holdings.filter set.holds, List.mem_sublists.2 List.filter_sublist, ext_has ?_ ?_⟩
    · intro core
      rw [has_ofHoldings]
      constructor
      · rintro ⟨x, member⟩
        obtain ⟨_, held⟩ := List.mem_filter.1 member
        cases x with
        | none => exact Option.isSome_iff_exists.1 held
        | some x => exact has_of_mem_lookahead (OrderedSet.contains_iff.1 held)
      · intro has
        exact ⟨none, List.mem_filter.2 ⟨Grammar.mem_holdings.2 ⟨isOver.cores core has, nofun⟩,
          Option.isSome_iff_exists.2 has⟩⟩
    · intro core x
      rw [mem_lookahead_ofHoldings, List.mem_filter, Grammar.mem_holdings]
      constructor
      · rintro ⟨_, held⟩
        exact OrderedSet.contains_iff.1 held
      · intro looks
        refine ⟨⟨isOver.cores core (has_of_mem_lookahead looks), fun symbol isX => ?_⟩,
          OrderedSet.contains_iff.2 looks⟩
        cases isX
        exact isOver.looks core x looks

end ItemSet

/-! ## The search ends -/

namespace Automaton

variable {g : Grammar} {automaton : Automaton} {symbol : Symbol}

theorem over_closure (formed : g.WellFormed) {kernel : ItemSet} (isOver : kernel.Over g) :
    (g.closure kernel).Over g := by
  have closed := g.closure_spec formed kernel
  constructor
  · intro core has
    induction (closed.has core).1 has with
    | kernel member => exact isOver.cores _ (ItemSet.has_iff.2 ⟨_, member, rfl⟩)
    | expand _ _ ofNext =>
        exact Grammar.mem_cores.2 ⟨_, (Grammar.mem_rulesOf.1 ofNext).1, Nat.zero_le _⟩
  · intro core x looks
    have inClosure := (closed.looks core x).1 looks
    clear looks
    induction inClosure with
    | kernel member inSet =>
        exact isOver.looks _ _ (ItemSet.mem_lookahead_iff.2 ⟨_, member, rfl, inSet⟩)
    | first _ _ _ differs begins =>
        have terminal := (formed.firstOf_subset begins).resolve_right differs
        rcases Grammar.mem_terminals.1 terminal with isEnd | ⟨⟨rule, member, inRhs⟩, _⟩
        · exact isEnd ▸ List.mem_cons_self
        · exact List.mem_cons_of_mem _ (List.mem_flatMap.2 ⟨rule, member, inRhs⟩)
    | inherit _ _ _ _ ih => exact ih

theorem over_start (formed : g.WellFormed) : (ItemSet.ofList [startItem g]).Over g := by
  rw [startItem_eq formed]
  constructor
  · intro core has
    obtain ⟨item, member, isCore⟩ := ItemSet.has_ofList.1 has
    rw [← isCore, List.mem_singleton.1 member]
    exact Grammar.mem_cores.2 ⟨_, Grammar.rule?_startRuleId, Nat.zero_le _⟩
  · intro core x looks
    obtain ⟨item, member, _, inSet⟩ := ItemSet.mem_lookahead_ofList.1 looks
    rw [List.mem_singleton.1 member, OrderedSet.mem_singleton] at inSet
    exact inSet ▸ List.mem_cons_self

theorem over_moved {set : ItemSet} (isOver : set.Over g) :
    (ItemSet.ofList (moved g symbol set.items)).Over g := by
  constructor
  · intro core has
    obtain ⟨old, _, next, rfl⟩ := has_moved.1 has
    obtain ⟨rule, found, isNext⟩ := ItemCore.nextSymbol_eq_some.1 next
    exact Grammar.mem_cores.2 ⟨rule, found, (List.getElem?_eq_some_iff.1 isNext).1⟩
  · intro core x looks
    obtain ⟨old, inSet, _⟩ := mem_lookahead_moved.1 looks
    exact isOver.looks old x inSet

theorem eq_of_mem_successorSets {set : ItemSet} {entry : Symbol × ItemSet}
    (member : entry ∈ successorSets g set) :
    entry.2 = g.closure (ItemSet.ofList (moved g entry.1 set.items)) := by
  obtain ⟨⟨symbol, kernel⟩, inKernels, rfl⟩ := List.mem_map.1 member
  have found := (lookup_eq_some_iff_mem (nodup_kernels g set)).2 inKernels
  rw [lookup_kernels] at found
  split at found
  · cases found
  · cases found
    rfl

/-- Without a limit, the search for states always ends. -/
theorem exists_generate (formed : g.WellFormed) : ∃ automaton, generate g none = .ok automaton := by
  have starts := ItemSet.mem_itemSets.2 (over_closure formed (over_start formed))
  have inside : ∀ set ∈ g.itemSets, ∀ entry ∈ successorSets g set, entry.2 ∈ g.itemSets := by
    intro set member entry successor
    rw [eq_of_mem_successorSets successor]
    exact ItemSet.mem_itemSets.2 (over_closure formed (over_moved (ItemSet.mem_itemSets.1 member)))
  have complete : (collection g (itemSetBound g)).isComplete = true := by
    obtain ⟨known, sound, equal⟩ := collection_eq g (itemSetBound g)
    have ended := Exploration.complete_explore (Nat.le_of_eq g.length_itemSets) (successors_spec g)
      inside starts sound
    rw [equal, Exploration.isComplete, beq_iff_eq]
    exact ended.1.symm
  unfold generate
  dsimp only [Option.getD_none]
  generalize collection g (itemSetBound g) = found at complete ⊢
  rw [if_pos complete]
  exact ⟨_, rfl⟩

/-! ## The states -/

/-- Every state is at the end of a path. -/
theorem exists_path_of_generate {limit : Option Nat} (built : generate g limit = .ok automaton)
    {state : Nat} (bound : state < automaton.size) :
    ∃ below read, automaton.Path (state :: below) read := by
  have canonical := canonical_of_generate built
  obtain ⟨limit, complete, nodes, rows⟩ := collection_of_generate built
  obtain ⟨known, _, equal⟩ := collection_eq g limit
  have entered : (collection g limit).Entered := by
    rw [equal] at complete ⊢
    exact Exploration.entered_explore complete
  induction state using Nat.strongRecOn with
  | ind state ih =>
      have isNode : state < (collection g limit).nodes.length := by
        rw [← nodes, List.length_map]
        exact bound
      rcases entered state isNode with isFirst | ⟨source, row, symbol, before, isRow, member⟩
      · rw [isFirst]
        exact ⟨[], [], .start⟩
      · obtain ⟨below, read, path⟩ := ih source before (Nat.lt_trans before bound)
        rw [← rows, List.getElem?_map] at isRow
        obtain ⟨entry, found, isEdges⟩ := Option.map_eq_some_iff.1 isRow
        rw [← isEdges] at member
        exact ⟨_, _, .push path ((canonical.edge_iff_mem found).2 member)⟩

/-- Markers have moved behind an edge, and expansions do not give the start rule. -/
theorem Canonical.not_edge_start (canonical : automaton.Canonical g) (formed : g.WellFormed)
    {source : Nat} : ¬ automaton.Edge source symbol 0 := by
  intro edge
  have start : (automaton.itemsAt 0).Has ⟨Grammar.startRuleId, 0⟩ := by
    rw [itemsAt_eq canonical.starts]
    exact ((validAfter_start formed).has _).2 .start
  rw [(canonical.itemsAt_of_edge edge).2, (g.closure_spec formed _).has] at start
  generalize isCore : (⟨Grammar.startRuleId, 0⟩ : ItemCore) = core at start
  cases start with
  | kernel member =>
      obtain ⟨old, _, _, equal⟩ := has_moved.1 (ItemSet.has_iff.2 ⟨_, member, rfl⟩)
      rw [← isCore] at equal
      cases congrArg ItemCore.marker equal
  | expand _ next ofNext =>
      exact (formed.mem_userRules_of_next next ofNext).2 (congrArg ItemCore.rule isCore).symm

end Automaton

/-! ## Closures of lists -/

section

variable {g : Grammar} {items : List Item} {set : ItemSet} {core : ItemCore} {x : Symbol}

theorem closureHas_ofList :
    ClosureHas g (ItemSet.ofList items).items core ↔ ClosureHas g items core := by
  constructor
  · intro has
    induction has with
    | kernel member =>
        obtain ⟨item, inItems, same⟩ := ItemSet.has_ofList.1 (ItemSet.has_iff.2 ⟨_, member, rfl⟩)
        exact same ▸ .kernel inItems
    | expand _ next ofNext ih => exact .expand ih next ofNext
  · intro has
    induction has with
    | kernel member =>
        obtain ⟨item, inSet, same⟩ := ItemSet.has_iff.1 (ItemSet.has_ofList.2 ⟨_, member, rfl⟩)
        exact same ▸ .kernel inSet
    | expand _ next ofNext ih => exact .expand ih next ofNext

theorem closureLooks_ofList :
    ClosureLooks g (ItemSet.ofList items).items core x ↔ ClosureLooks g items core x := by
  constructor
  · intro looks
    induction looks with
    | kernel member inLookahead =>
        obtain ⟨item, inItems, same, looks⟩ := ItemSet.mem_lookahead_ofList.1
          (ItemSet.mem_lookahead_iff.2 ⟨_, member, rfl, inLookahead⟩)
        exact same ▸ .kernel inItems looks
    | first has next ofNext differs begins =>
        exact .first (closureHas_ofList.1 has) next ofNext differs begins
    | inherit _ next ofNext nullable ih => exact .inherit ih next ofNext nullable
  · intro looks
    induction looks with
    | kernel member inLookahead =>
        obtain ⟨item, inSet, same, looks⟩ := ItemSet.mem_lookahead_iff.1
          (ItemSet.mem_lookahead_ofList.2 ⟨_, member, rfl, inLookahead⟩)
        exact same ▸ .kernel inSet looks
    | first has next ofNext differs begins =>
        exact .first (closureHas_ofList.2 has) next ofNext differs begins
    | inherit _ next ofNext nullable ih => exact .inherit ih next ofNext nullable

/-- The closure of the set of a list is that of the list. -/
theorem isClosure_ofList (formed : g.WellFormed) (items : List Item) :
    IsClosure g items (g.closure (ItemSet.ofList items)) := by
  have closed := g.closure_spec formed (ItemSet.ofList items)
  constructor
  · exact fun core => (closed.has core).trans closureHas_ofList
  · exact fun core x => (closed.looks core x).trans closureLooks_ofList

end

/-! ## The collection -/

namespace Automaton

variable {g : Grammar} {automaton : Automaton}

theorem Canonical.isCollection (canonical : automaton.Canonical g) (formed : g.WellFormed)
    (reached : ∀ state, state < automaton.size →
      ∃ below read, automaton.Path (state :: below) read) : automaton.IsCollection g where
  distinct := canonical.distinct
  starts := by
    obtain ⟨bound, _⟩ := List.getElem?_eq_some_iff.1 canonical.starts
    rw [List.length_map] at bound
    refine ⟨bound, ?_⟩
    rw [itemsAt_eq canonical.starts, ← startItem_eq formed]
    exact isClosure_ofList formed _
  single state member := by
    obtain ⟨index, found⟩ := List.mem_iff_getElem?.1 member
    rw [(canonical.edges index state found).labels]
    unfold successorSets
    rw [List.map_map]
    exact nodup_kernels g state.items
  expects source symbol := by
    constructor
    · rintro ⟨target, edge⟩
      obtain ⟨item, member⟩ := List.exists_mem_of_ne_nil _ (canonical.itemsAt_of_edge edge).1
      obtain ⟨old, inItems, next, _⟩ := mem_moved.1 member
      exact ⟨old.core, ItemSet.has_iff.2 ⟨old, inItems, rfl⟩, next⟩
    · rintro ⟨core, has, next⟩
      exact canonical.exists_edge has next
  closes source symbol target edge := by
    have isClosure := isClosure_ofList formed (moved g symbol (automaton.itemsAt source).items)
    rw [← (canonical.itemsAt_of_edge edge).2] at isClosure
    obtain ⟨item, member⟩ := List.exists_mem_of_ne_nil _ (canonical.itemsAt_of_edge edge).1
    obtain ⟨entry, found⟩ := getElem?_of_has ((isClosure.has item.core).2 (.kernel member))
    exact ⟨(List.getElem?_eq_some_iff.1 found).1, isClosure⟩
  reached := reached
  fresh _ _ := canonical.not_edge_start formed

/-- The generated automaton is the canonical collection; without a limit there always is one. -/
theorem isCollection_of_generate {rules : List Rule} {start : Option Symbol} {names : SymbolTable}
    (accepted : Grammar.ofRules rules start names = .ok g) :
    (∃ automaton, generate g none = .ok automaton) ∧
      ∀ limit automaton, generate g limit = .ok automaton → automaton.IsCollection g := by
  have formed := Grammar.wellFormed_of_ofRules accepted
  refine ⟨exists_generate formed, fun limit automaton built => ?_⟩
  have canonical := canonical_of_generate built
  exact canonical.isCollection formed fun _ bound => exists_path_of_generate built bound

/-- The rules of pairs, either half of which may be missing: `3 := 4 4`, `4 := 5` and `4 :=`. -/
def pairRules : List Rule :=
  [Rule.plain ⟨3⟩ [⟨4⟩, ⟨4⟩], Rule.plain ⟨4⟩ [⟨5⟩], Rule.plain ⟨4⟩ []]

theorem isCollection_of_generate_pair :
    ∃ g automaton, Grammar.ofRules pairRules none SymbolTable.initial = .ok g ∧
      generate g none = .ok automaton ∧ automaton.IsCollection g := by
  have accepted : ∃ g, Grammar.ofRules pairRules none SymbolTable.initial = .ok g := ⟨_, rfl⟩
  obtain ⟨g, accepted⟩ := accepted
  obtain ⟨automaton, built⟩ := (isCollection_of_generate accepted).1
  exact ⟨g, automaton, accepted, built, (isCollection_of_generate accepted).2 none automaton built⟩

end Automaton

end ParserGenerator
