import ParserGenerator.Proofs.Automaton.Collection
import ParserGenerator.Proofs.Grammar.Alike

/-!
# Automata of grammars that say the same by names

Grammars that are alike by names have automata with the same numbers. An item set is known by its
cores and the names in its lookaheads, and so is the closure of its kernel. Items are listed by
their cores, whatever symbols there are, so that the kernels of a state come in the same order, and
the search for states finds them in the same order.

Results: `ItemSet.Alike.closure` and `Automaton.exists_alike_of_generate`.
-/

namespace ParserGenerator

open SymbolTable (SameName)

variable {names known : SymbolTable} {g g' : Grammar} {set set' : ItemSet}

/-! ## Definitions -/

/-- What the first item set holds is held by the second one under the names. -/
structure ItemSet.Below (names known : SymbolTable) (set set' : ItemSet) : Prop where
  has : ∀ core, set.Has core → set'.Has core
  looks : ∀ core x, x ∈ set.lookahead core →
    ∃ x', SameName names known x x' ∧ x' ∈ set'.lookahead core

/-- The item sets hold the same cores with the same names in their lookaheads. -/
structure ItemSet.Alike (names known : SymbolTable) (set set' : ItemSet) : Prop where
  below : Below names known set set'
  above : Below known names set' set

/-- The items have the same core and the same names in their lookaheads. -/
structure Item.Alike (names known : SymbolTable) (item item' : Item) : Prop where
  core_eq : item.core = item'.core
  lookahead : ∀ {x x'}, SameName names known x x' → (x ∈ item.lookahead ↔ x' ∈ item'.lookahead)

/-- The states hold the same by names, and have edges for the same names to the same states. -/
structure AutomatonState.Alike (names known : SymbolTable) (state state' : AutomatonState) :
    Prop where
  items : state.items.Alike names known state'.items
  edges : List.Forall₂ (Exploration.EdgesAlike (SameName names known)) state.edges state'.edges

/-- The states are alike by their numbers. -/
def Automaton.Alike (names known : SymbolTable) (automaton automaton' : Automaton) : Prop :=
  List.Forall₂ (AutomatonState.Alike names known) automaton.states automaton'.states

/-! ## Item sets -/

namespace ItemSet

theorem Below.subset {middle last : ItemSet} (early : Below names known set middle)
    (late : Below known names middle last) :
    (∀ core, set.Has core → last.Has core) ∧
      ∀ core x, x ∈ set.lookahead core → x ∈ last.lookahead core := by
  refine ⟨fun core has => late.has core (early.has core has), fun core x member => ?_⟩
  obtain ⟨x', same, member'⟩ := early.looks core x member
  obtain ⟨x'', same', member''⟩ := late.looks core x' member'
  rw [same.left_unique same'.symm]
  exact member''

theorem Alike.symm (alike : set.Alike names known set') : set'.Alike known names set :=
  ⟨alike.above, alike.below⟩

theorem Alike.left_unique {other : ItemSet} (alike : set.Alike names known set')
    (alike' : other.Alike names known set') : set = other := by
  obtain ⟨hasOther, looksOther⟩ := alike.below.subset alike'.above
  obtain ⟨hasSet, looksSet⟩ := alike'.below.subset alike.above
  exact ext_has (fun core => ⟨hasOther core, hasSet core⟩)
    fun core x => ⟨looksOther core x, looksSet core x⟩

/-- Item sets correspond one to one. -/
theorem alike_biUnique (names known : SymbolTable) :
    Relator.BiUnique (fun set set' : ItemSet => set.Alike names known set') :=
  ⟨fun _ _ _ alike alike' => alike.left_unique alike',
    fun _ _ _ alike alike' => alike.symm.left_unique alike'.symm⟩

theorem Below.mem_lookahead (below : Below names known set set') {core : ItemCore} {x x' : Symbol}
    (same : SameName names known x x') (member : x ∈ set.lookahead core) :
    x' ∈ set'.lookahead core := by
  obtain ⟨other, sameOther, member'⟩ := below.looks core x member
  rwa [same.right_unique sameOther]

theorem lookahead_of_mem {item : Item} (member : item ∈ set.items) :
    set.lookahead item.core = item.lookahead := by
  unfold lookahead
  rw [mem_items_iff.1 member, Option.getD_some]

theorem cores_eq (alike : set.Alike names known set') :
    set.items.map Item.core = set'.items.map Item.core := by
  -- Without their lookaheads the items are the same.
  have bare (set : ItemSet) : (set.items.map fun item => (⟨item.core, ∅⟩ : Item)).Pairwise
      fun left right => left.core.Before right.core := List.pairwise_map.2 set.ascending
  have within {left right : ItemSet} (has : ∀ core, left.Has core → right.Has core) {item : Item}
      (member : item ∈ left.items.map fun item => (⟨item.core, ∅⟩ : Item)) :
      item ∈ right.items.map fun item => (⟨item.core, ∅⟩ : Item) := by
    obtain ⟨old, inLeft, rfl⟩ := List.mem_map.1 member
    obtain ⟨other, inRight, same⟩ := has_iff.1 (has old.core (has_iff.2 ⟨old, inLeft, rfl⟩))
    exact List.mem_map.2 ⟨other, inRight, by rw [same]⟩
  have equal := items_unique (bare set) (bare set') fun item =>
    ⟨within alike.below.has, within alike.above.has⟩
  have cores := congrArg (List.map Item.core) equal
  rwa [List.map_map, List.map_map] at cores

theorem Alike.items (alike : set.Alike names known set') :
    List.Forall₂ (Item.Alike names known) set.items set'.items := by
  have cores := cores_eq alike
  rw [← List.forall₂_eq_eq_eq, List.forall₂_map_left_iff, List.forall₂_map_right_iff] at cores
  refine List.forall₂_iff_zip.2 ⟨cores.length_eq, fun {item item'} member => ?_⟩
  have core := List.forall₂_zip cores member
  obtain ⟨inSet, inSet'⟩ := List.of_mem_zip member
  refine ⟨core, fun {x x'} same => ?_⟩
  rw [← lookahead_of_mem inSet, ← lookahead_of_mem inSet', core]
  exact ⟨alike.below.mem_lookahead same, alike.above.mem_lookahead same.symm⟩

end ItemSet

/-! ## Closures -/

section

variable (alike : Grammar.Alike names known g g') (below : set.Below names known set')
include alike below

theorem ItemSet.Below.closureHas {core : ItemCore} (has : ClosureHas g set.items core) :
    ClosureHas g' set'.items core := by
  induction has with
  | @kernel item member =>
      obtain ⟨item', member', same⟩ :=
        ItemSet.has_iff.1 (below.has item.core (ItemSet.has_iff.2 ⟨item, member, rfl⟩))
      rw [← same]
      exact .kernel member'
  | expand _ next ofNext ih =>
      obtain ⟨symbol', next', same⟩ := alike.nextSymbol next
      obtain ⟨rule', ofNext'⟩ := alike.exists_mem_rulesOf same ofNext
      exact .expand ih next' ofNext'

theorem ItemSet.Below.closureLooks {core : ItemCore} {x : Symbol}
    (looks : ClosureLooks g set.items core x) :
    ∃ x', SameName names known x x' ∧ ClosureLooks g' set'.items core x' := by
  induction looks with
  | @kernel item member x inSet =>
      obtain ⟨x', same, looks'⟩ :=
        below.looks item.core x (ItemSet.mem_lookahead_iff.2 ⟨item, member, rfl, inSet⟩)
      obtain ⟨item', member', sameCore, inSet'⟩ := ItemSet.mem_lookahead_iff.1 looks'
      rw [← sameCore]
      exact ⟨x', same, .kernel member' inSet'⟩
  | @first core symbol id rule x has next ofNext differs begins =>
      obtain ⟨symbol', next', sameSymbol⟩ := alike.nextSymbol next
      obtain ⟨rule', ofNext'⟩ := alike.exists_mem_rulesOf sameSymbol ofNext
      obtain ⟨found, isRule, _⟩ := ItemCore.nextSymbol_eq_some.1 next
      obtain ⟨x', same, begins'⟩ := alike.firstOf (alike.rest isRule) begins
      have epsilon := SymbolTable.sameName_of_isReserved names known Grammar.isReserved_epsilon
      have differs' : x' ≠ Symbol.epsilon := fun equal => differs ((same.eq_iff epsilon).2 equal)
      exact ⟨x', same, .first (below.closureHas alike has) next' ofNext' differs' begins'⟩
  | @inherit core symbol id rule x _ next ofNext nullable ih =>
      obtain ⟨x', same, looks'⟩ := ih
      obtain ⟨symbol', next', sameSymbol⟩ := alike.nextSymbol next
      obtain ⟨rule', ofNext'⟩ := alike.exists_mem_rulesOf sameSymbol ofNext
      obtain ⟨found, isRule, _⟩ := ItemCore.nextSymbol_eq_some.1 next
      obtain ⟨epsilon', sameEpsilon, nullable'⟩ := alike.firstOf (alike.rest isRule) nullable
      have epsilon := SymbolTable.sameName_of_isReserved names known Grammar.isReserved_epsilon
      rw [← epsilon.right_unique sameEpsilon] at nullable'
      exact ⟨x', same, .inherit looks' next' ofNext' nullable'⟩

theorem ItemSet.Below.closure : (g.closure set).Below names known (g'.closure set') := by
  have closed := Grammar.closure_spec alike.formed set
  have closed' := Grammar.closure_spec alike.formed' set'
  refine ⟨fun core has => ?_, fun core x looks => ?_⟩
  · exact (closed'.has core).2 (below.closureHas alike ((closed.has core).1 has))
  · obtain ⟨x', same, looks'⟩ := below.closureLooks alike ((closed.looks core x).1 looks)
    exact ⟨x', same, (closed'.looks core x').2 looks'⟩

theorem ItemSet.Below.moved {symbol symbol' : Symbol}
    (same : SameName names known symbol symbol') :
    (ItemSet.ofList (Automaton.moved g symbol set.items)).Below names known
      (ItemSet.ofList (Automaton.moved g' symbol' set'.items)) := by
  refine ⟨fun core has => ?_, fun core x looks => ?_⟩
  · obtain ⟨old, hasOld, next, rfl⟩ := Automaton.has_moved.1 has
    exact Automaton.has_moved.2
      ⟨old, below.has old hasOld, alike.nextSymbol_of_sameName same next, rfl⟩
  · obtain ⟨old, looksOld, next, rfl⟩ := Automaton.mem_lookahead_moved.1 looks
    obtain ⟨x', sameX, looks'⟩ := below.looks old x looksOld
    exact ⟨x', sameX, Automaton.mem_lookahead_moved.2
      ⟨old, looks', alike.nextSymbol_of_sameName same next, rfl⟩⟩

end

/-- The closures of item sets that are alike are alike. -/
theorem ItemSet.Alike.closure (alike : Grammar.Alike names known g g')
    (same : set.Alike names known set') : (g.closure set).Alike names known (g'.closure set') :=
  ⟨same.below.closure alike, same.above.closure alike.symm⟩

theorem ItemSet.Alike.moved (alike : Grammar.Alike names known g g')
    (same : set.Alike names known set') {symbol symbol' : Symbol}
    (sameName : SameName names known symbol symbol') :
    (ItemSet.ofList (Automaton.moved g symbol set.items)).Alike names known
      (ItemSet.ofList (Automaton.moved g' symbol' set'.items)) :=
  ⟨same.below.moved alike sameName, same.above.moved alike.symm sameName.symm⟩

/-! ## Searching for states -/

theorem AutomatonState.Alike.symm {state state' : AutomatonState}
    (alike : state.Alike names known state') : state'.Alike known names state :=
  ⟨alike.items.symm, alike.edges.flip.imp fun _ _ edge => ⟨edge.1.symm, edge.2.symm⟩⟩

theorem Automaton.Alike.symm {automaton automaton' : Automaton}
    (alike : automaton.Alike names known automaton') : automaton'.Alike known names automaton :=
  List.Forall₂.imp (fun _ _ state => AutomatonState.Alike.symm state) alike.flip

namespace Automaton

theorem successorSets_eq (g : Grammar) (set : ItemSet) :
    successorSets g set = ((kernels g set).map Prod.fst).map fun symbol =>
      (symbol, g.closure (ItemSet.ofList (moved g symbol set.items))) := by
  have keys : (kernels g set).map Prod.fst = (successorSets g set).map Prod.fst := by
    unfold successorSets
    rw [List.map_map]
    rfl
  rw [keys, List.map_map]
  conv_lhs => rw [← List.map_id (successorSets g set)]
  refine List.map_congr_left fun entry member => ?_
  exact Prod.ext rfl (eq_of_mem_successorSets member)

theorem forall₂_filterMap_nextSymbol (alike : Grammar.Alike names known g g')
    (cores : List ItemCore) :
    List.Forall₂ (SameName names known) (cores.filterMap (ItemCore.nextSymbol g))
      (cores.filterMap (ItemCore.nextSymbol g')) := by
  induction cores with
  | nil => exact .nil
  | cons core rest ih =>
      rw [List.filterMap_cons, List.filterMap_cons]
      cases next : core.nextSymbol g with
      | none =>
          rw [alike.nextSymbol_eq_none next]
          exact ih
      | some symbol =>
          obtain ⟨symbol', next', same⟩ := alike.nextSymbol next
          rw [next']
          exact .cons same ih

/-- Item sets that are alike have successors that are alike, in the same order. -/
theorem successorSets_alike (alike : Grammar.Alike names known g g')
    (same : set.Alike names known set') :
    List.Forall₂ (fun entry entry' => SameName names known entry.1 entry'.1 ∧
      entry.2.Alike names known entry'.2) (successorSets g set) (successorSets g' set') := by
  have keys : List.Forall₂ (SameName names known) ((kernels g set).map Prod.fst)
      ((kernels g' set').map Prod.fst) := by
    rw [keys_kernels, keys_kernels, ItemSet.cores_eq same]
    exact forall₂_eraseDups (SymbolTable.sameName_biUnique names known)
      (forall₂_filterMap_nextSymbol alike _)
  rw [successorSets_eq, successorSets_eq, List.forall₂_map_left_iff, List.forall₂_map_right_iff]
  exact keys.imp fun symbol symbol' sameName =>
    ⟨sameName, (same.moved alike sameName).closure alike⟩

theorem startClosure_alike (alike : Grammar.Alike names known g g') :
    (g.closure (ItemSet.ofList [startItem g])).Alike names known
      (g'.closure (ItemSet.ofList [startItem g'])) := by
  have below (names known : SymbolTable) :
      (ItemSet.ofList [startItem g]).Below names known (ItemSet.ofList [startItem g]) := by
    refine ⟨fun _ has => has, fun core x looks => ⟨x, ?_, looks⟩⟩
    obtain ⟨item, member, _, inSet⟩ := ItemSet.mem_lookahead_ofList.1 looks
    rw [List.mem_singleton.1 member, startItem_eq alike.formed] at inSet
    rw [OrderedSet.mem_singleton.1 inSet]
    exact SymbolTable.sameName_of_isReserved names known Grammar.isReserved_endOfInput
  have sameItem : startItem g' = startItem g := by
    rw [startItem_eq alike.formed, startItem_eq alike.formed']
  rw [sameItem]
  exact ItemSet.Alike.closure alike ⟨below names known, below known names⟩

theorem itemSetBound_eq (alike : Grammar.Alike names known g g') :
    itemSetBound g = itemSetBound g' := by
  have symbols : (g.rules.flatMap Rule.rhs).length = (g'.rules.flatMap Rule.rhs).length := by
    have related : List.Forall₂ (SameName names known) (g.rules.flatMap Rule.rhs)
        (g'.rules.flatMap Rule.rhs) :=
      List.rel_flatMap alike.rules fun _ _ same => same.rhs
    exact related.length_eq
  unfold itemSetBound coreCount Grammar.terminalBound
  rw [symbols, alike.rules.length_eq]

theorem alike_of_zip {nodes nodes' : List ItemSet} {rows rows' : List (List (Symbol × Nat))}
    (same : List.Forall₂ (fun set set' => set.Alike names known set') nodes nodes')
    (edges : List.Forall₂ (List.Forall₂ (Exploration.EdgesAlike (SameName names known)))
      rows rows') :
    Automaton.Alike names known
      ⟨(nodes.zip rows).map fun (items, edges) => ⟨items, edges⟩⟩
      ⟨(nodes'.zip rows').map fun (items, edges) => ⟨items, edges⟩⟩ := by
  induction same generalizing rows rows' with
  | nil => exact .nil
  | cons first _ ih =>
      cases edges with
      | nil => exact .nil
      | cons firstRow later => exact .cons ⟨first, firstRow⟩ (ih later)

/-- Grammars that are alike have automata that are alike. -/
theorem exists_alike_of_generate (alike : Grammar.Alike names known g g') {limit : Option Nat}
    {automaton : Automaton} (built : generate g limit = .ok automaton) :
    ∃ automaton', generate g' limit = .ok automaton' ∧
      automaton.Alike names known automaton' := by
  have bound : limit.getD (itemSetBound g) = limit.getD (itemSetBound g') := by
    rw [itemSetBound_eq alike]
  obtain ⟨memory, sound, search⟩ := collection_eq g (limit.getD (itemSetBound g))
  obtain ⟨memory', sound', search'⟩ := collection_eq g' (limit.getD (itemSetBound g))
  have found : (collection g (limit.getD (itemSetBound g))).Alike
      (fun set set' => set.Alike names known set') (SameName names known)
      (collection g' (limit.getD (itemSetBound g))) := by
    rw [search, search']
    exact Exploration.explore_alike (ItemSet.alike_biUnique names known) (successors_spec g)
      (successors_spec g') (fun _ _ same => successorSets_alike alike same) sound sound'
      (startClosure_alike alike)
  unfold generate at built ⊢
  rw [← bound]
  dsimp only at built ⊢
  generalize collection g (limit.getD (itemSetBound g)) = one at built found
  generalize collection g' (limit.getD (itemSetBound g)) = two at found ⊢
  have complete : one.isComplete = two.isComplete := by
    unfold Exploration.isComplete
    rw [found.nodes.length_eq, found.rows.length_eq]
  split at built
  · rename_i ended
    cases built
    rw [if_pos (complete.symm.trans ended)]
    exact ⟨_, rfl, alike_of_zip found.nodes found.rows⟩
  · cases built

end Automaton

end ParserGenerator
