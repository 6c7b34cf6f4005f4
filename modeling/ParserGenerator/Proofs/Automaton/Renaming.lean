import ParserGenerator.Proofs.Automaton.Alike
import ParserGenerator.Proofs.Grammar.Renaming

/-!
# Renamed automata

The automaton of a renamed grammar is the automaton of the grammar with the new symbols in its
lookaheads and on its edges. Cores stay, as they are made of numbers of rules, so that item sets are
listed as before; lookaheads are listed by their new numbers, in whichever order that puts them.

Results: `Renaming.Renewed.generate_eq`.
-/

namespace ParserGenerator

open SymbolTable (SameName)

/-! ## Definitions -/

namespace Renaming

variable (fresh : Renaming)

/-- The set of the new symbols, which are listed in an order of their own. -/
def symbolSet (old : SymbolSet) : SymbolSet := OrderedSet.ofList (old.toList.map fresh.symbol)

def item (old : Item) : Item := ⟨old.core, fresh.symbolSet old.lookahead⟩

/-- The items over the new symbols, in the same order. -/
def itemSet (old : ItemSet) : ItemSet where
  items := old.items.map fresh.item
  ascending := List.pairwise_map.2 old.ascending

def state (old : AutomatonState) : AutomatonState where
  items := fresh.itemSet old.items
  edges := old.edges.map fun edge => (fresh.symbol edge.1, edge.2)

/-- The automaton with new symbols, state by state. -/
def automaton (old : Automaton) : Automaton := ⟨old.states.map fresh.state⟩

@[simp] theorem size_automaton (old : Automaton) : (fresh.automaton old).size = old.size :=
  List.length_map fresh.state

/-! ## Item sets -/

variable {fresh} {names known : SymbolTable} {symbols : List Symbol} {g g' : Grammar}
  {set set' : ItemSet} {core : ItemCore} {x x' : Symbol}

theorem mem_symbolSet {old : SymbolSet} :
    x' ∈ fresh.symbolSet old ↔ ∃ x ∈ old, fresh.symbol x = x' := by
  unfold symbolSet
  rw [OrderedSet.mem_ofList, List.mem_map]
  rfl

theorem get?_itemSet : (fresh.itemSet set).get? core = (set.get? core).map fresh.symbolSet := by
  unfold ItemSet.get? itemSet
  rw [List.find?_map, Option.map_map, Option.map_map]
  rfl

theorem has_itemSet : (fresh.itemSet set).Has core ↔ set.Has core := by
  unfold ItemSet.Has
  rw [get?_itemSet]
  cases set.get? core <;> simp

theorem mem_lookahead_itemSet :
    x' ∈ (fresh.itemSet set).lookahead core ↔
      ∃ x ∈ set.lookahead core, fresh.symbol x = x' := by
  unfold ItemSet.lookahead
  rw [get?_itemSet]
  cases set.get? core with
  | none => simp
  | some old => exact mem_symbolSet

/-- Under names for new symbols, the renamed item set is the only one that is alike. -/
theorem Names.itemSet_eq (shared : fresh.Names names known symbols)
    (alike : set.Alike names known set') : set' = fresh.itemSet set := by
  refine ItemSet.ext_has (fun core => ?_) fun core x' => ?_
  · rw [has_itemSet]
    exact ⟨alike.above.has core, alike.below.has core⟩
  · rw [mem_lookahead_itemSet]
    constructor
    · intro looks'
      obtain ⟨x, same, looks⟩ := alike.above.looks core x' looks'
      exact ⟨x, looks, (shared.eq_symbol same.symm).symm⟩
    · rintro ⟨x, looks, rfl⟩
      obtain ⟨x', same, looks'⟩ := alike.below.looks core x looks
      exact shared.eq_symbol same ▸ looks'

/-! ## States -/

theorem Names.state_eq (shared : fresh.Names names known symbols) {old new : AutomatonState}
    (alike : old.Alike names known new) : new = fresh.state old := by
  have edges : new.edges = old.edges.map fun edge => (fresh.symbol edge.1, edge.2) := by
    rw [← List.forall₂_eq_eq_eq, List.forall₂_map_right_iff]
    exact alike.edges.flip.imp fun _ _ edge =>
      Prod.ext (shared.eq_symbol edge.1) edge.2.symm
  have items := shared.itemSet_eq alike.items
  cases new
  cases items
  cases edges
  rfl

theorem Names.automaton_eq (shared : fresh.Names names known symbols) {old new : Automaton}
    (alike : old.Alike names known new) : new = fresh.automaton old := by
  have states : new.states = old.states.map fresh.state := by
    rw [← List.forall₂_eq_eq_eq, List.forall₂_map_right_iff]
    exact alike.flip.imp fun _ _ state => shared.state_eq state
  cases new
  cases states
  rfl

theorem Names.alike_automaton (shared : fresh.Names names known symbols)
    (alike : Grammar.Alike names known g g') {limit : Option Nat} {automaton : Automaton}
    (built : Automaton.generate g limit = .ok automaton) :
    Automaton.generate g' limit = .ok (fresh.automaton automaton) ∧
      automaton.Alike names known (fresh.automaton automaton) := by
  obtain ⟨automaton', built', same⟩ := Automaton.exists_alike_of_generate alike built
  rw [shared.automaton_eq same] at built' same
  exact ⟨built', same⟩

end Renaming

theorem Automaton.eq_of_generate_eq_error {g : Grammar} {limit : Option Nat} {error : BuildError}
    (failed : generate g limit = .error error) :
    error = .tooManyStates (limit.getD (itemSetBound g)) := by
  unfold generate at failed
  dsimp only at failed
  split at failed
  · cases failed
  · cases failed
    rfl

/-- The automaton of the renamed grammar is the renamed automaton, and it exceeds a limit exactly
when that one does. -/
theorem Renaming.Renewed.generate_eq {fresh : Renaming} {g g' : Grammar}
    (renewed : fresh.Renewed g g') (limit : Option Nat) :
    Automaton.generate g' limit = (Automaton.generate g limit).map fresh.automaton := by
  obtain ⟨names, known, shared, alike⟩ := renewed.exists_alike Symbol.start
  cases built : Automaton.generate g limit with
  | ok automaton => exact (shared.alike_automaton alike built).1
  | error error =>
      cases built' : Automaton.generate g' limit with
      | ok automaton' =>
          obtain ⟨_, again, _⟩ := Automaton.exists_alike_of_generate alike.symm built'
          cases built.symm.trans again
      | error error' =>
          rw [Automaton.eq_of_generate_eq_error built, Automaton.eq_of_generate_eq_error built',
            Automaton.itemSetBound_eq alike]
          rfl

end ParserGenerator
