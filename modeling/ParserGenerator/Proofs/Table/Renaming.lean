import ParserGenerator.Proofs.Automaton.Renaming
import ParserGenerator.Proofs.Table.Agree
import ParserGenerator.Proofs.Table.Contributions

/-!
# Renamed tables

The table of a renamed grammar has the entries of the table under the new symbols. A cell is written
by the items of its state in the order of their cores, and each of them says one thing at most for
its symbol, so that the order in which a lookahead lists its symbols tells neither which entry comes
last nor in which order the conflicts of the cell arise.

Results: `Table.cellEntries_alike`, and `Renaming.tables_renamed`, which follows a renaming from the
rules to the table.
-/

namespace ParserGenerator

open SymbolTable (SameName)

/-! ## Definitions -/

namespace Renaming

variable (fresh : Renaming)

def conflict (old : Conflict) : Conflict := { old with symbol := fresh.symbol old.symbol }

/-- The new table has the cells of the old one under the new symbols, with the conflicts of each cell
in the same order, and no other ones. -/
structure Renames (old new : Table) : Prop where
  size_eq : new.size = old.size
  get?_eq : ∀ state x, new.get? state (fresh.symbol x) = old.get? state x
  conflictsAt_eq : ∀ state x,
    new.conflictsAt state (fresh.symbol x) = (old.conflictsAt state x).map fresh.conflict
  empty : ∀ state x', (∀ x, fresh.symbol x ≠ x') →
    new.get? state x' = none ∧ new.conflictsAt state x' = []

end Renaming

/-! ## Cells of automata that are alike -/

namespace Table

section

variable {names known : SymbolTable} {g g' : Grammar} {symbol symbol' : Symbol}

theorem filterMap_congr_forall₂ {α β γ : Type} {relates : α → β → Prop} {f : α → Option γ}
    {f' : β → Option γ} {left : List α} {right : List β} (related : List.Forall₂ relates left right)
    (agree : ∀ a b, relates a b → f a = f' b) : left.filterMap f = right.filterMap f' := by
  induction related with
  | nil => rfl
  | cons first _ ih => rw [List.filterMap_cons, List.filterMap_cons, agree _ _ first, ih]

theorem saidByItem?_alike (alike : Grammar.Alike names known g g') {item item' : Item}
    (items : item.Alike names known item') {edges edges' : List (Symbol × Nat)}
    (areEdges : List.Forall₂ (Exploration.EdgesAlike (SameName names known)) edges edges')
    (same : SameName names known symbol symbol') :
    saidByItem? g edges symbol item = saidByItem? g' edges' symbol' item' := by
  have endOfInput := SymbolTable.sameName_of_isReserved names known Grammar.isReserved_endOfInput
  unfold saidByItem?
  rw [← items.core_eq]
  cases next : item.core.nextSymbol g with
  | none =>
      rw [alike.nextSymbol_eq_none next]
      dsimp only
      refine if_congr Iff.rfl (if_congr (same.eq_iff endOfInput) rfl rfl) ?_
      exact if_congr (items.lookahead same) rfl rfl
  | some expected =>
      obtain ⟨expected', next', sameNext⟩ := alike.nextSymbol next
      rw [next']
      dsimp only
      rw [lookup_alike areEdges same, alike.isTerminal_eq same]
      exact if_congr (and_congr_left fun _ => sameNext.eq_iff same) rfl rfl

theorem saidByEdge?_alike (alike : Grammar.Alike names known g g') {edge edge' : Symbol × Nat}
    (edges : Exploration.EdgesAlike (SameName names known) edge edge')
    (same : SameName names known symbol symbol') :
    saidByEdge? g symbol edge = saidByEdge? g' symbol' edge' := by
  unfold saidByEdge?
  rw [alike.isNonterminal_eq same, edges.2]
  exact if_congr (and_congr_left fun _ => edges.1.eq_iff same) rfl rfl

/-- In states that are alike the same is said for symbols with the same name, in the same order. -/
theorem cellEntries_alike (alike : Grammar.Alike names known g g') {found found' : AutomatonState}
    (states : found.Alike names known found') (same : SameName names known symbol symbol') :
    cellEntries g found symbol = cellEntries g' found' symbol' := by
  have byItems := filterMap_congr_forall₂ (ItemSet.Alike.items states.items) fun _ _ items =>
    saidByItem?_alike alike items states.edges same
  have byEdges := filterMap_congr_forall₂ states.edges fun _ _ edges =>
    saidByEdge?_alike alike edges same
  unfold cellEntries
  rw [byItems, byEdges]

end

/-- The conflicts of a cell come from its entries, whatever its symbol is. -/
theorem replacements_symbol (fresh : Renaming) (state : Nat) (x : Symbol) (old : Option Entry)
    (entries : List Entry) :
    replacements state (fresh.symbol x) old entries =
      (replacements state x old entries).map fresh.conflict := by
  induction entries generalizing old with
  | nil => rfl
  | cons first rest ih =>
      rw [replacements, replacements, List.map_append, ih]
      congr 1
      cases old with
      | none => rfl
      | some previous =>
          unfold conflict?
          dsimp only
          split <;> rfl

end Table

/-! ## Renamed tables -/

namespace Renaming

variable {fresh : Renaming} {g g' : Grammar} {automaton : Automaton} {limit : Option Nat}

theorem Renewed.conflictsAt_eq (renewed : fresh.Renewed g g')
    (built : Automaton.generate g limit = .ok automaton) (symbols symbols' : SymbolTable)
    (state : Nat) (x : Symbol) :
    (Table.ofAutomaton g' symbols' (fresh.automaton automaton)).conflictsAt state
        (fresh.symbol x) =
      ((Table.ofAutomaton g symbols automaton).conflictsAt state x).map fresh.conflict := by
  obtain ⟨names, known, shared, alike⟩ := renewed.exists_alike x
  have same := shared.sameName x List.mem_cons_self
  have states := (shared.alike_automaton alike built).2
  cases isState : automaton.states[state]? with
  | some found =>
      obtain ⟨found', isState', areStates⟩ := exists_getElem?_of_forall₂ states isState
      rw [Table.conflictsAt_ofAutomaton isState, Table.conflictsAt_ofAutomaton isState',
        ← Table.cellEntries_alike alike areStates same, Table.replacements_symbol]
  | none =>
      have behind : automaton.size ≤ state := List.getElem?_eq_none_iff.1 isState
      have behind' : (fresh.automaton automaton).size ≤ state := by
        rwa [size_automaton]
      rw [Table.conflictsAt_eq_nil behind, Table.conflictsAt_eq_nil behind', List.map_nil]

/-- What is said is said for new symbols alone. -/
theorem Renewed.exists_symbol (renewed : fresh.Renewed g g')
    (built : Automaton.generate g limit = .ok automaton) {state : Nat} {x' : Symbol} {entry : Entry}
    (prescribes : (fresh.automaton automaton).Prescribes g' state x' entry) :
    ∃ x, fresh.symbol x = x' := by
  obtain ⟨names, known, shared, alike⟩ := renewed.exists_alike Symbol.start
  have states := (shared.alike_automaton alike built).2
  obtain ⟨x, same⟩ := Table.exists_sameName_of_prescribes states.symm prescribes
  exact ⟨x, (shared.eq_symbol same.symm).symm⟩

/-- The table of the renamed grammar is the renamed table, whatever names the tables have. -/
theorem Renewed.renames (renewed : fresh.Renewed g g')
    (built : Automaton.generate g limit = .ok automaton) (symbols symbols' : SymbolTable) :
    fresh.Renames (Table.ofAutomaton g symbols automaton)
      (Table.ofAutomaton g' symbols' (fresh.automaton automaton)) := by
  have built' : Automaton.generate g' limit = .ok (fresh.automaton automaton) := by
    rw [renewed.generate_eq, built]
    rfl
  have canonical' := Automaton.canonical_of_generate built'
  refine ⟨?_, fun state x => ?_, renewed.conflictsAt_eq built symbols symbols',
    fun state x' isNone => ⟨?_, ?_⟩⟩
  · rw [Table.size_ofAutomaton, Table.size_ofAutomaton, size_automaton]
  · obtain ⟨names, known, shared, alike⟩ := renewed.exists_alike x
    have states := (shared.alike_automaton alike built).2
    exact ((Table.mirrors_ofAutomaton alike states symbols symbols').get?_eq state
      (shared.sameName x List.mem_cons_self)).symm
  · rw [Option.eq_none_iff_forall_not_mem]
    intro entry cell
    obtain ⟨x, isNew⟩ := renewed.exists_symbol built (Table.prescribes_of_get? canonical' cell)
    exact isNone x isNew
  · rw [List.eq_nil_iff_forall_not_mem]
    intro conflict inCell
    obtain ⟨member, _, isSymbol⟩ := Table.mem_conflictsAt.1 inCell
    obtain ⟨x, isNew⟩ := renewed.exists_symbol built
      (Table.prescribes_of_mem_conflicts canonical' member).1
    exact isNone x (isNew.trans isSymbol)

/-- A renaming of rules is followed by all that is made from them: whether they are accepted, the
automaton with its states in order, or that it exceeds a limit, and the table. -/
theorem tables_renamed (fresh : Renaming) (rules : List Rule) (start : Option Symbol)
    (names names' : SymbolTable) :
    ((∃ g', Grammar.ofRules (rules.map fresh.rule) (start.map fresh.symbol) names' = .ok g') ↔
      ∃ g, Grammar.ofRules rules start names = .ok g) ∧
    ∀ g g', Grammar.ofRules rules start names = .ok g →
      Grammar.ofRules (rules.map fresh.rule) (start.map fresh.symbol) names' = .ok g' →
      ∀ limit, Automaton.generate g' limit = (Automaton.generate g limit).map fresh.automaton ∧
        ∀ automaton, Automaton.generate g limit = .ok automaton → ∀ symbols symbols',
          fresh.Renames (Table.ofAutomaton g symbols automaton)
            (Table.ofAutomaton g' symbols' (fresh.automaton automaton)) := by
  refine ⟨fresh.exists_ofRules_iff, fun g g' accepted accepted' limit => ?_⟩
  have renewed := fresh.renewed_of_ofRules accepted accepted'
  exact ⟨renewed.generate_eq limit, fun automaton built => renewed.renames built⟩

/-- The numbers 3 to 6 in reverse. -/
def reversed : Renaming where
  symbol x := if 3 ≤ x.id ∧ x.id ≤ 6 then ⟨9 - x.id⟩ else x
  injective := by
    rintro ⟨id⟩ ⟨id'⟩ same
    dsimp only at same
    split at same <;> split at same <;> simp only [Symbol.mk.injEq] at same ⊢ <;> omega
  symbol_of_isReserved x reserved := by
    have below : x.id < 3 := of_decide_eq_true reserved
    exact if_neg fun between => absurd between.1 (Nat.not_le.2 below)

/-- Two signs without precedence: `3 := 3 4 3`, `3 := 3 5 3` and `3 := 6`. -/
def signRules : List Rule :=
  [Rule.plain ⟨3⟩ [⟨3⟩, ⟨4⟩, ⟨3⟩], Rule.plain ⟨3⟩ [⟨3⟩, ⟨5⟩, ⟨3⟩], Rule.plain ⟨3⟩ [⟨6⟩]]

/-- Behind `3 4 3` the finished rule replaces the shift of 4, and is replaced by the shift of 5. -/
theorem exists_signTable :
    ∃ g, Grammar.ofRules signRules none SymbolTable.initial = .ok g ∧
      ∃ automaton, Automaton.generate g none = .ok automaton ∧
        (Table.ofAutomaton g SymbolTable.initial automaton).conflictsAt 5 ⟨4⟩ =
          [⟨5, ⟨4⟩, .shift 3, .reduce 1⟩] ∧
        (Table.ofAutomaton g SymbolTable.initial automaton).conflictsAt 5 ⟨5⟩ =
          [⟨5, ⟨5⟩, .reduce 1, .shift 4⟩] := by
  decide +kernel

theorem tables_renamed_reversed :
    ∃ g g' automaton, Grammar.ofRules signRules none SymbolTable.initial = .ok g ∧
      Grammar.ofRules (signRules.map reversed.rule) none SymbolTable.initial = .ok g' ∧
      Automaton.generate g none = .ok automaton ∧
      Automaton.generate g' none = .ok (reversed.automaton automaton) ∧
      (Table.ofAutomaton g' SymbolTable.initial (reversed.automaton automaton)).conflictsAt 5 ⟨5⟩ =
        [⟨5, ⟨5⟩, .shift 3, .reduce 1⟩] ∧
      (Table.ofAutomaton g' SymbolTable.initial (reversed.automaton automaton)).conflictsAt 5 ⟨4⟩ =
        [⟨5, ⟨4⟩, .reduce 1, .shift 4⟩] := by
  obtain ⟨g, accepted, automaton, built, first, second⟩ := exists_signTable
  obtain ⟨accepts, follows⟩ :=
    tables_renamed reversed signRules none SymbolTable.initial SymbolTable.initial
  obtain ⟨g', accepted'⟩ := accepts.2 ⟨g, accepted⟩
  obtain ⟨generates, tables⟩ := follows g g' accepted accepted' none
  rw [built] at generates
  have renames := tables automaton built SymbolTable.initial SymbolTable.initial
  have first' := renames.conflictsAt_eq 5 ⟨4⟩
  have second' := renames.conflictsAt_eq 5 ⟨5⟩
  rw [first] at first'
  rw [second] at second'
  exact ⟨g, g', automaton, accepted, accepted', built, generates, first', second'⟩

end Renaming

end ParserGenerator
