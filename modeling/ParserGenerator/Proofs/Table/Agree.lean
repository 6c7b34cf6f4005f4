import ParserGenerator.Proofs.Automaton.Alike
import ParserGenerator.Proofs.Table.Contents

/-!
# Tables that agree under the same names

A parse looks into a table by states and symbols, and never at the order of the cells or at the
numbers of rules. Two tables agree when the cells of symbols with the same name say the same by
names. Automata that are alike fill tables that agree: the writes come in the same order but for the
symbols of a lookahead, which all get the same entry. Tables that are alike cell by cell agree, and
so do two tables that agree with a third one.

Results: `Table.agree_ofAutomaton`, `Table.Alike.agree`, `Table.Agree.trans` and
`Table.Agree.expected`.
-/

namespace ParserGenerator

open SymbolTable (SameName)

/-! ## Definitions -/

namespace Table

/-- Each cell of the first table says the same by names in the second one. -/
def Within (left right : Table) : Prop :=
  ∀ (state : Nat) (symbol : Symbol) (entry : Entry), left.get? state symbol = some entry →
    ∃ symbol' entry', SameName left.symbols right.symbols symbol symbol' ∧
      right.get? state symbol' = some entry' ∧
      EntriesAlike left.symbols right.symbols left.rules right.rules entry entry'

/-- The tables say the same by names, each symbol once in a row. -/
structure Agree (left right : Table) : Prop where
  within : left.Within right
  within' : right.Within left
  distinct : left.RowsDistinct
  distinct' : right.RowsDistinct

/-- The cells of symbols with the same name have the same entry. -/
structure Mirrors (names known : SymbolTable) (left right : Table) : Prop where
  size_eq : left.size = right.size
  get?_eq : ∀ (state : Nat) {x x' : Symbol}, SameName names known x x' →
    left.get? state x = right.get? state x'

end Table

variable {names known third : SymbolTable} {rules others more : List Rule}

/-! ## Names in three tables -/

theorem SymbolTable.SameName.trans {x y z : Symbol} (early : SameName names known x y)
    (late : SameName known third y z) : SameName names third x z := by
  obtain ⟨name, named, isKnown⟩ := early
  obtain ⟨name', isKnown', named'⟩ := late
  cases isKnown.symm.trans isKnown'
  exact ⟨name, named, named'⟩

/-- Lists related to a list in between are related. -/
theorem forall₂_trans {α β γ : Type} {early : α → β → Prop} {late : β → γ → Prop}
    {whole : α → γ → Prop} (trans : ∀ a b c, early a b → late b c → whole a c) {left : List α}
    {middle : List β} {right : List γ} (areEarly : List.Forall₂ early left middle)
    (areLate : List.Forall₂ late middle right) : List.Forall₂ whole left right := by
  induction areEarly generalizing right with
  | nil =>
      cases areLate
      exact .nil
  | cons first _ ih =>
      cases areLate with
      | cons second rest => exact .cons (trans _ _ _ first second) (ih rest)

theorem RulesAlike.trans {rule rule' rule'' : Rule} (early : RulesAlike names known rule rule')
    (late : RulesAlike known third rule' rule'') : RulesAlike names third rule rule'' where
  lhs := early.lhs.trans late.lhs
  rhs := forall₂_trans (fun _ _ _ first second => first.trans second) early.rhs late.rhs
  options_eq := early.options_eq.trans late.options_eq
  chained_eq := early.chained_eq.trans late.chained_eq
  unwrapsSingle_eq := early.unwrapsSingle_eq.trans late.unwrapsSingle_eq

section

variable {entry entry' entry'' : Entry}

theorem EntriesAlike.symm (alike : EntriesAlike names known rules others entry entry') :
    EntriesAlike known names others rules entry' entry := by
  cases alike with
  | shift next => exact .shift next
  | goto next => exact .goto next
  | accept => exact .accept
  | reduce found found' alike => exact .reduce found' found alike.symm

theorem EntriesAlike.trans (early : EntriesAlike names known rules others entry entry')
    (late : EntriesAlike known third others more entry' entry'') :
    EntriesAlike names third rules more entry entry'' := by
  cases early with
  | shift next =>
      cases late
      exact .shift next
  | goto next =>
      cases late
      exact .goto next
  | accept =>
      cases late
      exact .accept
  | reduce found found' alike =>
      cases late with
      | reduce again found'' alike' =>
          cases found'.symm.trans again
          exact .reduce found found'' (alike.trans alike')

theorem EntriesAlike.isAction_eq (alike : EntriesAlike names known rules others entry entry') :
    entry.isAction = entry'.isAction := by
  cases alike <;> rfl

end

namespace Table

variable {left middle right : Table} {state : Nat} {symbol symbol' : Symbol} {entry : Entry}

/-! ## Tables that agree -/

theorem Within.trans (early : left.Within middle) (late : middle.Within right) :
    left.Within right := by
  intro state symbol entry found
  obtain ⟨symbol', entry', same, found', alike⟩ := early state symbol entry found
  obtain ⟨symbol'', entry'', same', found'', alike'⟩ := late state symbol' entry' found'
  exact ⟨symbol'', entry'', same.trans same', found'', alike.trans alike'⟩

theorem Agree.symm (agree : left.Agree right) : right.Agree left :=
  ⟨agree.within', agree.within, agree.distinct', agree.distinct⟩

theorem Agree.trans (early : left.Agree middle) (late : middle.Agree right) : left.Agree right :=
  ⟨early.within.trans late.within, late.within'.trans early.within', early.distinct,
    late.distinct'⟩

theorem Agree.get?_eq_some (agree : left.Agree right)
    (same : SameName left.symbols right.symbols symbol symbol')
    (found : left.get? state symbol = some entry) :
    ∃ entry', right.get? state symbol' = some entry' ∧
      EntriesAlike left.symbols right.symbols left.rules right.rules entry entry' := by
  obtain ⟨other, entry', sameOther, found', alike⟩ := agree.within _ _ _ found
  rw [sameOther.right_unique same] at found'
  exact ⟨entry', found', alike⟩

theorem Agree.get?_eq_none (agree : left.Agree right)
    (same : SameName left.symbols right.symbols symbol symbol')
    (missing : left.get? state symbol = none) : right.get? state symbol' = none := by
  cases found' : right.get? state symbol' with
  | none => rfl
  | some entry' =>
      obtain ⟨entry, found, _⟩ := agree.symm.get?_eq_some same.symm found'
      cases missing.symm.trans found

theorem nodup_expected (distinct : left.RowsDistinct) (state : Nat) :
    (left.expected state).Nodup := by
  unfold expected
  cases found : left.rows[state]? with
  | none => exact List.nodup_nil
  | some row =>
      have filtered := (List.filter_sublist (p := fun cell => cell.2.isAction) (l := row)).map
        Prod.fst
      exact (distinct row (List.mem_of_getElem? found)).sublist filtered

theorem Agree.exists_expected (agree : left.Agree right)
    (expected : symbol ∈ left.expected state) :
    ∃ symbol', SameName left.symbols right.symbols symbol symbol' ∧
      symbol' ∈ right.expected state := by
  obtain ⟨entry, found, action⟩ := (mem_expected_iff agree.distinct).1 expected
  obtain ⟨symbol', entry', same, found', alike⟩ := agree.within _ _ _ found
  exact ⟨symbol', same,
    (mem_expected_iff agree.distinct').2 ⟨entry', found', alike.isAction_eq ▸ action⟩⟩

/-- What is expected in a state has distinct names. -/
theorem Agree.nodup_display_expected (agree : left.Agree right) (state : Nat) :
    ((left.expected state).map left.symbols.display).Nodup := by
  refine (nodup_expected agree.distinct state).map_on fun symbol member other member' equal => ?_
  obtain ⟨_, ⟨name, named, _⟩, _⟩ := agree.exists_expected member
  obtain ⟨_, ⟨name', named', _⟩, _⟩ := agree.exists_expected member'
  rw [SymbolTable.display_of_name? named, SymbolTable.display_of_name? named'] at equal
  exact SymbolTable.eq_of_name? named (equal ▸ named')

theorem Agree.display_mem_expected (agree : left.Agree right) {name : String}
    (member : name ∈ (left.expected state).map left.symbols.display) :
    name ∈ (right.expected state).map right.symbols.display := by
  obtain ⟨symbol, expected, rfl⟩ := List.mem_map.1 member
  obtain ⟨symbol', same, expected'⟩ := agree.exists_expected expected
  exact List.mem_map.2 ⟨symbol', expected', same.display_eq.symm⟩

/-- The same names are expected in a state, in some order. -/
theorem Agree.expected (agree : left.Agree right) (state : Nat) :
    ((left.expected state).map left.symbols.display).Perm
      ((right.expected state).map right.symbols.display) :=
  (List.perm_ext_iff_of_nodup (agree.nodup_display_expected state)
    (agree.symm.nodup_display_expected state)).2 fun _ =>
      ⟨agree.display_mem_expected, agree.symm.display_mem_expected⟩

/-! ## Tables that are alike cell by cell -/

theorem Alike.symm (alike : left.Alike right) : right.Alike left :=
  alike.flip.imp fun _ _ rows => rows.flip.imp fun _ _ cell => ⟨cell.symbol.symm, cell.entry.symm⟩

theorem Alike.rowsDistinct (alike : left.Alike right) (distinct' : right.RowsDistinct) :
    left.RowsDistinct := by
  intro row isRow
  obtain ⟨row', isRow', rows⟩ := exists_mem_of_forall₂ alike isRow
  have keys : List.Forall₂ (SameName left.symbols right.symbols) (row.map Prod.fst)
      (row'.map Prod.fst) := by
    rw [List.forall₂_map_left_iff, List.forall₂_map_right_iff]
    exact rows.imp fun _ _ cell => cell.symbol
  exact (List.rel_nodup (SymbolTable.sameName_biUnique _ _) keys).2 (distinct' row' isRow')

theorem Alike.within (alike : left.Alike right) (distinct : left.RowsDistinct)
    (distinct' : right.RowsDistinct) : left.Within right := by
  intro state symbol entry found
  obtain ⟨row, isRow, inRow⟩ := get?_eq_some.1 found
  obtain ⟨row', isRow', rows⟩ := exists_getElem?_of_forall₂ alike isRow
  have inside := (lookup_eq_some_iff_mem (distinct row (List.mem_of_getElem? isRow))).1 inRow
  obtain ⟨cell', inside', cell⟩ := exists_mem_of_forall₂ rows inside
  have inRow' := (lookup_eq_some_iff_mem (distinct' row' (List.mem_of_getElem? isRow'))).2 inside'
  exact ⟨cell'.1, cell'.2, cell.symbol, get?_eq_some.2 ⟨row', isRow', inRow'⟩, cell.entry⟩

/-- Tables that are alike agree. -/
theorem Alike.agree (alike : left.Alike right) (distinct' : right.RowsDistinct) :
    left.Agree right := by
  have distinct := alike.rowsDistinct distinct'
  exact ⟨alike.within distinct distinct', alike.symm.within distinct' distinct, distinct, distinct'⟩

/-! ## Writing in step -/

section

variable {x x' : Symbol}

theorem mirrors_blank (symbols symbols' : SymbolTable) (rules rules' : List Rule) (size : Nat) :
    (blank symbols rules size).Mirrors names known (blank symbols' rules' size) where
  size_eq := size_blank.trans size_blank.symm
  get?_eq _ _ _ _ := (get?_blank rules size).trans (get?_blank rules' size).symm

theorem size_setAll (table : Table) (state : Nat) (entry : Entry) (symbols : List Symbol) :
    (table.setAll state entry symbols).size = table.size := by
  induction symbols generalizing table with
  | nil => rfl
  | cons symbol rest ih => exact (ih _).trans (size_write table ⟨state, symbol, entry⟩)

/-- The cells of all symbols of the list get the entry, in whichever order they are listed. -/
theorem get?_setAll (table : Table) (target : Nat) (entry : Entry) (symbols : List Symbol)
    (state : Nat) (symbol : Symbol) :
    (table.setAll target entry symbols).get? state symbol =
      if state = target ∧ symbol ∈ symbols ∧ state < table.size then some entry
      else table.get? state symbol := by
  induction symbols generalizing table with
  | nil =>
      rw [if_neg fun all => absurd all.2.1 List.not_mem_nil]
      rfl
  | cons first rest ih =>
      have size := size_write table ⟨target, first, entry⟩
      have written := get?_write table ⟨target, first, entry⟩ state symbol
      show ((table.write ⟨target, first, entry⟩).setAll target entry rest).get? state symbol = _
      rw [ih, written, size]
      by_cases later : state = target ∧ symbol ∈ rest ∧ state < table.size
      · rw [if_pos later, if_pos ⟨later.1, List.mem_cons_of_mem _ later.2.1, later.2.2⟩]
      · rw [if_neg later]
        refine if_congr ?_ rfl rfl
        rw [List.mem_cons]
        constructor
        · exact fun ⟨here, isFirst, bound⟩ => ⟨here, .inl isFirst, bound⟩
        · rintro ⟨here, isFirst | inRest, bound⟩
          · exact ⟨here, isFirst, bound⟩
          · exact absurd ⟨here, inRest, bound⟩ later

/-- An entry is written under symbols with the same names on both sides, in any order. -/
theorem Mirrors.setAll (mirrors : left.Mirrors names known right) (target : Nat) (entry : Entry)
    {symbols symbols' : List Symbol}
    (same : ∀ {x x'}, SameName names known x x' → (x ∈ symbols ↔ x' ∈ symbols')) :
    (left.setAll target entry symbols).Mirrors names known
      (right.setAll target entry symbols') where
  size_eq := by rw [size_setAll, size_setAll, mirrors.size_eq]
  get?_eq state x x' sameName := by
    rw [get?_setAll, get?_setAll, mirrors.get?_eq state sameName, mirrors.size_eq]
    exact if_congr (and_congr_right fun _ => and_congr_left fun _ => same sameName) rfl rfl

theorem Mirrors.set (mirrors : left.Mirrors names known right)
    (same : SameName names known x x') (target : Nat) (entry : Entry) :
    (left.set target x entry).Mirrors names known (right.set target x' entry) := by
  have single : ∀ {y y'}, SameName names known y y' → (y ∈ [x] ↔ y' ∈ [x']) := by
    intro y y' sameName
    rw [List.mem_singleton, List.mem_singleton]
    exact sameName.eq_iff same
  exact mirrors.setAll target entry single

end

/-! ## Tables of automata that are alike -/

section

variable {g g' : Grammar} {automaton automaton' : Automaton}

theorem lookup_alike {edges edges' : List (Symbol × Nat)}
    (alike : List.Forall₂ (Exploration.EdgesAlike (SameName names known)) edges edges')
    (same : SameName names known symbol symbol') : edges.lookup symbol = edges'.lookup symbol' := by
  induction alike with
  | nil => rfl
  | @cons edge edge' _ _ first _ ih =>
      have equal : (symbol == edge.1) = (symbol' == edge'.1) := by
        rw [Bool.eq_iff_iff, beq_iff_eq, beq_iff_eq]
        exact same.eq_iff first.1
      rw [List.lookup_cons, List.lookup_cons, equal, first.2, ih]

theorem Mirrors.fillItem (mirrors : left.Mirrors names known right)
    (alike : Grammar.Alike names known g g') {item item' : Item}
    (items : item.Alike names known item') {edges edges' : List (Symbol × Nat)}
    (areEdges : List.Forall₂ (Exploration.EdgesAlike (SameName names known)) edges edges')
    (state : Nat) :
    (fillItem g state edges left item).Mirrors names known
      (fillItem g' state edges' right item') := by
  unfold Table.fillItem
  rw [← items.core_eq]
  cases next : item.core.nextSymbol g with
  | none =>
      rw [alike.nextSymbol_eq_none next]
      dsimp only
      split
      · exact mirrors.set
          (SymbolTable.sameName_of_isReserved names known Grammar.isReserved_endOfInput) state _
      · exact mirrors.setAll state _ items.lookahead
  | some symbol =>
      obtain ⟨symbol', next', same⟩ := alike.nextSymbol next
      rw [next']
      dsimp only
      rw [alike.isTerminal_eq same, lookup_alike areEdges same]
      split
      · split
        · exact mirrors.set same state _
        · exact mirrors
      · exact mirrors

theorem Mirrors.fillEdge (mirrors : left.Mirrors names known right)
    (alike : Grammar.Alike names known g g') {edge edge' : Symbol × Nat}
    (edges : Exploration.EdgesAlike (SameName names known) edge edge') (state : Nat) :
    (fillEdge g state left edge).Mirrors names known (fillEdge g' state right edge') := by
  unfold Table.fillEdge
  rw [alike.isNonterminal_eq edges.1, edges.2]
  split
  · exact mirrors.set edges.1 state _
  · exact mirrors

theorem Mirrors.fillState (mirrors : left.Mirrors names known right)
    (alike : Grammar.Alike names known g g') {entry entry' : AutomatonState × Nat}
    (states : entry.1.Alike names known entry'.1 ∧ entry.2 = entry'.2) :
    (fillState g left entry).Mirrors names known (fillState g' right entry') := by
  obtain ⟨same, index⟩ := states
  unfold Table.fillState
  dsimp only
  rw [index]
  refine List.rel_foldl (fun _ _ mirrors _ _ edges => mirrors.fillEdge alike edges entry'.2) ?_
    same.edges
  refine List.rel_foldl (fun _ _ mirrors _ _ items => ?_) mirrors (ItemSet.Alike.items same.items)
  exact mirrors.fillItem alike items same.edges entry'.2

theorem forall₂_zipIdx {α β : Type} {relates : α → β → Prop} {as : List α} {bs : List β}
    (related : List.Forall₂ relates as bs) (number : Nat) :
    List.Forall₂ (fun a b => relates a.1 b.1 ∧ a.2 = b.2) (as.zipIdx number)
      (bs.zipIdx number) := by
  induction related generalizing number with
  | nil => exact .nil
  | cons first _ ih => exact .cons ⟨first, rfl⟩ (ih (number + 1))

/-- The tables of automata that are alike have the same entries under the same names. -/
theorem mirrors_ofAutomaton (alike : Grammar.Alike names known g g')
    (same : automaton.Alike names known automaton') (symbols symbols' : SymbolTable) :
    (ofAutomaton g symbols automaton).Mirrors names known (ofAutomaton g' symbols' automaton') := by
  have size : automaton.size = automaton'.size := same.length_eq
  unfold ofAutomaton
  rw [size]
  exact List.rel_foldl (fun _ _ mirrors _ _ states => mirrors.fillState alike states)
    (mirrors_blank symbols symbols' g.rules g'.rules automaton'.size) (forall₂_zipIdx same 0)

/-- Something is said for symbols alone that have a counterpart. -/
theorem exists_sameName_of_prescribes (same : automaton.Alike names known automaton')
    (prescribes : automaton.Prescribes g state symbol entry) :
    ∃ symbol', SameName names known symbol symbol' := by
  have edge {target : Nat} (edge : automaton.Edge state symbol target) :
      ∃ symbol', SameName names known symbol symbol' := by
    obtain ⟨found, isState, isTarget⟩ := edge
    obtain ⟨found', _, states⟩ := exists_getElem?_of_forall₂ same isState
    obtain ⟨front, back, isEdges, _⟩ := List.lookup_eq_some_iff.1 isTarget
    have member : (symbol, target) ∈ found.edges := isEdges ▸ List.mem_append_cons_self
    obtain ⟨edge', _, edges⟩ := exists_mem_of_forall₂ states.edges member
    exact ⟨_, edges.1⟩
  cases prescribes with
  | shift _ _ _ isEdge => exact edge isEdge
  | goto _ isEdge => exact edge isEdge
  | accept =>
      exact ⟨_, SymbolTable.sameName_of_isReserved names known Grammar.isReserved_endOfInput⟩
  | @reduce core _ _ _ looks =>
      obtain ⟨found, isState⟩ := Automaton.getElem?_of_has (ItemSet.has_of_mem_lookahead looks)
      rw [Automaton.itemsAt_of_getElem? isState] at looks
      obtain ⟨found', _, states⟩ := exists_getElem?_of_forall₂ same isState
      obtain ⟨symbol', sameSymbol, _⟩ := states.items.below.looks core symbol looks
      exact ⟨symbol', sameSymbol⟩

theorem within_ofAutomaton {limit : Option Nat} (alike : Grammar.Alike names known g g')
    (built : Automaton.generate g limit = .ok automaton)
    (same : automaton.Alike names known automaton') :
    (ofAutomaton g names automaton).Within (ofAutomaton g' known automaton') := by
  intro state symbol entry found
  have prescribes := prescribes_of_get? (Automaton.canonical_of_generate built) found
  obtain ⟨symbol', sameName⟩ := exists_sameName_of_prescribes same prescribes
  rw [symbols_ofAutomaton, symbols_ofAutomaton, rules_ofAutomaton, rules_ofAutomaton]
  refine ⟨symbol', entry, sameName,
    ((mirrors_ofAutomaton alike same names known).get?_eq state sameName).symm.trans found, ?_⟩
  cases entry with
  | shift next => exact .shift next
  | goto next => exact .goto next
  | accept => exact .accept
  | reduce id =>
      obtain ⟨rule, isRule⟩ := exists_rule_of_prescribes prescribes alike.formed built
      obtain ⟨rule', isRule', rules⟩ := alike.exists_rule isRule
      exact .reduce isRule isRule' rules

/-- The tables of automata that are alike agree. -/
theorem agree_ofAutomaton {limit limit' : Option Nat} (alike : Grammar.Alike names known g g')
    (built : Automaton.generate g limit = .ok automaton)
    (built' : Automaton.generate g' limit' = .ok automaton')
    (same : automaton.Alike names known automaton') :
    (ofAutomaton g names automaton).Agree (ofAutomaton g' known automaton') :=
  ⟨within_ofAutomaton alike built same, within_ofAutomaton alike.symm built' same.symm,
    rowsDistinct_ofAutomaton, rowsDistinct_ofAutomaton⟩

end

end Table

end ParserGenerator
