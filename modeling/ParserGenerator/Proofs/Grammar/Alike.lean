import ParserGenerator.Proofs.Automaton.ValidItems
import ParserGenerator.Proofs.Grammar.Following
import ParserGenerator.Proofs.Table.Alike

/-!
# Grammars that say the same by names

Two grammars with symbols of their own are alike when their rules say the same by names, one by one.
What is derived by one of them is derived by the other one under the names, so that their FIRST sets
hold the same names. Everything is shown in one direction only, as being alike is symmetric.

Results: `Grammar.Alike.derives` and `Grammar.Alike.firstOf`.
-/

namespace ParserGenerator

open SymbolTable (SameName)

variable {names known : SymbolTable}

/-- The strings have the same names. -/
def StringsAlike (names known : SymbolTable) (left right : SymbolString) : Prop :=
  List.Forall₂ (SameName names known) left right

/-- Well-formed grammars with rules that say the same by names. -/
structure Grammar.Alike (names known : SymbolTable) (g g' : Grammar) : Prop where
  formed : g.WellFormed
  formed' : g'.WellFormed
  rules : List.Forall₂ (RulesAlike names known) g.rules g'.rules

theorem StringsAlike.symm {left right : SymbolString}
    (alike : StringsAlike names known left right) :
    StringsAlike known names right left :=
  alike.flip.imp fun _ _ same => SameName.symm same

theorem RulesAlike.symm {rule rule' : Rule} (alike : RulesAlike names known rule rule') :
    RulesAlike known names rule' rule where
  lhs := alike.lhs.symm
  rhs := StringsAlike.symm alike.rhs
  options_eq := alike.options_eq.symm
  chained_eq := alike.chained_eq.symm
  unwrapsSingle_eq := alike.unwrapsSingle_eq.symm

/-- A string that is put together from two parts corresponds to a string of two parts. -/
theorem StringsAlike.split {front back whole : SymbolString}
    (alike : StringsAlike names known (front ++ back) whole) :
    ∃ front' back', whole = front' ++ back' ∧ StringsAlike names known front front' ∧
      StringsAlike names known back back' := by
  refine ⟨whole.take front.length, whole.drop front.length,
    (List.take_append_drop front.length whole).symm, ?_, ?_⟩
  · have areFront := List.forall₂_take front.length alike
    rwa [List.take_left] at areFront
  · have areBack := List.forall₂_drop front.length alike
    rwa [List.drop_left] at areBack

namespace Grammar.Alike

variable {g g' : Grammar} {symbol symbol' : Symbol} {core : ItemCore}

theorem symm (alike : Alike names known g g') : Alike known names g' g where
  formed := alike.formed'
  formed' := alike.formed
  rules := alike.rules.flip.imp fun _ _ same => RulesAlike.symm same

section

variable (alike : Alike names known g g')
include alike

/-! ## Rules and cores -/

theorem exists_rule {id : Nat} {rule : Rule} (found : g.rule? id = some rule) :
    ∃ rule', g'.rule? id = some rule' ∧ RulesAlike names known rule rule' :=
  exists_getElem?_of_forall₂ alike.rules found

theorem nextSymbol (next : core.nextSymbol g = some symbol) :
    ∃ symbol', core.nextSymbol g' = some symbol' ∧ SameName names known symbol symbol' := by
  obtain ⟨rule, found, atMarker⟩ := ItemCore.nextSymbol_eq_some.1 next
  obtain ⟨rule', found', same⟩ := alike.exists_rule found
  obtain ⟨symbol', atMarker', sameSymbol⟩ := exists_getElem?_of_forall₂ same.rhs atMarker
  exact ⟨symbol', ItemCore.nextSymbol_eq_some.2 ⟨rule', found', atMarker'⟩, sameSymbol⟩

theorem nextSymbol_of_sameName (same : SameName names known symbol symbol')
    (next : core.nextSymbol g = some symbol) : core.nextSymbol g' = some symbol' := by
  obtain ⟨other, next', same'⟩ := alike.nextSymbol next
  rw [next', same.right_unique same']

theorem rest {rule : Rule} (found : g.rule? core.rule = some rule) :
    StringsAlike names known (core.rest g) (core.rest g') := by
  obtain ⟨rule', found', same⟩ := alike.exists_rule found
  rw [ItemCore.rest_eq found, ItemCore.rest_eq found']
  exact List.forall₂_drop (core.marker + 1) same.rhs

theorem exists_mem_rulesOf (same : SameName names known symbol symbol') {id : Nat} {rule : Rule}
    (ofSymbol : (id, rule) ∈ g.rulesOf symbol) :
    ∃ rule', (id, rule') ∈ g'.rulesOf symbol' := by
  obtain ⟨found, isLhs⟩ := mem_rulesOf.1 ofSymbol
  obtain ⟨rule', found', sameRule⟩ := alike.exists_rule found
  refine ⟨rule', mem_rulesOf.2 ⟨found', ?_⟩⟩
  exact (isLhs ▸ sameRule.lhs).right_unique same

theorem isNonterminal (same : SameName names known symbol symbol')
    (nonterminal : g.isNonterminal symbol = true) : g'.isNonterminal symbol' = true := by
  obtain ⟨rule, member, isLhs⟩ := isNonterminal_iff.1 nonterminal
  obtain ⟨rule', member', sameRule⟩ := exists_mem_of_forall₂ alike.rules member
  exact isNonterminal_iff.2 ⟨rule', member', (isLhs ▸ sameRule.lhs).right_unique same⟩

end

theorem nextSymbol_eq_none (alike : Alike names known g g') (finished : core.nextSymbol g = none) :
    core.nextSymbol g' = none := by
  rw [Option.eq_none_iff_forall_not_mem]
  intro symbol' next'
  obtain ⟨symbol, next, _⟩ := alike.symm.nextSymbol next'
  cases finished.symm.trans next

theorem isNonterminal_eq (alike : Alike names known g g')
    (same : SameName names known symbol symbol') :
    g.isNonterminal symbol = g'.isNonterminal symbol' :=
  Bool.eq_iff_iff.2 ⟨alike.isNonterminal same, alike.symm.isNonterminal same.symm⟩

/-- Terminals correspond to terminals. -/
theorem exists_terminal (alike : Alike names known g g') (terminal : symbol ∈ g.terminals) :
    ∃ symbol', SameName names known symbol symbol' ∧ symbol' ∈ g'.terminals := by
  rcases mem_terminals.1 terminal with rfl | ⟨⟨rule, member, inRhs⟩, notDefined⟩
  · exact ⟨_, SymbolTable.sameName_of_isReserved names known isReserved_endOfInput,
      mem_terminals.2 (.inl rfl)⟩
  · obtain ⟨rule', member', sameRule⟩ := exists_mem_of_forall₂ alike.rules member
    obtain ⟨symbol', inRhs', same⟩ := exists_mem_of_forall₂ sameRule.rhs inRhs
    refine ⟨symbol', same, mem_terminals.2 (.inr ⟨⟨rule', member', inRhs'⟩, ?_⟩)⟩
    rw [← alike.isNonterminal_eq same, notDefined]

theorem isTerminal (alike : Alike names known g g') (same : SameName names known symbol symbol')
    (terminal : g.isTerminal symbol = true) : g'.isTerminal symbol' = true := by
  obtain ⟨other, sameOther, terminal'⟩ :=
    alike.exists_terminal ((isTerminal_iff alike.formed).1 terminal)
  rw [same.right_unique sameOther]
  exact (isTerminal_iff alike.formed').2 terminal'

theorem isTerminal_eq (alike : Alike names known g g')
    (same : SameName names known symbol symbol') : g.isTerminal symbol = g'.isTerminal symbol' :=
  Bool.eq_iff_iff.2 ⟨alike.isTerminal same, alike.symm.isTerminal same.symm⟩

/-! ## Derivations and FIRST -/

section

variable (alike : Alike names known g g')
include alike

theorem derivesOnce {first last first' : SymbolString} (once : DerivesOnce g.rules first last)
    (same : StringsAlike names known first first') :
    ∃ last', StringsAlike names known last last' ∧ DerivesOnce g'.rules first' last' := by
  cases once with
  | @intro rule member front back =>
      obtain ⟨front', rest', rfl, areFront, areRest⟩ := same.split
      cases areRest with
      | @cons _ lhs' _ back' isLhs areBack =>
          obtain ⟨rule', member', sameRule⟩ := exists_mem_of_forall₂ alike.rules member
          rw [isLhs.right_unique sameRule.lhs]
          exact ⟨_, List.rel_append areFront (List.rel_append sameRule.rhs areBack),
            .intro member' front' back'⟩

/-- What is derived by one grammar is derived by the other one under the names. -/
theorem derives {first last first' : SymbolString} (derived : Derives g.rules first last)
    (same : StringsAlike names known first first') :
    ∃ last', StringsAlike names known last last' ∧ Derives g'.rules first' last' := by
  induction derived generalizing first' with
  | refl => exact ⟨first', same, .refl first'⟩
  | step once _ ih =>
      obtain ⟨middle', sameMiddle, once'⟩ := alike.derivesOnce once same
      obtain ⟨last', sameLast, later⟩ := ih sameMiddle
      exact ⟨last', sameLast, .step once' later⟩

/-- FIRST of strings with the same names holds the same names. -/
theorem firstOf {string string' : SymbolString} (same : StringsAlike names known string string')
    {x : Symbol} (member : x ∈ g.firstOf string) :
    ∃ x', SameName names known x x' ∧ x' ∈ g'.firstOf string' := by
  rcases alike.formed.firstOf_subset member with terminal | rfl
  · obtain ⟨rest, derived⟩ := (alike.formed.mem_firstOf_iff terminal).1 member
    obtain ⟨last', sameLast, derived'⟩ := alike.derives derived same
    cases sameLast with
    | @cons _ x' _ rest' sameX _ =>
        obtain ⟨other, sameOther, terminal'⟩ := alike.exists_terminal terminal
        rw [← sameX.right_unique sameOther] at terminal'
        exact ⟨x', sameX, (alike.formed'.mem_firstOf_iff terminal').2 ⟨rest', derived'⟩⟩
  · obtain ⟨last', sameLast, derived'⟩ :=
      alike.derives (alike.formed.epsilon_mem_firstOf_iff.1 member) same
    cases sameLast
    exact ⟨_, SymbolTable.sameName_of_isReserved names known isReserved_epsilon,
      alike.formed'.epsilon_mem_firstOf_iff.2 derived'⟩

end

end Grammar.Alike

end ParserGenerator
