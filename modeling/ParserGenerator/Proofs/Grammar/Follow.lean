import ParserGenerator.Proofs.Grammar.Stable
import ParserGenerator.Proofs.Grammar.WellFormed

/-!
# What follows the start

FOLLOW of a symbol grows only by rules that use the symbol on their right-hand side. No rule uses
the reserved start, so that nothing but the end of the input follows it.

Results: `Grammar.WellFormed.follow?_start`.
-/

namespace ParserGenerator

namespace GrammarSets

theorem follow_growFollow {isNonterminal : Symbol → Bool} {trailer : SymbolSet}
    {sets : GrammarSets} {symbol : Symbol} {string : SymbolString} (absent : symbol ∉ string) :
    (growFollow isNonterminal trailer sets string).2.follow.get? symbol =
      sets.follow.get? symbol := by
  induction string with
  | nil => rfl
  | cons first rest ih =>
      rw [List.mem_cons, not_or] at absent
      obtain ⟨differs, notInRest⟩ := absent
      have later := ih notInRest
      simp only [growFollow]
      split
      · rw [SetsBySymbol.get?_grow, later]
        simp [differs]
      · exact later

theorem follow_applyRule {isNonterminal : Symbol → Bool} {sets : GrammarSets} {symbol : Symbol}
    {rule : Rule} (absent : symbol ∉ rule.rhs) :
    (applyRule isNonterminal sets rule).follow.get? symbol = sets.follow.get? symbol :=
  follow_growFollow absent

theorem follow_initial {terminals nonterminals : List Symbol} (absent : Symbol.start ∉ terminals)
    (present : Symbol.start ∈ nonterminals) :
    (initial terminals nonterminals).follow.get? Symbol.start =
      some (OrderedSet.singleton Symbol.endOfInput) := by
  have skip :
      (terminals.map fun symbol => (symbol, (∅ : SymbolSet))).lookup Symbol.start = none := by
    rw [List.lookup_eq_none_iff]
    intro entry member
    obtain ⟨symbol, inList, equal⟩ := List.mem_map.1 member
    rw [← equal, bne_iff_ne]
    exact fun same => absent (same ▸ inList)
  show (_ ++ _ : SetsBySymbol).lookup Symbol.start = _
  rw [List.lookup_append, skip, Option.none_or]
  induction nonterminals with
  | nil => cases present
  | cons symbol rest ih =>
      rw [List.map_cons, List.lookup_cons]
      by_cases equal : symbol = Symbol.start
      · rw [equal, beq_self_eq_true, if_pos rfl]
      · rw [beq_eq_false_iff_ne.2 (Ne.symm equal)]
        exact ih ((List.mem_cons.1 present).resolve_left (Ne.symm equal))

end GrammarSets

namespace Grammar

variable {g : Grammar}

theorem WellFormed.follow?_start (formed : g.WellFormed) :
    g.follow? Symbol.start = some (OrderedSet.singleton Symbol.endOfInput) := by
  have nonterminal : g.isNonterminal Symbol.start = true :=
    isNonterminal_lhs (mem_rules.2 (.inl rfl))
  have notTerminal : Symbol.start ∉ g.terminals := by
    intro terminal
    rcases mem_terminals.1 terminal with isEnd | ⟨_, notDefined⟩
    · cases isEnd
    · rw [nonterminal] at notDefined
      cases notDefined
  have before := GrammarSets.follow_initial notTerminal (mem_nonterminals.2 nonterminal)
  unfold follow?
  rw [formed.sets_eq]
  exact @GrammarSets.ofRules_induction _ _ _
    (fun sets => sets.follow.get? Symbol.start = some (OrderedSet.singleton Symbol.endOfInput))
    (fun rule member sets sofar =>
      (GrammarSets.follow_applyRule (formed.start_not_mem_rhs member)).trans sofar) before

end Grammar

end ParserGenerator
