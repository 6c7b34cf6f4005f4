import ParserGenerator.Proofs.Build.Reload
import ParserGenerator.Proofs.Table.Agree

/-!
# One grammar under different names

A grammar that is read behind other names has other symbols, and a table that is read from its text
has other symbols and numbers of rules. Both say the same by names as the table that was built
first.

Results: `Table.exists_agree_of_build` and `Table.exists_agree_of_parse`.
-/

namespace ParserGenerator

open SymbolTable (SameName)

variable {names known later : SymbolTable} {g g' : Grammar}

/-- Grammars that mean one named grammar are alike. -/
theorem NamedGrammar.Means.alike {named : NamedGrammar} (means : named.Means names g)
    (means' : named.Means known g') (formed : g.WellFormed) (formed' : g'.WellFormed) :
    Grammar.Alike names known g g' := by
  have user : List.Forall₂ (RulesAlike names known) g.userRules g'.userRules := by
    refine forall₂_trans ?_ means.rules.flip means'.rules
    exact fun _ _ _ isRule isRule' => NamedRule.Means.alike isRule isRule'
  have start : SameName names known g.startSymbol g'.startSymbol :=
    ⟨named.start, SymbolTable.get?_eq_some_iff.1 means.start,
      SymbolTable.get?_eq_some_iff.1 means'.start⟩
  have startRule : RulesAlike names known (Rule.plain Symbol.start [g.startSymbol])
      (Rule.plain Symbol.start [g'.startSymbol]) :=
    ⟨SymbolTable.sameName_of_isReserved names known Grammar.isReserved_start, .cons start .nil,
      rfl, rfl, rfl⟩
  exact ⟨formed, formed', .cons startRule user⟩

namespace Table

variable {limit : Option Nat} {format : GrammarFormat} {source : String} {table : Table}

/-- A table that is built once is built behind any other names, and says the same by names. -/
theorem exists_agree_of_build
    (built : (build format limit source).outcome names = (.ok table, later))
    (known : SymbolTable) :
    ∃ again last, (build format limit source).outcome known = (.ok again, last) ∧
      last.Extends known ∧ again.symbols = last ∧ again.Agree table := by
  obtain ⟨g, read, made⟩ := outcome_build_eq_ok.1 built
  obtain ⟨named, _, makes⟩ := Grammar.exists_named_of_read read
  obtain ⟨_, _, readHere, _, formed, means⟩ := makes names
  cases read.symm.trans readHere
  obtain ⟨automaton, generated, rfl⟩ := exists_automaton_of_ofGrammar made
  obtain ⟨g', last, readThere, grown, formed', means'⟩ := makes known
  have alike := means'.alike means formed' formed
  obtain ⟨automaton', generated', same⟩ :=
    Automaton.exists_alike_of_generate alike.symm generated
  have made' : ofGrammar g' last limit = .ok (ofAutomaton g' last automaton') :=
    ofGrammar_of_generate generated'
  exact ⟨_, last, outcome_build_eq_ok.2 ⟨g', readThere, made'⟩, grown, symbols_ofAutomaton,
    agree_ofAutomaton alike generated' generated same.symm⟩

/-- A table that is built and written is read behind any other names, and says the same by names. -/
theorem exists_agree_of_parse
    (built : (build format limit source).outcome names = (.ok table, later))
    (small : table.size < Text.stateBound) (free : table.FlagFree) :
    ∃ text, table.text? = some text ∧ ∀ known, ∃ again last,
      (parse text).outcome known = (.ok again, last) ∧ last.Extends known ∧
        again.symbols = last ∧ again.Agree table := by
  obtain ⟨g, read, made⟩ := outcome_build_eq_ok.1 built
  obtain ⟨named, areWords, makes⟩ := Grammar.exists_named_of_read read
  obtain ⟨_, _, readHere, _, formed, means⟩ := makes names
  cases read.symm.trans readHere
  obtain ⟨automaton, generated, rfl⟩ := exists_automaton_of_ofGrammar made
  rw [size_ofAutomaton] at small
  have writable := writable_ofAutomaton formed generated (means.legible areWords formed) small free
  refine ⟨_, writable.legible.text?_eq, fun known => ?_⟩
  obtain ⟨again, last, readBack, grows, isLast, alike, _⟩ := writable.yields_parse known
  exact ⟨again, last, readBack, grows.grown, isLast, alike.agree rowsDistinct_ofAutomaton⟩

end Table

end ParserGenerator
