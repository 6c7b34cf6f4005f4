import ParserGenerator.Proofs.Automaton.Termination

/-!
# Limits on the number of states

A limit on the number of states is exact: an automaton that has no more states is built as without
the limit, state by state and edge by edge, and any other is refused. The first state is found
before the limit is looked at, which makes no difference: the edge for the start symbol leads out of
it and never back, so every automaton has a second state, and not one keeps within a limit of none.

Results: `Automaton.generate_limit_exact`.
-/

namespace ParserGenerator.Automaton

variable {g : Grammar} {automaton : Automaton} {limit : Nat}

/-! ## Sizes -/

theorem size_ofExploration {found : Exploration ItemSet Symbol}
    (complete : found.isComplete = true) : (ofExploration found).size = found.nodes.length := by
  have lengths := beq_iff_eq.1 complete
  unfold ofExploration size
  rw [List.length_map, List.length_zip, ← lengths, Nat.min_self]

/-- The edge for the start symbol leads from the first state to another one. -/
theorem two_le_size (formed : g.WellFormed) {limit : Option Nat}
    (built : generate g limit = .ok automaton) : 2 ≤ automaton.size := by
  have canonical := canonical_of_generate built
  have begins : (automaton.itemsAt 0).Has (startItem g).core := by
    rw [itemsAt_eq canonical.starts]
    exact ((validAfter_start formed).has _).2 .start
  have expects : (startItem g).core.nextSymbol g = some g.startSymbol := rfl
  obtain ⟨target, edge⟩ := canonical.exists_edge begins expects
  have collection :=
    canonical.isCollection formed fun _ bound => exists_path_of_generate built bound
  have bound := (collection.closes 0 g.startSymbol target edge).1
  cases target with
  | zero => exact absurd edge (collection.fresh 0 g.startSymbol)
  | succ target => omega

/-! ## Searches with a limit -/

/-- The search without a limit ends with the states of the automaton, and a search with a limit
takes the same turns from the same start. -/
theorem exists_final (constructs : Constructs g automaton) :
    ∃ known first final,
      (∀ limit, collection g limit = explore (successors g) limit known first) ∧
      Exploration.Ends (successors g) known ⟨[first], []⟩ final ∧ final.isComplete = true ∧
      ofExploration final = automaton := by
  obtain ⟨known, first, limited, unlimited, _⟩ := exists_search g
  obtain ⟨final, ends, isAutomaton⟩ := (unlimited automaton).1 constructs
  exact ⟨known, first, final, limited, ends, ends.isComplete (Nat.zero_le _), isAutomaton⟩

theorem generate_of_size_le (constructs : Constructs g automaton)
    (within : automaton.size ≤ limit) : generate g (some limit) = .ok automaton := by
  obtain ⟨known, first, final, limited, ends, complete, isAutomaton⟩ := exists_final constructs
  rw [← isAutomaton, size_ofExploration complete] at within
  have same : collection g limit = final := by
    rw [limited]
    refine ends.resume_eq within ?_
    rw [List.length_nil]
    omega
  refine generate_eq_ok_iff.2 ?_
  rw [Option.getD_some, same]
  exact ⟨complete, isAutomaton⟩

theorem generate_of_lt_size (constructs : Constructs g automaton) (second : 2 ≤ automaton.size)
    (beyond : limit < automaton.size) :
    generate g (some limit) = .error (.tooManyStates limit) := by
  obtain ⟨known, first, final, limited, ends, complete, isAutomaton⟩ := exists_final constructs
  rw [← isAutomaton, size_ofExploration complete] at second beyond
  have incomplete : (collection g limit).isComplete = false := by
    rw [limited]
    exact ends.not_complete second beyond
  unfold generate
  dsimp only [Option.getD_some]
  rw [incomplete, if_neg Bool.false_ne_true]

/-- A limit refuses the automata with more states and no others, and it changes nothing in the
automata that it admits, also where it is tested for each item set that is found. -/
theorem generate_limit_exact {rules : List Rule} {start : Option Symbol} {names : SymbolTable}
    (accepted : Grammar.ofRules rules start names = .ok g) :
    ∃ automaton, Constructs g automaton ∧ generate g none = .ok automaton ∧
      2 ≤ automaton.size ∧ ∀ limit,
        (generate g (some limit) =
          if limit < automaton.size then .error (.tooManyStates limit) else .ok automaton) ∧
        ∀ outcome, Builds g (some limit) outcome ↔
          outcome = if limit < automaton.size then none else some automaton := by
  have formed := Grammar.wellFormed_of_ofRules accepted
  obtain ⟨automaton, built⟩ := exists_generate formed
  have constructs := constructs_of_generate built
  have second := two_le_size formed built
  refine ⟨automaton, constructs, built, second, fun limit => ?_⟩
  have exactly : generate g (some limit) =
      if limit < automaton.size then .error (.tooManyStates limit) else .ok automaton := by
    split
    · exact generate_of_lt_size constructs second ‹_›
    · exact generate_of_size_le constructs (Nat.le_of_not_lt ‹_›)
  refine ⟨exactly, fun outcome => ?_⟩
  rw [builds_some_iff, exactly, apply_ite Except.toOption]
  rfl

/-- The rules `3 := 4 4`, `4 := 5 4` and `4 := 6`: two words of any number of `5` and a `6`. -/
def wordPairRules : List Rule :=
  [Rule.plain ⟨3⟩ [⟨4⟩, ⟨4⟩], Rule.plain ⟨4⟩ [⟨5⟩, ⟨4⟩], Rule.plain ⟨4⟩ [⟨6⟩]]

/-- With ten states the automaton is built up to a limit of ten, and not with a limit of nine or of
none. -/
theorem generate_limit_exact_wordPair :
    ∃ g automaton, Grammar.ofRules wordPairRules none SymbolTable.initial = .ok g ∧
      Constructs g automaton ∧ generate g none = .ok automaton ∧ automaton.size = 10 ∧
      generate g (some 10) = .ok automaton ∧ generate g (some 9) = .error (.tooManyStates 9) ∧
      generate g (some 0) = .error (.tooManyStates 0) ∧ Builds g (some 9) none := by
  have accepted : ∃ g, Grammar.ofRules wordPairRules none SymbolTable.initial = .ok g ∧
      (generate g none).map size = .ok 10 := ⟨_, rfl, by decide +kernel⟩
  obtain ⟨g, accepted, ten⟩ := accepted
  obtain ⟨automaton, constructs, built, second, exactly⟩ := generate_limit_exact accepted
  rw [built] at ten
  have isTen : automaton.size = 10 := Except.ok.inj ten
  refine ⟨g, automaton, accepted, constructs, built, isTen, ?_, ?_, ?_, ?_⟩
  · rw [(exactly 10).1, isTen]
    rfl
  · rw [(exactly 9).1, isTen]
    rfl
  · rw [(exactly 0).1, isTen]
    rfl
  · rw [(exactly 9).2, isTen]
    rfl

end ParserGenerator.Automaton
