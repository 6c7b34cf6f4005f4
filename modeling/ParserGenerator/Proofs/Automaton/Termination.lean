import ParserGenerator.Proofs.Automaton.Collection
import ParserGenerator.Proofs.Exploration.Worklist

/-!
# The construction of the automaton ends

Two loops of the construction have no bound in sight. The worklist of a closure takes a core up
again whenever its lookahead has grown, and the search for item sets goes along a list that it
extends. Here both loops run until nothing is left to do, however long that takes, and both come to
an end.

* The worklist: an expansion takes one core out of the line, and each core that joins the line is
  paid for by what the set has gained. A set can gain no more than the rules and, for each of them,
  the terminals and the lookahead at the start.
* The search: a turn expands one more item set, and all of them are made of the cores of the grammar
  and of terminals.

Results: `Automaton.construction_terminates`.
-/

namespace ParserGenerator

/-! ## Definitions -/

/-- The worklist that expands waiting cores until none is left runs empty, and leaves `last`. -/
inductive Grammar.RunsEmpty (g : Grammar) :
    ItemSet → Queue ItemCore → (last : ItemSet) → Prop where
  | done {set : ItemSet} {waiting : Queue ItemCore} (empty : waiting.pop = none) :
      RunsEmpty g set waiting set
  | turn {set last : ItemSet} {waiting rest : Queue ItemCore} {core : ItemCore}
      (next : waiting.pop = some (core, rest))
      (later : RunsEmpty g (g.expandCore core set rest).1 (g.expandCore core set rest).2 last) :
      RunsEmpty g set waiting last

namespace Automaton

/-- The automaton with the nodes and the rows of a search. -/
def ofExploration (found : Exploration ItemSet Symbol) : Automaton :=
  ⟨(found.nodes.zip found.rows).map fun (items, edges) => ⟨items, edges⟩⟩

/-- The loop along the list of item sets comes to an end: with an automaton that has what was found,
or with none if it is given up because of the limit. -/
def Builds (g : Grammar) (limit : Option Nat) (outcome : Option Automaton) : Prop :=
  let (first, known) := KnownClosures.close g [] (ItemSet.ofList [startItem g])
  ∃ result, Worklist.Finds .counter (successors g) limit known first result ∧
    result.map ofExploration = outcome

/-- The search for all item sets of the grammar, however many there are, comes to an end, and the
automaton has what it has found. -/
def Constructs (g : Grammar) (automaton : Automaton) : Prop := Builds g none (some automaton)

end Automaton

/-! ## The worklist -/

section

variable {g : Grammar} {item : Item} {items : List Item} {set left right : ItemSet}

theorem IsClosure.unique (one : IsClosure g items left) (other : IsClosure g items right) :
    left = right :=
  ItemSet.ext_has (fun core => (one.has core).trans (other.has core).symm)
    fun core x => (one.looks core x).trans (other.looks core x).symm

/-- Turns leave no choice, so a worklist leaves one item set at most. -/
theorem Grammar.RunsEmpty.unique {waiting : Queue ItemCore} (runs : g.RunsEmpty set waiting left)
    (runsToo : g.RunsEmpty set waiting right) : left = right := by
  induction runs with
  | done empty =>
      cases runsToo with
      | done _ => rfl
      | turn next _ => cases empty.symm.trans next
  | turn next _ ih =>
      cases runsToo with
      | done empty => cases empty.symm.trans next
      | turn next' later =>
          cases next.symm.trans next'
          exact ih later

/-- Every expansion leaves less to do: fewer cores wait, or less weight can still be added. -/
theorem Expanding.exists_runsEmpty (formed : g.WellFormed) {turns : Nat} {waiting : Queue ItemCore}
    (state : Expanding g item set waiting.waiting)
    (enough : waiting.waiting.length +
        g.rules.length * (1 + g.terminalBound + item.lookahead.size) <
      turns + set.weight g.rules.length) :
    ∃ last, g.RunsEmpty set waiting last ∧ Expanding g item last [] := by
  induction turns generalizing set waiting with
  | zero =>
      have light := state.weight_le formed
      omega
  | succ turns ih =>
      cases popped : waiting.pop with
      | none =>
          rw [waiting_of_pop_none popped] at state
          exact ⟨set, .done popped, state⟩
      | some entry =>
          obtain ⟨core, rest⟩ := entry
          have listed := waiting_of_pop popped
          rw [listed] at state enough
          obtain ⟨later, paid⟩ := state.expandCore
          rw [List.length_cons] at enough
          obtain ⟨last, ends, expanded⟩ := ih later (by omega)
          exact ⟨last, .turn popped ends, expanded⟩

/-- The worklist of an item runs empty, and what it leaves is the closure of the item. -/
theorem Grammar.runsEmpty_item (formed : g.WellFormed) (item : Item) :
    g.RunsEmpty (ItemSet.ofList [item]) (Queue.ofList [item.core]) (g.closeItem item) := by
  obtain ⟨last, ends, state⟩ :=
    (expanding_start item).exists_runsEmpty formed (Nat.lt_add_right _ (Nat.lt_succ_self _))
  rw [← state.isClosure.unique (g.closeItem_spec formed item)]
  exact ends

end

/-! ## The search for item sets -/

namespace Automaton

variable {g : Grammar} {automaton : Automaton} {limit : Option Nat}

theorem generate_eq_ok_iff :
    generate g limit = .ok automaton ↔
      (collection g (limit.getD (itemSetBound g))).isComplete = true ∧
        ofExploration (collection g (limit.getD (itemSetBound g))) = automaton := by
  unfold generate
  dsimp only
  generalize collection g (limit.getD (itemSetBound g)) = found
  split
  · rename_i complete
    rw [Except.ok.injEq]
    exact (and_iff_right complete).symm
  · rename_i incomplete
    exact ⟨nofun, fun both => absurd both.1 incomplete⟩

/-- With and without a limit, the search starts at the same item set and remembers the same
closures. -/
theorem exists_search (g : Grammar) :
    ∃ known first, (∀ limit, collection g limit = explore (successors g) limit known first) ∧
      (∀ automaton, Constructs g automaton ↔
        ∃ final, Exploration.Ends (successors g) known ⟨[first], []⟩ final ∧
          ofExploration final = automaton) ∧
      ∀ limit outcome, Builds g (some limit) outcome ↔
        outcome = if (explore (successors g) limit known first).isComplete then
          some (ofExploration (explore (successors g) limit known first)) else none := by
  have same : ∃ known first,
      (∀ limit, collection g limit = explore (successors g) limit known first) ∧
      ∀ limit outcome, Builds g limit outcome ↔
        ∃ result, Worklist.Finds .counter (successors g) limit known first result ∧
          result.map ofExploration = outcome :=
    ⟨_, _, fun _ => rfl, fun _ _ => Iff.rfl⟩
  obtain ⟨known, first, limited, builds⟩ := same
  refine ⟨known, first, limited, fun automaton => ?_, fun limit outcome => ?_⟩
  · rw [Constructs, builds]
    constructor
    · rintro ⟨result, finds, isAutomaton⟩
      obtain ⟨final, ends, rfl⟩ := Worklist.finds_none_iff.1 finds
      exact ⟨final, ends, Option.some.inj isAutomaton⟩
    · rintro ⟨final, ends, rfl⟩
      exact ⟨_, Worklist.finds_none_iff.2 ⟨final, ends, rfl⟩, rfl⟩
  · simp only [builds, Worklist.finds_some_iff, exists_eq_left, Option.map_some, Option.map_none,
      apply_ite (Option.map ofExploration), eq_comm]

/-- With a limit the loop leaves what the search with this limit leaves. -/
theorem builds_some_iff {limit : Nat} {outcome : Option Automaton} :
    Builds g (some limit) outcome ↔ outcome = (generate g (some limit)).toOption := by
  obtain ⟨known, first, limited, _, builds⟩ := exists_search g
  rw [builds, ← limited, generate, Option.getD_some, apply_ite Except.toOption]
  rfl

/-- A limit that is not exceeded makes no difference. -/
theorem constructs_of_generate (built : generate g limit = .ok automaton) :
    Constructs g automaton := by
  obtain ⟨complete, isAutomaton⟩ := generate_eq_ok_iff.1 built
  obtain ⟨known, first, limited, unlimited, _⟩ := exists_search g
  rw [limited] at complete isAutomaton
  exact (unlimited automaton).2 ⟨_, Exploration.ends_resume complete, isAutomaton⟩

theorem Constructs.unique {other : Automaton} (constructs : Constructs g automaton)
    (constructsToo : Constructs g other) : automaton = other := by
  obtain ⟨known, first, _, unlimited, _⟩ := exists_search g
  obtain ⟨final, ends, rfl⟩ := (unlimited automaton).1 constructs
  obtain ⟨final', endsToo, rfl⟩ := (unlimited other).1 constructsToo
  rw [ends.unique endsToo]

/-- For every accepted grammar both loops end, each in one way: the worklist of each item, which
leaves the closure of the item, and the search for item sets. So without a limit the automaton is
always built. -/
theorem construction_terminates {rules : List Rule} {start : Option Symbol} {names : SymbolTable}
    (accepted : Grammar.ofRules rules start names = .ok g) :
    (∀ item last, g.RunsEmpty (ItemSet.ofList [item]) (Queue.ofList [item.core]) last ↔
      last = g.closeItem item) ∧
    ∃ automaton, generate g none = .ok automaton ∧
      ∀ other, Constructs g other ↔ other = automaton := by
  have formed := Grammar.wellFormed_of_ofRules accepted
  constructor
  · intro item last
    have ends := Grammar.runsEmpty_item formed item
    exact ⟨fun endsToo => endsToo.unique ends, fun same => same ▸ ends⟩
  · obtain ⟨automaton, built⟩ := exists_generate formed
    have constructs := constructs_of_generate built
    refine ⟨automaton, built, fun other => ?_⟩
    exact ⟨fun constructsToo => constructsToo.unique constructs, fun same => same ▸ constructs⟩

/-- The rules `3 := 4 5`, `3 :=` and `4 := 3`, where a list of `5` begins with a list of `5`. -/
def nestedListRules : List Rule :=
  [Rule.plain ⟨3⟩ [⟨4⟩, ⟨5⟩], Rule.plain ⟨3⟩ [], Rule.plain ⟨4⟩ [⟨3⟩]]

/-- The rules of `3` are expanded for the end of the input and once more when `5` joins it. -/
theorem construction_terminates_nestedList :
    ∃ g automaton, Grammar.ofRules nestedListRules none SymbolTable.initial = .ok g ∧
      g.RunsEmpty (ItemSet.ofList [startItem g]) (Queue.ofList [(startItem g).core])
        (g.closeItem (startItem g)) ∧
      (g.closeItem (startItem g)).lookahead ⟨1, 0⟩ =
        OrderedSet.ofList [Symbol.endOfInput, ⟨5⟩] ∧
      Constructs g automaton ∧ generate g none = .ok automaton := by
  have accepted : ∃ g, Grammar.ofRules nestedListRules none SymbolTable.initial = .ok g ∧
      (g.closeItem (startItem g)).lookahead ⟨1, 0⟩ =
        OrderedSet.ofList [Symbol.endOfInput, ⟨5⟩] := ⟨_, rfl, by decide +kernel⟩
  obtain ⟨g, accepted, grown⟩ := accepted
  obtain ⟨closes, automaton, built, constructs⟩ := construction_terminates accepted
  exact ⟨g, automaton, accepted, (closes (startItem g) _).2 rfl, grown, (constructs _).2 rfl, built⟩

end Automaton

end ParserGenerator
