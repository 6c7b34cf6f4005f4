import ParserGenerator.Proofs.Automaton.Collection
import ParserGenerator.Proofs.Session.Expected

/-!
# The labels of edges

All edges into a state of the automaton have one label, which is the symbol in front of the marker
of any item that was moved there. A terminal that is awaited somewhere labels an edge somewhere, as
it can be read behind what is further out. So the states bound the number of symbols that can be of
any use in a state.

Results: `Automaton.label_unique`, `Automaton.Path.exists_edge_of_awaits` and
`Automaton.exists_labels`.
-/

namespace ParserGenerator.Automaton

variable {g : Grammar} {automaton : Automaton} {states : List Nat} {top : Nat}
  {read : List Symbol} {core : ItemCore} {symbol x : Symbol}

/-! ## One label for each state -/

/-- An edge leads to an item that was moved over its label. -/
theorem Path.exists_moved (formed : g.WellFormed) (canonical : automaton.Canonical g)
    (path : automaton.Path (top :: states) read) {target : Nat}
    (edge : automaton.Edge top symbol target) :
    ∃ old : ItemCore, (automaton.itemsAt target).Has old.shifted ∧
      old.nextSymbol g = some symbol := by
  obtain ⟨old, stands, next⟩ := path.expects formed canonical edge
  exact ⟨old, (((path.push edge).validAfter formed canonical).has _).2 (.shift stands next), next⟩

/-- What a path has read last is the label of each edge into its last state. -/
theorem Path.label_eq (formed : g.WellFormed) (canonical : automaton.Canonical g)
    (path : automaton.Path (top :: states) (symbol :: read)) {old : ItemCore}
    (has : (automaton.itemsAt top).Has old.shifted) (next : old.nextSymbol g = some x) :
    x = symbol := by
  have stands := ((path.validAfter formed canonical).has _).1 has
  obtain ⟨rule, found, bound, took, _⟩ := stands.began
  have isRule : g.rule? old.rule = some rule := found
  have atMarker : rule.rhs[old.marker]? = some x := (ItemCore.nextSymbol_eq isRule).symm.trans next
  have last : rule.rhs.take (old.marker + 1) = rule.rhs.take old.marker ++ [x] := by
    rw [List.take_add_one, atMarker]
    rfl
  have firsts : symbol :: read.take old.marker = (rule.rhs.take (old.marker + 1)).reverse := took
  rw [last, List.reverse_append] at firsts
  exact (List.cons.inj firsts).1.symm

/-- The edges into a state have one label. -/
theorem label_unique (formed : g.WellFormed) {limit : Option Nat}
    (built : generate g limit = .ok automaton) {source other target : Nat}
    (edge : automaton.Edge source symbol target) (edge' : automaton.Edge other x target) :
    x = symbol := by
  have canonical := canonical_of_generate built
  have reached {state : Nat} {label : Symbol} (leads : automaton.Edge state label target) :
      ∃ below before, automaton.Path (state :: below) before := by
    obtain ⟨found, isState, _⟩ := leads
    exact exists_path_of_generate built (List.getElem?_eq_some_iff.1 isState).1
  obtain ⟨_, _, path⟩ := reached edge
  obtain ⟨_, _, path'⟩ := reached edge'
  obtain ⟨old, has, next⟩ := path'.exists_moved formed canonical edge'
  exact (path.push edge).label_eq formed canonical has next

/-- The states bound the number of labels. -/
theorem exists_labels (formed : g.WellFormed) {limit : Option Nat}
    (built : generate g limit = .ok automaton) (count : Nat) :
    ∃ labels : List Symbol, labels.length ≤ count ∧
      ∀ source symbol target, target < count → automaton.Edge source symbol target →
        symbol ∈ labels := by
  induction count with
  | zero => exact ⟨[], Nat.le_refl 0, fun _ _ _ below => absurd below (Nat.not_lt_zero _)⟩
  | succ count ih =>
      obtain ⟨labels, short, all⟩ := ih
      by_cases entered : ∃ source symbol, automaton.Edge source symbol count
      · obtain ⟨source, symbol, edge⟩ := entered
        refine ⟨symbol :: labels, Nat.succ_le_succ short, fun other x target below edge' => ?_⟩
        rcases Nat.lt_succ_iff_lt_or_eq.1 below with earlier | rfl
        · exact List.mem_cons_of_mem _ (all other x target earlier edge')
        · rw [label_unique formed built edge edge']
          exact List.mem_cons_self
      · refine ⟨labels, Nat.le_succ_of_le short, fun other x target below edge' => ?_⟩
        rcases Nat.lt_succ_iff_lt_or_eq.1 below with earlier | rfl
        · exact all other x target earlier edge'
        · exact absurd ⟨other, x, edge'⟩ entered

/-! ## A label for each awaited terminal -/

/-- A token that begins what an item expects labels an edge. -/
theorem Path.exists_edge_of_begins (formed : g.WellFormed) (canonical : automaton.Canonical g)
    {string : SymbolString} {tokens : List Token} (begins : Begins g string tokens)
    {token : Token} (single : tokens = [token]) (path : automaton.Path (top :: states) read)
    (stands : Stands g read core) {rule : Rule} (found : g.rule? core.rule = some rule)
    (expected : rule.rhs.drop core.marker = string) :
    ∃ source target, automaton.Edge source token.symbol target := by
  induction begins generalizing top states read core rule with
  | stop => cases single
  | token terminal rest =>
      cases single
      obtain ⟨next, _⟩ := ItemCore.next_of_drop found expected
      exact ⟨top, path.exists_edge formed canonical stands next⟩
  | @tree tree rest next tokens _ _ ih =>
      obtain ⟨expects, behindRoot⟩ := ItemCore.next_of_drop found expected
      obtain ⟨target, edge⟩ := path.exists_edge formed canonical stands expects
      have behind : next :: tokens = [token] := by
        rcases List.append_eq_singleton_iff.1 single with ⟨_, only⟩ | ⟨_, none⟩
        · exact only
        · cases none
      rw [ItemCore.rest_eq found] at behindRoot
      exact ih behind (.push path edge) (.shift stands expects) found behindRoot
  | inside member _ _ ih =>
      obtain ⟨expects, _⟩ := ItemCore.next_of_drop found expected
      obtain ⟨id, ofNext⟩ := Grammar.exists_mem_rulesOf (Grammar.mem_rules.2 (.inr member))
      exact ih single path (.expand stands expects ofNext) (Grammar.mem_rulesOf.1 ofNext).1 rfl

/-- An awaited terminal is the end of the input, or it labels an edge. -/
theorem Path.exists_edge_of_awaits (formed : g.WellFormed) (canonical : automaton.Canonical g)
    (path : automaton.Path (top :: states) read) (awaits : Awaits g read core x) :
    x = Symbol.endOfInput ∨ ∃ source target, automaton.Edge source x target := by
  -- The induction goes outward, to the place where the terminal begins what is expected.
  induction awaits generalizing top states with
  | start => exact .inl rfl
  | @first read outer symbol id inner x stands next ofNext differs begins =>
      obtain ⟨rule, found, _⟩ := stands.began
      obtain ⟨target, edge⟩ := path.exists_edge formed canonical stands next
      have reads : Begins g (outer.rest g) [⟨x, "", 0, 0⟩] :=
        Session.begins_of_mem_firstOf formed found differs begins
      exact .inr (Path.exists_edge_of_begins formed canonical reads rfl (.push path edge)
        (.shift stands next) found (ItemCore.rest_eq found).symm)
  | inherit _ _ _ _ ih => exact ih path
  | shift awaits next ih =>
      cases path with
      | push shorter edge => exact ih shorter

end ParserGenerator.Automaton
