import ParserGenerator.Proofs.Session.Alike
import ParserGenerator.Proofs.Session.Leaves

/-!
# Parsing with equal tables

Tables are equal when they have the same cells in every state, where reductions are compared by
their rules: the tables may number their rules and order their rows differently, and a reduction by
a rule that does not exist equals any other such reduction. None of this is seen by a parse.
Sessions that are fed the same tokens go through the same states and build the same trees, also
after errors, and fail in the same way at the same tokens.

Rows are maps, so that one comparison of the cells of the first table decides about the second one
too: as many keys among which all keys of the first row are found are the same keys.

Results: `Table.InStep.calls` and `Table.observed_of_sameCells`.
-/

namespace ParserGenerator

/-! ## Definitions -/

/-- Errors of the same kind at the same place. What was expected may come in another order, and a
rule that does not exist may have another number. -/
inductive ParseError.Same : ParseError → ParseError → Prop
  | unexpectedToken (state : Nat) (token : Token) {expected expected' : List Symbol}
      (same : expected.Perm expected') :
      Same (.unexpectedToken state token expected) (.unexpectedToken state token expected')
  | unexpectedEnd {expected expected' : List Symbol} (same : expected.Perm expected') :
      Same (.unexpectedEnd expected) (.unexpectedEnd expected')
  | alreadyAccepted (found : Symbol) : Same (.alreadyAccepted found) (.alreadyAccepted found)
  | missingGoto (state : Nat) (symbol : Symbol) :
      Same (.missingGoto state symbol) (.missingGoto state symbol)
  | unknownRule (rule rule' : Nat) : Same (.unknownRule rule) (.unknownRule rule')
  | emptyStateStack : Same .emptyStateStack .emptyStateStack
  | emptyNodeStack : Same .emptyNodeStack .emptyNodeStack
  | unbalancedNodeStack (count : Nat) :
      Same (.unbalancedNodeStack count) (.unbalancedNodeStack count)

/-- The same errors with equal sessions. -/
structure Failure.Same (failure failure' : Failure) : Prop where
  error : failure.error.Same failure'.error
  session_eq : failure.session = failure'.session

/-- Both steps of a session fail in the same way or leave equal sessions. -/
abbrev StepsSame : Except Failure Session → Except Failure Session → Prop :=
  ResultsAlike Failure.Same Eq

/-- The outcomes of feeding tokens one after another, where each token goes to the session that the
one before it left, errors included. Each token takes at most `fuel` steps. -/
def Session.calls (table : Table) (fuel : Nat) (session : Session) :
    List Token → Option (List (Except Failure Session))
  | [] => some []
  | token :: rest => do
      let outcome ← session.process table fuel token
      let later ← (left outcome).calls table fuel rest
      return outcome :: later

namespace Table

/-- Entries of two tables that say the same, with reductions compared by their rules. -/
inductive EntriesSame (left right : Table) : Entry → Entry → Prop
  | shift (next : Nat) : EntriesSame left right (.shift next) (.shift next)
  | reduce {id id' : Nat} (rules : left.rule? id = right.rule? id') :
      EntriesSame left right (.reduce id) (.reduce id')
  | accept : EntriesSame left right .accept .accept
  | goto (next : Nat) : EntriesSame left right (.goto next) (.goto next)

/-- The cells of a symbol say the same in both tables, each symbol once in a row. -/
structure InStep (left right : Table) : Prop where
  cell : ∀ (state : Nat) (symbol : Symbol),
    Option.Rel (EntriesSame left right) (left.get? state symbol) (right.get? state symbol)
  distinct : left.RowsDistinct
  distinct' : right.RowsDistinct

/-- The outcomes of one call in a session of each table cannot be told apart: the calls succeed or
fail alike, and the sessions that they leave are equal and expect the same symbols. -/
structure SameCall (left right : Table) (outcome outcome' : Except Failure Session) : Prop where
  outcomes : StepsSame outcome outcome'
  session_eq : Session.left outcome = Session.left outcome'
  expected : ((Session.left outcome).expected left).Perm ((Session.left outcome').expected right)

end Table

/-! ## Equal steps -/

theorem ParseError.Same.refl (error : ParseError) : error.Same error := by
  cases error with
  | unexpectedToken state token expected => exact .unexpectedToken state token (.refl expected)
  | unexpectedEnd expected => exact .unexpectedEnd (.refl expected)
  | alreadyAccepted found => exact .alreadyAccepted found
  | missingGoto state symbol => exact .missingGoto state symbol
  | unknownRule rule => exact .unknownRule rule rule
  | emptyStateStack => exact .emptyStateStack
  | emptyNodeStack => exact .emptyNodeStack
  | unbalancedNodeStack count => exact .unbalancedNodeStack count

theorem StepsSame.refl (outcome : Except Failure Session) : StepsSame outcome outcome := by
  cases outcome with
  | ok session => exact .ok rfl
  | error failure => exact .error ⟨.refl failure.error, rfl⟩

/-- Steps that are the same leave equal sessions, also where they fail. -/
theorem StepsSame.left_eq {outcome outcome' : Except Failure Session}
    (same : StepsSame outcome outcome') : Session.left outcome = Session.left outcome' := by
  cases same with
  | ok equal => exact equal
  | error failures => exact failures.session_eq

namespace Table

variable {left right : Table} {entry entry' : Entry} {row row' : Row}

/-! ## Equal cells -/

theorem EntriesSame.symm (same : EntriesSame left right entry entry') :
    EntriesSame right left entry' entry := by
  cases same with
  | shift next => exact .shift next
  | reduce rules => exact .reduce rules.symm
  | accept => exact .accept
  | goto next => exact .goto next

theorem EntriesSame.isAction_eq (same : EntriesSame left right entry entry') :
    entry.isAction = entry'.isAction := by
  cases same <;> rfl

theorem entriesSame_of_sameEntry (same : sameEntry left right entry entry' = true) :
    EntriesSame left right entry entry' := by
  unfold sameEntry at same
  split at same
  · exact .reduce (eq_of_beq same)
  · rename_i notReductions
    cases eq_of_beq same
    cases entry with
    | shift next => exact .shift next
    | reduce id => exact (notReductions id id rfl rfl).elim
    | accept => exact .accept
    | goto next => exact .goto next

theorem exists_get?_of_sameRow (same : sameRow left right row row' = true) {symbol : Symbol}
    (inside : (symbol, entry) ∈ row) :
    ∃ entry', row'.get? symbol = some entry' ∧ EntriesSame left right entry entry' := by
  unfold sameRow at same
  rw [Bool.and_eq_true, List.all_eq_true] at same
  have cell := same.2 _ inside
  dsimp only at cell
  split at cell
  · cases cell
  · rename_i entry' found
    exact ⟨entry', found, entriesSame_of_sameEntry cell⟩

/-- Equal rows have the same keys: there are as many, and those of the first are found in the
second. -/
theorem keys_perm_of_sameRow (same : sameRow left right row row' = true)
    (distinct : (row.map Prod.fst).Nodup) : (row.map Prod.fst).Perm (row'.map Prod.fst) := by
  have found : row.map Prod.fst ⊆ row'.map Prod.fst := by
    intro symbol isKey
    obtain ⟨⟨symbol, entry⟩, inside, rfl⟩ := List.mem_map.1 isKey
    obtain ⟨entry', found, _⟩ := exists_get?_of_sameRow same inside
    obtain ⟨front, back, isRow, _⟩ := List.lookup_eq_some_iff.1 found
    have inside' : (symbol, entry') ∈ row' := isRow ▸ List.mem_append_cons_self
    exact List.mem_map.2 ⟨(symbol, entry'), inside', rfl⟩
  have size : row'.length ≤ row.length := by
    unfold sameRow at same
    rw [Bool.and_eq_true] at same
    exact (eq_of_beq same.1).ge
  refine (List.subperm_of_subset distinct found).perm_of_length_le ?_
  rw [List.length_map, List.length_map]
  exact size

theorem cell_of_sameRow (same : sameRow left right row row' = true)
    (distinct : (row.map Prod.fst).Nodup) (symbol : Symbol) :
    Option.Rel (EntriesSame left right) (row.get? symbol) (row'.get? symbol) := by
  have keys := keys_perm_of_sameRow same distinct
  cases found : row.get? symbol with
  | some entry =>
      obtain ⟨entry', found', entries⟩ :=
        exists_get?_of_sameRow same ((lookup_eq_some_iff_mem distinct).1 found)
      rw [found']
      exact .some entries
  | none =>
      have missing : row'.get? symbol = none := by
        cases found' : row'.get? symbol with
        | none => rfl
        | some entry' =>
            have inside := (lookup_eq_some_iff_mem (keys.nodup_iff.1 distinct)).1 found'
            obtain ⟨⟨_, entry⟩, inside', rfl⟩ :=
              List.mem_map.1 (keys.mem_iff.2 (List.mem_map.2 ⟨_, inside, rfl⟩))
            cases found.symm.trans ((lookup_eq_some_iff_mem distinct).2 inside')
      rw [missing]
      exact .none

/-- Equal tables have equal rows in the same places. -/
theorem forall₂_sameRow (same : sameCells left right = true) :
    List.Forall₂ (fun row row' => sameRow left right row row' = true) left.rows right.rows := by
  unfold sameCells at same
  rw [Bool.and_eq_true, List.all_eq_true] at same
  exact List.forall₂_iff_zip.2 ⟨eq_of_beq same.1, fun member => same.2 _ member⟩

theorem inStep_of_sameCells (distinct : left.RowsDistinct) (same : sameCells left right = true) :
    left.InStep right := by
  have rows := forall₂_sameRow same
  refine ⟨fun state symbol => ?_, distinct, fun row' isRow' => ?_⟩
  · unfold get?
    cases found : left.rows[state]? with
    | none =>
        have beyond := List.getElem?_eq_none_iff.1 found
        rw [rows.length_eq] at beyond
        rw [List.getElem?_eq_none beyond]
        exact .none
    | some row =>
        obtain ⟨row', found', sameRow⟩ := exists_getElem?_of_forall₂ rows found
        rw [found']
        exact cell_of_sameRow sameRow (distinct row (List.mem_of_getElem? found)) symbol
  · obtain ⟨row, isRow, sameRow⟩ := exists_mem_of_forall₂ rows.flip isRow'
    have nodup := distinct row isRow
    exact (keys_perm_of_sameRow sameRow nodup).nodup_iff.1 nodup

/-! ## Expected symbols -/

theorem InStep.symm (inStep : left.InStep right) : right.InStep left where
  cell state symbol := by
    have cells := inStep.cell state symbol
    generalize left.get? state symbol = cell at cells
    generalize right.get? state symbol = cell' at cells
    cases cells with
    | none => exact .none
    | some entries => exact .some entries.symm
  distinct := inStep.distinct'
  distinct' := inStep.distinct

theorem InStep.expected_subset (inStep : left.InStep right) (state : Nat) :
    left.expected state ⊆ right.expected state := by
  intro symbol expected
  obtain ⟨entry, found, action⟩ := (mem_expected_iff inStep.distinct).1 expected
  have cells := inStep.cell state symbol
  rw [found] at cells
  generalize isCell : right.get? state symbol = cell' at cells
  cases cells with
  | some entries =>
      exact (mem_expected_iff inStep.distinct').2 ⟨_, isCell, entries.isAction_eq ▸ action⟩

/-- The same symbols are expected in a state, in some order. -/
theorem InStep.expected (inStep : left.InStep right) (state : Nat) :
    (left.expected state).Perm (right.expected state) :=
  (List.perm_ext_iff_of_nodup (nodup_expected inStep.distinct state)
    (nodup_expected inStep.distinct' state)).2 fun _ =>
      ⟨fun member => inStep.expected_subset state member,
        fun member => inStep.symm.expected_subset state member⟩

theorem InStep.expected_session (inStep : left.InStep right) (session : Session) :
    (session.expected left).Perm (session.expected right) := by
  unfold Session.expected
  cases session.states with
  | nil => exact .nil
  | cons top below => exact inStep.expected top

/-! ## Sessions in step -/

/-- Reductions by the same rule, or by no rule in both tables, do the same. -/
theorem InStep.reduce (inStep : left.InStep right) (session : Session) {id id' : Nat}
    (rules : left.rule? id = right.rule? id') :
    StepsSame (session.reduce left id) (session.reduce right id') := by
  unfold Session.reduce
  rw [← rules]
  cases left.rule? id with
  | none => exact .error ⟨.unknownRule id id', rfl⟩
  | some rule =>
      dsimp only
      cases session.states.drop rule.rhs.length with
      | nil => exact .refl _
      | cons top below =>
          have cells := inStep.cell top rule.lhs
          dsimp only
          generalize left.get? top rule.lhs = cell at cells
          generalize right.get? top rule.lhs = cell' at cells
          cases cells with
          | none => exact .refl _
          | some entries => cases entries <;> exact .refl _

/-- With the same number of steps, a token does the same to a session, or needs more steps, with
both tables. -/
theorem InStep.advance (inStep : left.InStep right) (token : Token) (fuel : Nat)
    (session : Session) :
    Option.Rel StepsSame (session.advance left token fuel) (session.advance right token fuel) := by
  induction fuel generalizing session with
  | zero => exact .none
  | succ fuel ih =>
      rw [Session.advance, Session.advance]
      cases session.states with
      | nil => exact .some (.refl _)
      | cons top below =>
          have refused : Failure.Same ⟨.unexpectedToken top token (left.expected top), session⟩
              ⟨.unexpectedToken top token (right.expected top), session⟩ :=
            ⟨.unexpectedToken top token (inStep.expected top), rfl⟩
          have cells := inStep.cell top token.symbol
          dsimp only
          generalize left.get? top token.symbol = cell at cells
          generalize right.get? top token.symbol = cell' at cells
          cases cells with
          | none => exact .some (.error refused)
          | some entries =>
              cases entries with
              | shift => exact .some (.refl _)
              | accept => exact .some (.refl _)
              | goto => exact .some (.error refused)
              | reduce rules =>
                  have reduced := inStep.reduce session rules
                  dsimp only
                  generalize session.reduce left _ = result at reduced
                  generalize session.reduce right _ = result' at reduced
                  cases reduced with
                  | ok equal =>
                      cases equal
                      exact ih _
                  | error failure => exact .some (.error failure)

theorem InStep.process (inStep : left.InStep right) (fuel : Nat) (session : Session)
    (token : Token) :
    Option.Rel StepsSame (session.process left fuel token) (session.process right fuel token) := by
  unfold Session.process
  split
  · exact .some (.refl _)
  · exact inStep.advance token fuel session

/-- No sequence of calls tells the tables apart, wherever errors occur. -/
theorem InStep.calls (inStep : left.InStep right) (fuel : Nat) (session : Session)
    (tokens : List Token) :
    Option.Rel (List.Forall₂ (left.SameCall right)) (session.calls left fuel tokens)
      (session.calls right fuel tokens) := by
  induction tokens generalizing session with
  | nil => exact .some .nil
  | cons token rest ih =>
      have step := inStep.process fuel session token
      rw [Session.calls, Session.calls]
      generalize session.process left fuel token = result at step
      generalize session.process right fuel token = result' at step
      cases step with
      | none => exact .none
      | @some outcome outcome' steps =>
          have call : left.SameCall right outcome outcome' :=
            ⟨steps, steps.left_eq, steps.left_eq ▸ inStep.expected_session (Session.left outcome)⟩
          have later := ih (Session.left outcome)
          dsimp only [bind, Option.bind]
          rw [← steps.left_eq]
          generalize (Session.left outcome).calls left fuel rest = found at later
          generalize (Session.left outcome).calls right fuel rest = found' at later
          cases later with
          | none => exact .none
          | some calls => exact .some (.cons call calls)

/-! ## Whole inputs -/

theorem InStep.processAll (inStep : left.InStep right) (fuel : Nat) (session : Session)
    (tokens : List Token) :
    Option.Rel StepsSame (session.processAll left fuel tokens)
      (session.processAll right fuel tokens) := by
  refine Session.rel_processAll ?_ rfl
  rintro token _ session _ rfl
  exact inStep.process fuel session token

theorem InStep.finish (inStep : left.InStep right) (session : Session) :
    ResultsAlike ParseError.Same Eq (session.finish left) (session.finish right) := by
  unfold Session.finish
  split
  · split
    · exact .ok rfl
    · exact .error (.refl _)
  · exact .error (.unexpectedEnd (inStep.expected_session session))

theorem InStep.parseTokens (inStep : left.InStep right) (fuel : Nat) (tokens : List Token) :
    Option.Rel (ResultsAlike ParseError.Same Eq) (left.parseTokens fuel tokens)
      (right.parseTokens fuel tokens) := by
  refine rel_parseTokens (inStep.processAll fuel Session.start tokens) ?_ fun _ _ failed =>
    failed.error
  rintro session _ rfl
  exact inStep.finish session

/-- For equal tables and the same tokens, fed to a session of each: every call ends in both or in
none, succeeds in both or fails in both with the same kind of error, and leaves the same states,
trees and acceptance and the same symbols to expect, up to order. Whole inputs have equal trees. -/
theorem observed_of_sameCells {left right : Table} (distinct : left.RowsDistinct)
    (same : sameCells left right = true) (fuel : Nat) (tokens : List Token) :
    Option.Rel (List.Forall₂ (left.SameCall right)) (Session.start.calls left fuel tokens)
        (Session.start.calls right fuel tokens) ∧
      Option.Rel (ResultsAlike ParseError.Same Eq) (left.parseTokens fuel tokens)
        (right.parseTokens fuel tokens) := by
  have inStep := inStep_of_sameCells distinct same
  exact ⟨inStep.calls fuel Session.start tokens, inStep.parseTokens fuel tokens⟩

/-- A table made by hand for lists `3 := 3 4` and `3 := 4`. In one cell it reduces by a rule that
does not exist. -/
def numbered : Table where
  symbols := SymbolTable.initial
  rules := [.ofOptions ⟨3⟩ [⟨3⟩, ⟨4⟩] [.wrap, .default] true, .plain ⟨3⟩ [⟨4⟩]]
  rows := [[(⟨4⟩, .shift 1), (⟨3⟩, .goto 2)],
    [(⟨4⟩, .reduce 1), (.endOfInput, .reduce 1), (⟨5⟩, .reduce 7)],
    [(⟨4⟩, .shift 3), (.endOfInput, .accept)], [(⟨4⟩, .reduce 0), (.endOfInput, .reduce 0)]]
  conflicts := []

/-- The same table with other numbers for rules, one of them twice, and with rows in other
orders. -/
def renumbered : Table where
  symbols := SymbolTable.initial
  rules := [.plain ⟨3⟩ [⟨4⟩], .ofOptions ⟨3⟩ [⟨3⟩, ⟨4⟩] [.wrap, .default] true, .plain ⟨3⟩ [⟨4⟩]]
  rows := [[(⟨3⟩, .goto 2), (⟨4⟩, .shift 1)],
    [(⟨5⟩, .reduce 9), (.endOfInput, .reduce 2), (⟨4⟩, .reduce 0)],
    [(.endOfInput, .accept), (⟨4⟩, .shift 3)], [(.endOfInput, .reduce 1), (⟨4⟩, .reduce 1)]]
  conflicts := []

/-- Two elements, with tokens before, between and after them that are refused. -/
def strayTokens : List Token :=
  [.endOfInput 0, ⟨⟨4⟩, "x", 0, 1⟩, ⟨⟨5⟩, "!", 1, 2⟩, ⟨⟨4⟩, "y", 2, 3⟩, .endOfInput 3,
    .endOfInput 3]

theorem observed_of_sameCells_renumbered :
    numbered.RowsDistinct ∧ sameCells numbered renumbered = true ∧
      (Session.start.calls numbered 3 strayTokens).map (List.map Except.toBool) =
        some [false, true, false, true, true, false] ∧
      Option.Rel (List.Forall₂ (numbered.SameCall renumbered))
        (Session.start.calls numbered 3 strayTokens)
        (Session.start.calls renumbered 3 strayTokens) ∧
      Option.Rel (ResultsAlike ParseError.Same Eq) (numbered.parseTokens 3 strayTokens)
        (renumbered.parseTokens 3 strayTokens) := by
  have distinct : numbered.RowsDistinct := by unfold RowsDistinct; decide
  have same : sameCells numbered renumbered = true := by decide
  exact ⟨distinct, same, by decide, observed_of_sameCells distinct same 3 strayTokens⟩

end Table

end ParserGenerator
