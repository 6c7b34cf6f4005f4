import ParserGenerator.Proofs.Table.Agree
import ParserGenerator.Session

/-!
# Parsing with tables that agree

A parse with one table goes in step with a parse with a table that agrees with it. The stacks hold
the same states and trees of the same shape, with the same tokens at their leaves and symbols with
the same names at their branches. So both take as many steps, and both end in trees with the same
text or in errors of the same kind, in which the same names are expected.

Results: `SyntaxTree.Alike.display_eq`, `Table.Agree.advance` and `Table.Agree.parseTokens`.
-/

namespace ParserGenerator

open SymbolTable (SameName)

/-! ## Definitions -/

/-- Trees of the same shape with the same tokens, and with symbols that have the same names. -/
inductive SyntaxTree.Alike (names known : SymbolTable) : SyntaxTree → SyntaxTree → Prop
  | leaf {token : Token} (named : SameName names known token.symbol token.symbol) :
      Alike names known (.leaf token) (.leaf token)
  | branch {symbol symbol' : Symbol} {children children' : List SyntaxTree}
      (same : SameName names known symbol symbol')
      (alike : List.Forall₂ (SyntaxTree.Alike names known) children children') :
      Alike names known (.branch symbol children) (.branch symbol' children')

/-- Errors of the same kind in the same place. What was expected has the same names, in any
order. -/
inductive ParseError.Alike (names known : SymbolTable) : ParseError → ParseError → Prop
  | unexpectedToken (state : Nat) (token : Token) {expected expected' : List Symbol}
      (same : (expected.map names.display).Perm (expected'.map known.display)) :
      Alike names known (.unexpectedToken state token expected)
        (.unexpectedToken state token expected')
  | unexpectedEnd {expected expected' : List Symbol}
      (same : (expected.map names.display).Perm (expected'.map known.display)) :
      Alike names known (.unexpectedEnd expected) (.unexpectedEnd expected')
  | alreadyAccepted (found : Symbol) :
      Alike names known (.alreadyAccepted found) (.alreadyAccepted found)
  | missingGoto (state : Nat) {symbol symbol' : Symbol}
      (same : SameName names known symbol symbol') :
      Alike names known (.missingGoto state symbol) (.missingGoto state symbol')
  | emptyStateStack : Alike names known .emptyStateStack .emptyStateStack
  | emptyNodeStack : Alike names known .emptyNodeStack .emptyNodeStack
  | unbalancedNodeStack (count : Nat) :
      Alike names known (.unbalancedNodeStack count) (.unbalancedNodeStack count)

/-- Sessions in the same states with trees that are alike. -/
structure Session.Alike (names known : SymbolTable) (session session' : Session) : Prop where
  states_eq : session.states = session'.states
  nodes : List.Forall₂ (SyntaxTree.Alike names known) session.nodes session'.nodes
  accepted_eq : session.accepted = session'.accepted

/-- Errors that are alike, with sessions that they left alike. -/
structure Failure.Alike (names known : SymbolTable) (failure failure' : Failure) : Prop where
  error : failure.error.Alike names known failure'.error
  session : failure.session.Alike names known failure'.session

/-- Both results are values, or both are errors, which are related. -/
inductive ResultsAlike {ε ε' α β : Type} (errors : ε → ε' → Prop) (values : α → β → Prop) :
    Except ε α → Except ε' β → Prop
  | ok {a : α} {b : β} (alike : values a b) : ResultsAlike errors values (.ok a) (.ok b)
  | error {a : ε} {b : ε'} (alike : errors a b) :
      ResultsAlike errors values (.error a) (.error b)

/-- Both steps of a session fail alike or leave sessions that are alike. -/
abbrev StepsAlike (names known : SymbolTable) :
    Except Failure Session → Except Failure Session → Prop :=
  ResultsAlike (Failure.Alike names known) (Session.Alike names known)

variable {names known : SymbolTable}

/-! ## Trees -/

theorem Token.display_eq {token : Token}
    (named : SameName names known token.symbol token.symbol) :
    token.display names = token.display known := by
  unfold display
  rw [named.display_eq]

namespace SyntaxTree

mutual

/-- Trees that are alike have the same lines. -/
theorem Alike.displayAt_eq (tree tree' : SyntaxTree) (alike : tree.Alike names known tree')
    (depth : Nat) : tree.displayAt names depth = tree'.displayAt known depth := by
  match tree, tree', alike with
  | .leaf token, _, .leaf named =>
      rw [displayAt, displayAt, Token.display_eq named]
  | .branch symbol [], _, .branch same .nil =>
      rw [displayAt, displayAt, same.display_eq]
  | .branch symbol (first :: rest), _, .branch same (.cons isFirst areRest) =>
      rw [displayAt, displayAt, same.display_eq,
        Alike.displayAt_eq first _ isFirst (depth + 1),
        Alike.displayAllAt_eq rest _ areRest (depth + 1)]

/-- Sequences of trees that are alike have the same lines. -/
theorem Alike.displayAllAt_eq (trees trees' : List SyntaxTree)
    (alike : List.Forall₂ (Alike names known) trees trees') (depth : Nat) :
    displayAllAt names depth trees = displayAllAt known depth trees' := by
  match trees, trees', alike with
  | [], _, .nil => rfl
  | tree :: rest, _, .cons isFirst areRest =>
      rw [displayAllAt, displayAllAt, Alike.displayAt_eq tree _ isFirst depth,
        Alike.displayAllAt_eq rest _ areRest depth]

end

theorem Alike.display_eq {tree tree' : SyntaxTree} (alike : tree.Alike names known tree') :
    tree.display names = tree'.display known := Alike.displayAt_eq tree tree' alike 0

end SyntaxTree

/-! ## Shapes -/

namespace RulesAlike

variable {rule rule' : Rule}

theorem attach {child child' : SyntaxTree} (alike : child.Alike names known child')
    (option : ChildOption) :
    List.Forall₂ (SyntaxTree.Alike names known) (Rule.attach option child)
      (Rule.attach option child') := by
  cases option with
  | default =>
      cases alike with
      | leaf named => exact .cons (.leaf named) .nil
      | branch same children =>
          cases children with
          | nil => exact .cons (.branch same .nil) .nil
          | cons first rest =>
              cases rest with
              | nil => exact .cons first .nil
              | cons second rest =>
                  exact .cons (.branch same (.cons first (.cons second rest))) .nil
  | unwrap =>
      cases alike with
      | leaf named => exact .cons (.leaf named) .nil
      | branch _ children => exact children
  | wrap =>
      cases alike with
      | leaf named => exact .cons (.leaf named) .nil
      | branch same children => exact .cons (.branch same children) .nil
  | discard => exact .nil

theorem flatten {lhs lhs' : Symbol} (same : SameName names known lhs lhs')
    {trees trees' : List SyntaxTree}
    (alike : List.Forall₂ (SyntaxTree.Alike names known) trees trees') :
    List.Forall₂ (SyntaxTree.Alike names known) (Rule.flatten lhs trees)
      (Rule.flatten lhs' trees') := by
  cases alike with
  | nil => exact .nil
  | cons first rest =>
      cases first with
      | leaf named => exact .cons (.leaf named) rest
      | @branch symbol symbol' _ _ sameSymbol children =>
          unfold Rule.flatten
          dsimp only
          by_cases isLhs : symbol = lhs
          · rw [if_pos isLhs, if_pos ((sameSymbol.eq_iff same).1 isLhs)]
            exact List.rel_append children rest
          · rw [if_neg isLhs, if_neg fun isLhs' => isLhs ((sameSymbol.eq_iff same).2 isLhs')]
            exact .cons (.branch sameSymbol children) rest

/-- The rules build the same shape. -/
theorem shape (rules : RulesAlike names known rule rule') {trees trees' : List SyntaxTree}
    (alike : List.Forall₂ (SyntaxTree.Alike names known) trees trees') :
    List.Forall₂ (SyntaxTree.Alike names known) (rule.shape trees) (rule'.shape trees') := by
  have children : List.Forall₂ (SyntaxTree.Alike names known)
      ((trees.zip rule.options).flatMap fun entry => Rule.attach entry.2 entry.1)
      ((trees'.zip rule.options).flatMap fun entry => Rule.attach entry.2 entry.1) := by
    generalize rule.options = options
    induction alike generalizing options with
    | nil => exact .nil
    | cons first _ ih =>
        cases options with
        | nil => exact .nil
        | cons option options => exact List.rel_append (attach first option) (ih options)
  unfold Rule.shape
  rw [← rules.options_eq, ← rules.chained_eq]
  dsimp only
  split
  · exact flatten rules.lhs children
  · exact children

end RulesAlike

/-! ## Runs in step -/

section

variable {left right : Table} {fuel : Nat} {tokens : List Token}
  {errors : Failure → Failure → Prop} {sessions : Session → Session → Prop}

/-- Where each token does related things to related sessions, so does a list of tokens. -/
theorem Session.rel_processAll
    (step : ∀ token ∈ tokens, ∀ session session', sessions session session' →
      Option.Rel (ResultsAlike errors sessions) (session.process left fuel token)
        (session'.process right fuel token)) {session session' : Session}
    (related : sessions session session') :
    Option.Rel (ResultsAlike errors sessions) (session.processAll left fuel tokens)
      (session'.processAll right fuel tokens) := by
  induction tokens generalizing session session' with
  | nil => exact .some (.ok related)
  | cons token rest ih =>
      obtain ⟨first, later⟩ := List.forall_mem_cons.1 step
      have results := first session session' related
      rw [Session.processAll, Session.processAll]
      generalize session.process left fuel token = result at results
      generalize session'.process right fuel token = result' at results
      cases results with
      | none => exact .none
      | some steps =>
          cases steps with
          | ok next => exact ih later next
          | error failure => exact .some (.error failure)

/-- Runs that end in related ways end in related trees or errors. -/
theorem Table.rel_parseTokens {kinds : ParseError → ParseError → Prop}
    {trees : SyntaxTree → SyntaxTree → Prop}
    (run : Option.Rel (ResultsAlike errors sessions) (Session.start.processAll left fuel tokens)
      (Session.start.processAll right fuel tokens))
    (finish : ∀ session session', sessions session session' →
      ResultsAlike kinds trees (session.finish left) (session'.finish right))
    (failure : ∀ failure failure', errors failure failure' → kinds failure.error failure'.error) :
    Option.Rel (ResultsAlike kinds trees) (left.parseTokens fuel tokens)
      (right.parseTokens fuel tokens) := by
  unfold Table.parseTokens
  generalize Session.start.processAll left fuel tokens = result at run
  generalize Session.start.processAll right fuel tokens = result' at run
  cases run with
  | none => exact .none
  | some steps =>
      cases steps with
      | ok last => exact .some (finish _ _ last)
      | error errors => exact .some (.error (failure _ _ errors))

end

/-! ## Reductions -/

namespace Session

variable {session session' : Session} {rule rule' : Rule}

theorem Alike.reduceNodes (alike : session.Alike names known session')
    (rules : RulesAlike names known rule rule') :
    StepsAlike names known (session.reduceNodes rule) (session'.reduceNodes rule') := by
  have count : rule.rhs.length = rule'.rhs.length := rules.rhs.length_eq
  have height : session.nodes.length = session'.nodes.length := alike.nodes.length_eq
  unfold Session.reduceNodes
  dsimp only
  rw [← rules.unwrapsSingle_eq, ← count, ← height]
  split
  · exact .ok alike
  · split
    · exact .error ⟨.emptyNodeStack, alike⟩
    · have taken : List.Forall₂ (SyntaxTree.Alike names known)
          (session.nodes.take rule.rhs.length).reverse
          (session'.nodes.take rule.rhs.length).reverse :=
        List.rel_reverse (List.forall₂_take _ alike.nodes)
      have left := List.forall₂_drop rule.rhs.length alike.nodes
      exact .ok ⟨alike.states_eq, .cons (.branch rules.lhs (rules.shape taken)) left,
        alike.accepted_eq⟩

end Session

namespace Table

variable {left right : Table} {session session' : Session}

/-- The cells of symbols with the same name both say nothing, or say the same by names. -/
theorem Agree.cell (agree : left.Agree right) {symbol symbol' : Symbol}
    (same : SameName left.symbols right.symbols symbol symbol') (state : Nat) :
    Option.Rel (EntriesAlike left.symbols right.symbols left.rules right.rules)
      (left.get? state symbol) (right.get? state symbol') := by
  cases found : left.get? state symbol with
  | none =>
      rw [agree.get?_eq_none same found]
      exact .none
  | some entry =>
      obtain ⟨entry', found', alike⟩ := agree.get?_eq_some same found
      rw [found']
      exact .some alike

theorem Agree.reduce (agree : left.Agree right)
    (alike : session.Alike left.symbols right.symbols session') {id id' : Nat} {rule rule' : Rule}
    (found : left.rules[id]? = some rule) (found' : right.rules[id']? = some rule')
    (rules : RulesAlike left.symbols right.symbols rule rule') :
    StepsAlike left.symbols right.symbols (session.reduce left id) (session'.reduce right id') := by
  have count : rule.rhs.length = rule'.rhs.length := rules.rhs.length_eq
  unfold Session.reduce rule?
  rw [found, found']
  dsimp only
  rw [← count, ← alike.states_eq]
  cases session.states.drop rule.rhs.length with
  | nil => exact .error ⟨.emptyStateStack, alike⟩
  | cons top below =>
      have back : Session.Alike left.symbols right.symbols
          { session with states := top :: below } { session' with states := top :: below } :=
        ⟨rfl, alike.nodes, alike.accepted_eq⟩
      have cells := agree.cell rules.lhs top
      dsimp only
      generalize left.get? top rule.lhs = cell at cells
      generalize right.get? top rule'.lhs = cell' at cells
      cases cells with
      | none => exact .error ⟨.missingGoto top rules.lhs, back⟩
      | some entries =>
          cases entries with
          | goto next =>
              have gone : Session.Alike left.symbols right.symbols
                  { session with states := next :: top :: below }
                  { session' with states := next :: top :: below } :=
                ⟨rfl, alike.nodes, alike.accepted_eq⟩
              exact gone.reduceNodes rules
          | shift => exact .error ⟨.missingGoto top rules.lhs, back⟩
          | accept => exact .error ⟨.missingGoto top rules.lhs, back⟩
          | reduce => exact .error ⟨.missingGoto top rules.lhs, back⟩

/-! ## Tokens -/

/-- With the same number of steps, a token is taken in both sessions, refused in both of them, or
needs more steps in both of them. -/
theorem Agree.advance (agree : left.Agree right)
    (alike : session.Alike left.symbols right.symbols session') {token : Token}
    (named : SameName left.symbols right.symbols token.symbol token.symbol) (fuel : Nat) :
    Option.Rel (StepsAlike left.symbols right.symbols) (session.advance left token fuel)
      (session'.advance right token fuel) := by
  induction fuel generalizing session session' with
  | zero => exact .none
  | succ fuel ih =>
      rw [Session.advance, Session.advance, ← alike.states_eq]
      cases isStack : session.states with
      | nil => exact .some (.error ⟨.emptyStateStack, alike⟩)
      | cons top below =>
          have refused : Failure.Alike left.symbols right.symbols
              ⟨.unexpectedToken top token (left.expected top), session⟩
              ⟨.unexpectedToken top token (right.expected top), session'⟩ :=
            ⟨.unexpectedToken top token (agree.expected top), alike⟩
          have cells := agree.cell named top
          dsimp only
          generalize left.get? top token.symbol = cell at cells
          generalize right.get? top token.symbol = cell' at cells
          cases cells with
          | none => exact .some (.error refused)
          | some entries =>
              cases entries with
              | shift next =>
                  exact .some (.ok ⟨rfl, .cons (.leaf named) alike.nodes, alike.accepted_eq⟩)
              | accept => exact .some (.ok ⟨rfl, alike.nodes, rfl⟩)
              | goto => exact .some (.error refused)
              | reduce found found' rules =>
                  have reduced := agree.reduce alike found found' rules
                  dsimp only
                  generalize session.reduce left _ = result at reduced
                  generalize session'.reduce right _ = result' at reduced
                  cases reduced with
                  | ok next => exact ih next
                  | error failure => exact .some (.error failure)

theorem Agree.process (agree : left.Agree right)
    (alike : session.Alike left.symbols right.symbols session') {token : Token}
    (named : SameName left.symbols right.symbols token.symbol token.symbol) (fuel : Nat) :
    Option.Rel (StepsAlike left.symbols right.symbols) (session.process left fuel token)
      (session'.process right fuel token) := by
  unfold Session.process
  rw [← alike.accepted_eq]
  split
  · exact .some (.error ⟨.alreadyAccepted token.symbol, alike⟩)
  · exact agree.advance alike named fuel

/-- All tokens are taken in step, up to the first error. -/
theorem Agree.processAll (agree : left.Agree right)
    (alike : session.Alike left.symbols right.symbols session') {tokens : List Token}
    (named : ∀ token ∈ tokens, SameName left.symbols right.symbols token.symbol token.symbol)
    (fuel : Nat) :
    Option.Rel (StepsAlike left.symbols right.symbols) (session.processAll left fuel tokens)
      (session'.processAll right fuel tokens) := by
  refine Session.rel_processAll (fun token member session session' alike => ?_) alike
  exact agree.process alike (named token member) fuel

theorem Agree.finish (agree : left.Agree right)
    (alike : session.Alike left.symbols right.symbols session') :
    ResultsAlike (ParseError.Alike left.symbols right.symbols)
      (SyntaxTree.Alike left.symbols right.symbols) (session.finish left)
      (session'.finish right) := by
  obtain ⟨states, nodes, accepted⟩ := session
  obtain ⟨states', nodes', accepted'⟩ := session'
  obtain ⟨areStates, areNodes, areAccepted⟩ := alike
  cases areStates
  cases areAccepted
  have height : nodes.length = nodes'.length := areNodes.length_eq
  unfold Session.finish
  dsimp only
  split
  · cases areNodes with
    | nil => exact .error (.unbalancedNodeStack 0)
    | cons first rest =>
        cases rest with
        | nil => exact .ok first
        | cons second rest =>
            dsimp only
            rw [height]
            exact .error (.unbalancedNodeStack _)
  · refine .error (.unexpectedEnd ?_)
    cases states with
    | nil => exact .nil
    | cons top below => exact agree.expected top

/-- With tables that agree, the tokens of a list give trees that are alike or errors that are
alike, in the same number of steps for each token. -/
theorem Agree.parseTokens (agree : left.Agree right) {tokens : List Token}
    (named : ∀ token ∈ tokens, SameName left.symbols right.symbols token.symbol token.symbol)
    (fuel : Nat) :
    Option.Rel (ResultsAlike (ParseError.Alike left.symbols right.symbols)
      (SyntaxTree.Alike left.symbols right.symbols)) (left.parseTokens fuel tokens)
      (right.parseTokens fuel tokens) := by
  have start : Session.start.Alike left.symbols right.symbols Session.start := ⟨rfl, .nil, rfl⟩
  exact rel_parseTokens (agree.processAll start named fuel) (fun _ _ last => agree.finish last)
    fun _ _ failed => failed.error

end Table

end ParserGenerator
