import ParserGenerator.Proofs.Session.Reachable

/-!
# The tokens on the stack

A reduction rearranges trees: it drops them, collapses them, puts their children in their place and
joins lists. None of this depends on where a table comes from, and none of it touches the order of
the tokens at the leaves. So the tokens under the trees of a session are among the tokens that it
shifted, in their order, whatever the table says and whatever was refused in between; and they are
all of them unless a rule discards a child.

Results: `Session.tokens_of_reachedBy`, and `Table.leaves_exact` with the tree of an accepted
input.
-/

namespace ParserGenerator

/-! ## Definitions -/

/-- The part has tokens of the whole in their order, and it is the whole where nothing is
dropped. -/
structure Kept (nothingDropped : Prop) (part whole : List Token) : Prop where
  sublist : part.Sublist whole
  complete : nothingDropped → part = whole

/-- No rule drops a child. -/
def Table.DiscardsNothing (table : Table) : Prop :=
  ∀ rule ∈ table.rules, ChildOption.discard ∉ rule.options

namespace Session

/-- The tokens under the trees of a session, from the bottom of the stack to its top. -/
def tokens (session : Session) : List Token := session.nodes.reverse.flatMap SyntaxTree.tokens

/-- The session that a step leaves, also where it ends with an error. -/
def left : Except Failure Session → Session
  | .ok session => session
  | .error failure => failure.session

/-- What a step has shifted: a token that was taken without being accepted. -/
def shiftedBy (token : Token) : Except Failure Session → List Token
  | .ok session => if session.accepted then [] else [token]
  | .error _ => []

/-- The sessions that are reached by feeding tokens, errors included, with the tokens that were
shifted on the way. -/
inductive ReachedBy (table : Table) : List Token → Session → Prop
  | start : ReachedBy table [] start
  | fed {shifted : List Token} {session : Session} {outcome : Except Failure Session} {fuel : Nat}
      {token : Token} (reached : ReachedBy table shifted session)
      (processed : session.process table fuel token = some outcome) :
      ReachedBy table (shifted ++ shiftedBy token outcome) (left outcome)

end Session

/-! ## Parts -/

namespace Kept

variable {nothingDropped : Prop} {part whole : List Token}

theorem of_eq (same : part = whole) : Kept nothingDropped part whole :=
  ⟨same ▸ .refl part, fun _ => same⟩

theorem refl (tokens : List Token) : Kept nothingDropped tokens tokens := of_eq rfl

theorem nil_of_not (drops : ¬ nothingDropped) : Kept nothingDropped [] whole :=
  ⟨List.nil_sublist whole, fun kept => absurd kept drops⟩

theorem append {part' whole' : List Token} (first : Kept nothingDropped part whole)
    (second : Kept nothingDropped part' whole') :
    Kept nothingDropped (part ++ part') (whole ++ whole') :=
  ⟨first.sublist.append second.sublist, fun kept => by
    rw [first.complete kept, second.complete kept]⟩

theorem trans {larger : List Token} (inner : Kept nothingDropped part whole)
    (outer : Kept nothingDropped whole larger) : Kept nothingDropped part larger :=
  ⟨inner.sublist.trans outer.sublist, fun kept => (inner.complete kept).trans (outer.complete kept)⟩

theorem imp {weaker : Prop} (kept : Kept nothingDropped part whole)
    (implies : weaker → nothingDropped) : Kept weaker part whole :=
  ⟨kept.sublist, fun holds => kept.complete (implies holds)⟩

end Kept

/-! ## The tree of a rule -/

namespace Rule

open SyntaxTree

theorem kept_attach (option : ChildOption) (child : SyntaxTree) :
    Kept (option ≠ .discard) (leavesOfAll (attach option child)) child.leaves := by
  cases option with
  | discard => exact .nil_of_not fun differs => differs rfl
  | unwrap | wrap => exact .of_eq (by cases child <;> simp [attach, leaves, leavesOfAll])
  | default =>
      refine .of_eq ?_
      cases child with
      | leaf token => rfl
      | branch symbol children =>
          cases children with
          | nil => rfl
          | cons first rest =>
              cases rest with
              | nil => rfl
              | cons second later => simp [attach, leavesOfAll, leaves]

theorem leavesOfAll_flatten (lhs : Symbol) (trees : List SyntaxTree) :
    leavesOfAll (flatten lhs trees) = leavesOfAll trees := by
  unfold flatten
  split
  · split
    · rw [leavesOfAll_append]
      rfl
    · rfl
  · rfl

theorem kept_attached {trees : List SyntaxTree} {options : List ChildOption}
    (full : options.length = trees.length) :
    Kept (ChildOption.discard ∉ options)
      (leavesOfAll ((trees.zip options).flatMap fun (child, option) => attach option child))
      (leavesOfAll trees) := by
  induction trees generalizing options with
  | nil => exact .refl _
  | cons tree rest ih =>
      cases options with
      | nil => cases full
      | cons option later =>
          rw [List.zip_cons_cons, List.flatMap_cons, leavesOfAll_append]
          refine .append ((kept_attach option tree).imp fun nothing isDiscard => ?_)
            ((ih (Nat.succ.inj full)).imp fun nothing member => ?_)
          · exact nothing (List.mem_cons.2 (.inl isDiscard.symm))
          · exact nothing (List.mem_cons_of_mem option member)

theorem kept_shape (rule : Rule) {trees : List SyntaxTree}
    (full : rule.rhs.length = trees.length) :
    Kept (ChildOption.discard ∉ rule.options) (leavesOfAll (rule.shape trees))
      (leavesOfAll trees) := by
  have attached := kept_attached (rule.options_length.trans full)
  unfold shape
  dsimp only
  split
  · rw [leavesOfAll_flatten]
    exact attached
  · exact attached

end Rule

/-! ## Steps -/

namespace Session

open SyntaxTree

variable {table : Table} {session : Session} {token : Token} {outcome : Except Failure Session}

theorem tokens_eq (session : Session) : session.tokens = leavesOfAll session.nodes.reverse := by
  unfold tokens
  induction session.nodes.reverse with
  | nil => rfl
  | cons tree rest ih => rw [List.flatMap_cons, ih, tokens_eq_leaves, leavesOfAll]

theorem tokens_shift (states : List Nat) (nodes : List SyntaxTree) (accepted : Bool) :
    tokens ⟨states, .leaf token :: nodes, accepted⟩ =
      tokens ⟨states, nodes, accepted⟩ ++ [token] := by
  simp [tokens_eq, leavesOfAll_append, leavesOfAll, leaves]

theorem kept_reduceNodes (session : Session) (rule : Rule) :
    Kept (ChildOption.discard ∉ rule.options) (left (session.reduceNodes rule)).tokens
      session.tokens := by
  unfold reduceNodes
  dsimp only
  split
  · exact .refl _
  · split
    · exact .refl _
    · rename_i enough
      have full : rule.rhs.length = (session.nodes.take rule.rhs.length).reverse.length := by
        rw [List.length_reverse, List.length_take, Nat.min_eq_left (Nat.le_of_not_lt enough)]
      -- The nodes of the right-hand side stand above the others, so that their tokens come last.
      have apart : session.tokens = leavesOfAll (session.nodes.drop rule.rhs.length).reverse ++
          leavesOfAll (session.nodes.take rule.rhs.length).reverse := by
        rw [tokens_eq, ← leavesOfAll_append, ← List.reverse_append, List.take_append_drop]
      rw [tokens_eq, apart]
      simpa [left, leavesOfAll_append, leavesOfAll, leaves] using
        (Kept.refl (leavesOfAll (session.nodes.drop rule.rhs.length).reverse)).append
          (rule.kept_shape full)

theorem kept_reduce (table : Table) (session : Session) (id : Nat) :
    Kept table.DiscardsNothing (left (session.reduce table id)).tokens session.tokens := by
  unfold reduce
  split
  · exact .refl _
  · rename_i rule known
    split
    · exact .refl _
    · split
      · exact (kept_reduceNodes _ rule).imp fun nothing => nothing rule (List.mem_of_getElem? known)
      · exact .refl _

theorem accepted_of_reduce {id : Nat} {after : Session}
    (reduced : session.reduce table id = .ok after) : after.accepted = session.accepted := by
  unfold reduce at reduced
  split at reduced
  · cases reduced
  · split at reduced
    · cases reduced
    · split at reduced
      · unfold reduceNodes at reduced
        dsimp only at reduced
        split at reduced
        · cases reduced
          rfl
        · split at reduced
          · cases reduced
          · cases reduced
            rfl
      · cases reduced

theorem Takes.kept {log : List Rule} (takes : session.Takes table token log outcome)
    (running : session.accepted = false) :
    Kept table.DiscardsNothing (left outcome).tokens
      (session.tokens ++ shiftedBy token outcome) := by
  induction takes with
  | shift =>
      cases running
      exact .of_eq (tokens_shift _ _ _)
  | accept => exact .of_eq (List.append_nil _).symm
  | @reduce top id below nodes accepted rule after log outcome _ _ reduced _ ih =>
      have before := kept_reduce table ⟨top :: below, nodes, accepted⟩ id
      rw [reduced] at before
      exact (ih ((accepted_of_reduce reduced).trans running)).trans (before.append (.refl _))
  | @fail top id below nodes accepted failure _ failed =>
      have before := kept_reduce table ⟨top :: below, nodes, accepted⟩ id
      rw [failed] at before
      exact before.trans (.of_eq (List.append_nil _).symm)
  | refuse => exact .of_eq (List.append_nil _).symm
  | bottom => exact .of_eq (List.append_nil _).symm

/-! ## Runs -/

theorem kept_process {fuel : Nat} (processed : session.process table fuel token = some outcome) :
    Kept table.DiscardsNothing (left outcome).tokens
      (session.tokens ++ shiftedBy token outcome) := by
  cases running : session.accepted with
  | true =>
      rw [process_of_accepted running] at processed
      cases processed
      exact .of_eq (List.append_nil _).symm
  | false =>
      obtain ⟨log, takes⟩ := takes_of_process running processed
      exact takes.kept running

/-- The tokens under the trees of a session are shifted tokens in their order, and all of them
where nothing is discarded. -/
theorem tokens_of_reachedBy {shifted : List Token} (reached : session.ReachedBy table shifted) :
    Kept table.DiscardsNothing session.tokens shifted := by
  induction reached with
  | start => exact .refl []
  | fed _ processed ih => exact (kept_process processed).trans (ih.append (.refl _))

/-- A session that takes a list of tokens and accepts has shifted all but the last of them, which it
accepted. -/
theorem exists_closing {shifted rest : List Token} {fuel : Nat} {after : Session}
    (reached : session.ReachedBy table shifted) (running : session.accepted = false)
    (processed : session.processAll table fuel rest = some (.ok after))
    (closed : after.accepted = true) :
    ∃ word closing, ∃ before : Session, rest = word ++ [closing] ∧
      before.ReachedBy table (shifted ++ word) ∧ before.accepted = false ∧
      before.process table fuel closing = some (.ok after) := by
  induction rest generalizing session shifted with
  | nil =>
      cases processed
      cases running.symm.trans closed
  | cons token rest ih =>
      unfold processAll at processed
      obtain ⟨outcome, first, later⟩ := Option.bind_eq_some_iff.1 processed
      cases outcome with
      | error failure => cases later
      | ok next =>
          dsimp only at later
          cases finished : next.accepted with
          | false =>
              have fed := ReachedBy.fed reached first
              rw [shiftedBy, finished, if_neg Bool.false_ne_true] at fed
              obtain ⟨word, closing, before, isRest, reached', running', last⟩ :=
                ih fed finished later
              refine ⟨token :: word, closing, before, congrArg (token :: ·) isRest, ?_, running',
                last⟩
              rw [List.append_assoc] at reached'
              exact reached'
          | true =>
              cases rest with
              | nil =>
                  cases later
                  exact ⟨[], token, session, rfl, (List.append_nil shifted).symm ▸ reached, running,
                    first⟩
              | cons second rest =>
                  unfold processAll at later
                  rw [process_of_accepted finished] at later
                  cases later

end Session

/-- For every table: no token is lost, duplicated or reordered on the stack of a session, whatever
was fed to it, and a token is dropped only where a rule discards a child. Without such rules, the
tree of a whole input has all tokens in front of the accepted one. -/
theorem Table.leaves_exact (table : Table) :
    (∀ shifted session, Session.ReachedBy table shifted session →
      (session.nodes.reverse.flatMap SyntaxTree.tokens).Sublist shifted) ∧
    ((∀ rule ∈ table.rules, ChildOption.discard ∉ rule.options) →
      (∀ shifted session, Session.ReachedBy table shifted session →
        session.nodes.reverse.flatMap SyntaxTree.tokens = shifted) ∧
      ∀ fuel tokens tree, table.parseTokens fuel tokens = some (.ok tree) →
        ∃ closing, ∃ before after : Session, tokens = tree.tokens ++ [closing] ∧
          before.ReachedBy table tree.tokens ∧ before.accepted = false ∧
          before.process table fuel closing = some (.ok after) ∧ after.accepted = true) := by
  refine ⟨fun shifted session reached => (Session.tokens_of_reachedBy reached).sublist,
    fun nothing => ⟨fun shifted session reached =>
      (Session.tokens_of_reachedBy reached).complete nothing, fun fuel tokens tree parsed => ?_⟩⟩
  unfold Table.parseTokens at parsed
  obtain ⟨outcome, processed, finished⟩ := Option.bind_eq_some_iff.1 parsed
  cases outcome with
  | error failure => cases finished
  | ok after =>
      replace finished := Option.some.inj finished
      unfold Session.finish at finished
      split at finished
      · rename_i closed
        split at finished
        · rename_i only single
          obtain rfl : only = tree := Except.ok.inj finished
          obtain ⟨word, closing, before, isTokens, reached, running, last⟩ :=
            Session.exists_closing .start rfl processed closed
          -- The closing token is accepted: the tree has what was shifted in front of it.
          have whole := (Session.tokens_of_reachedBy (.fed reached last)).complete nothing
          rw [Session.left, Session.shiftedBy, closed, if_pos rfl, List.append_nil] at whole
          have isWord : only.tokens = word := by
            simpa [Session.tokens, single] using whole
          rw [isWord]
          exact ⟨closing, before, after, isTokens, reached, running, last, closed⟩
        · cases finished
      · cases finished

/-- A table made by hand for lists `3 := 3 4` and `3 := 4`, where the first rule is chained. -/
def listTable : Table where
  symbols := SymbolTable.initial
  rules := [.ofOptions ⟨3⟩ [⟨3⟩, ⟨4⟩] [.wrap, .default] true, .plain ⟨3⟩ [⟨4⟩]]
  rows := [[(⟨4⟩, .shift 1), (⟨3⟩, .goto 2)], [(⟨4⟩, .reduce 1), (.endOfInput, .reduce 1)],
    [(⟨4⟩, .shift 3), (.endOfInput, .accept)], [(⟨4⟩, .reduce 0), (.endOfInput, .reduce 0)]]
  conflicts := []

/-- Two elements and the end of the input. -/
def listTokens : List Token := [⟨⟨4⟩, "x", 0, 1⟩, ⟨⟨4⟩, "y", 1, 2⟩, .endOfInput 2]

/-- The tree of the two elements, side by side. -/
def listTree : SyntaxTree := .branch ⟨3⟩ [.leaf ⟨⟨4⟩, "x", 0, 1⟩, .leaf ⟨⟨4⟩, "y", 1, 2⟩]

theorem leaves_exact_list :
    (∀ rule ∈ listTable.rules, ChildOption.discard ∉ rule.options) ∧
      listTable.parseTokens 3 listTokens = some (.ok listTree) ∧
      (∃ session : Session, session.nodes ≠ [] ∧ ∃ shifted,
        Session.ReachedBy listTable shifted session ∧
        (session.nodes.reverse.flatMap SyntaxTree.tokens).Sublist shifted ∧
        session.nodes.reverse.flatMap SyntaxTree.tokens = shifted) ∧
      ∃ closing, ∃ before after : Session, listTokens = listTree.tokens ++ [closing] ∧
        before.ReachedBy listTable listTree.tokens ∧ before.accepted = false ∧
        before.process listTable 3 closing = some (.ok after) ∧ after.accepted = true := by
  have nothing : ∀ rule ∈ listTable.rules, ChildOption.discard ∉ rule.options := by decide
  have parsed : listTable.parseTokens 3 listTokens = some (.ok listTree) := by decide
  have shifted : Session.start.process listTable 3 ⟨⟨4⟩, "x", 0, 1⟩ =
      some (.ok ⟨[1, 0], [.leaf ⟨⟨4⟩, "x", 0, 1⟩], false⟩) := by decide
  have reached := Session.ReachedBy.fed .start shifted
  obtain ⟨among, exact⟩ := Table.leaves_exact listTable
  obtain ⟨all, whole⟩ := exact nothing
  exact ⟨nothing, parsed, ⟨_, List.cons_ne_nil _ _, _, reached, among _ _ reached, all _ _ reached⟩,
    whole 3 listTokens listTree parsed⟩

end ParserGenerator
