import ParserGenerator.Proofs.Grammar.Trees

/-!
# Beginnings of derived strings

A string of symbols may derive strings that begin with given tokens although none of them is a
string of tokens: behind the tokens there may be symbols that derive nothing at all. `Begins`
tells how the tokens are reached: whole derivation trees as long as tokens are left behind them,
then down into the first symbol that is not read to its end.

Results: `Begins.of_derives`, that all beginnings of derived strings are reached in this way, and
`Begins.derives`, that nothing else is.
-/

namespace ParserGenerator

/-- `Begins g string tokens`: the string derives some string that begins with the tokens. A tree
counts as read only when a token is left behind it. -/
inductive Begins (g : Grammar) : SymbolString → List Token → Prop
  | stop (string : SymbolString) : Begins g string []
  | token {token : Token} (terminal : g.isNonterminal token.symbol = false)
      (rest : SymbolString) : Begins g (token.symbol :: rest) [token]
  | tree {tree : DerivationTree} {rest : SymbolString} {next : Token} {tokens : List Token}
      (valid : tree.Valid g) (behind : Begins g rest (next :: tokens)) :
      Begins g (tree.root :: rest) (tree.leaves ++ next :: tokens)
  | inside {rule : Rule} {tokens : List Token} (member : rule ∈ g.userRules)
      (within : Begins g rule.rhs tokens) (rest : SymbolString) :
      Begins g (rule.lhs :: rest) tokens

namespace Begins

variable {g : Grammar}

/-- Trees for the symbols in front of a string, and a beginning behind them. -/
theorem trees {trees : List DerivationTree} {rest : SymbolString} {next : Token}
    {tokens : List Token} (valid : ∀ tree ∈ trees, tree.Valid g)
    (behind : Begins g rest (next :: tokens)) :
    Begins g (trees.map DerivationTree.root ++ rest)
      (DerivationTree.leavesOfAll trees ++ next :: tokens) := by
  induction trees with
  | nil => exact behind
  | cons tree others ih =>
      have later := ih fun other member => valid other (List.mem_cons_of_mem _ member)
      rw [DerivationTree.leavesOfAll, List.append_assoc, List.map_cons, List.cons_append]
      cases split : DerivationTree.leavesOfAll others ++ next :: tokens with
      | nil => simp at split
      | cons first following =>
          rw [split] at later
          exact .tree (valid tree List.mem_cons_self) later

theorem append_right {string : SymbolString} {tokens : List Token} (begins : Begins g string tokens)
    (back : SymbolString) : Begins g (string ++ back) tokens := by
  induction begins with
  | stop => exact .stop _
  | token terminal rest => exact .token terminal (rest ++ back)
  | tree valid _ ih => exact .tree valid ih
  | inside member within rest _ => exact .inside member within (rest ++ back)

/-- The tokens end in front of `back`, or trees for all of `front` are followed by tokens from
`back`. -/
theorem split {front back : SymbolString} {tokens : List Token}
    (begins : Begins g (front ++ back) tokens) :
    Begins g front tokens ∨ ∃ trees next later, (∀ tree ∈ trees, tree.Valid g) ∧
      trees.map DerivationTree.root = front ∧
      tokens = DerivationTree.leavesOfAll trees ++ next :: later ∧
      Begins g back (next :: later) := by
  induction front generalizing tokens with
  | nil =>
      cases tokens with
      | nil => exact .inl (.stop _)
      | cons next later => exact .inr ⟨[], next, later, by simp, rfl, rfl, begins⟩
  | cons symbol front ih =>
      rw [List.cons_append] at begins
      generalize whole : symbol :: (front ++ back) = string at begins
      cases begins with
      | stop => exact .inl (.stop _)
      | token terminal rest =>
          cases whole
          exact .inl (.token terminal front)
      | inside member within rest =>
          cases whole
          exact .inl (.inside member within front)
      | @tree tree rest next later valid behind =>
          cases whole
          rcases ih behind with inFront | ⟨trees, last, final, allValid, roots, equal, begins⟩
          · exact .inl (.tree valid inFront)
          · refine .inr ⟨tree :: trees, last, final, ?_, ?_, ?_, begins⟩
            · intro other member
              rcases List.mem_cons.1 member with isFirst | inTrees
              · exact isFirst ▸ valid
              · exact allValid other inTrees
            · rw [List.map_cons, roots]
            · rw [DerivationTree.leavesOfAll, List.append_assoc, ← equal]

/-- A replacement can be taken back: its right-hand side is read inside its left-hand side, or to
its end as the children of a node. -/
theorem of_once {first last : SymbolString} (once : DerivesOnce g.userRules first last)
    {tokens : List Token} (begins : Begins g last tokens) : Begins g first tokens := by
  obtain @⟨rule, member, front, back⟩ := once
  rcases begins.split with inFront | ⟨trees, next, later, valid, roots, equal, inRest⟩
  · exact inFront.append_right _
  · rw [equal, ← roots]
    refine Begins.trees valid ?_
    rcases inRest.split with inRhs | ⟨children, next', later', valid', roots', equal', inBack⟩
    · exact .inside member inRhs back
    · rw [equal']
      exact .tree (.node rule children member roots' valid') inBack

theorem of_tokens {tokens : List Token}
    (terminal : ∀ token ∈ tokens, g.isNonterminal token.symbol = false) (rest : SymbolString) :
    Begins g (tokens.map Token.symbol ++ rest) tokens := by
  induction tokens with
  | nil => exact .stop _
  | cons token tokens ih =>
      have isTerminal := terminal token List.mem_cons_self
      cases tokens with
      | nil => exact .token isTerminal rest
      | cons next later =>
          have behind := ih fun other member => terminal other (List.mem_cons_of_mem _ member)
          exact .tree (.leaf token isTerminal) behind

/-- All beginnings of derived strings are reached. -/
theorem of_derives {string rest : SymbolString} {tokens : List Token}
    (derived : Derives g.userRules string (tokens.map Token.symbol ++ rest))
    (terminal : ∀ token ∈ tokens, g.isNonterminal token.symbol = false) :
    Begins g string tokens := by
  generalize reached : tokens.map Token.symbol ++ rest = last at derived
  induction derived with
  | refl => exact reached ▸ of_tokens terminal rest
  | step once _ ih => exact (ih reached).of_once once

theorem derives {string : SymbolString} {tokens : List Token} (begins : Begins g string tokens) :
    ∃ rest, Derives g.rules string (tokens.map Token.symbol ++ rest) := by
  induction begins with
  | stop string => exact ⟨string, .refl _⟩
  | token _ rest => exact ⟨rest, .refl _⟩
  | @tree tree rest next tokens valid _ ih =>
      obtain ⟨behind, derived⟩ := ih
      refine ⟨behind, ?_⟩
      rw [List.map_append, List.append_assoc]
      exact valid.derives.append derived
  | @inside rule tokens member _ rest ih =>
      obtain ⟨behind, derived⟩ := ih
      refine ⟨behind ++ rest, ?_⟩
      rw [← List.append_assoc]
      have once := Derives.of_rule (Grammar.mem_rules.2 (.inr member))
      exact (once.trans derived).append (.refl rest)

theorem terminal {string : SymbolString} {tokens : List Token} (begins : Begins g string tokens) :
    ∀ token ∈ tokens, g.isNonterminal token.symbol = false := by
  induction begins with
  | stop =>
      intro token member
      cases member
  | token terminal _ =>
      intro token member
      rw [List.mem_singleton.1 member]
      exact terminal
  | tree valid _ ih =>
      intro token member
      rcases List.mem_append.1 member with inTree | behind
      · exact valid.terminal_of_mem_leaves token inTree
      · exact ih token behind
  | inside _ _ _ ih => exact ih

end Begins

end ParserGenerator
