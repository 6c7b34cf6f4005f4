import ParserGenerator.Item
import ParserGenerator.Queue

/-!
# Closing item sets

An item whose marker stands in front of a nonterminal expects one of the nonterminal's rules, so
the closure of an item holds these rules with the marker in front. Their lookahead is what can
stand behind the nonterminal: the first symbols of what follows it in the item and, if all of that
can be empty, the lookahead of the item itself. Whenever an item is new or its lookahead has grown,
it waits to be expanded again.

An item set is closed item by item. Closures of single items are remembered, for the same item
turns up in many states.
-/

namespace ParserGenerator

namespace Grammar

/-- A bound on the number of terminals: the positions of right-hand sides and the end of the
input. -/
def terminalBound (g : Grammar) : Nat := 1 + (g.rules.flatMap Rule.rhs).length

/-- What can stand behind the symbol at the marker, from the lookaheads in `set`. -/
def lookaheadBehind (g : Grammar) (set : ItemSet) (core : ItemCore) : SymbolSet :=
  let first := g.firstOf (core.rest g)
  if first.contains Symbol.epsilon then
    (first.erase Symbol.epsilon) ∪ ((set.get? core).getD ∅)
  else first

/-- Adds an item with its marker in front for each of some rules; the items that are new or have
grown join the queue. -/
def addRules (lookahead : SymbolSet) (set : ItemSet) (waiting : Queue ItemCore) :
    List (Nat × Rule) → ItemSet × Queue ItemCore
  | [] => (set, waiting)
  | (id, _) :: rest =>
      let grown := set.insert ⟨⟨id, 0⟩, lookahead⟩
      -- An item that has not grown was expanded with this lookahead before.
      if grown = set then addRules lookahead set waiting rest
      else addRules lookahead grown (waiting.push ⟨id, 0⟩).2 rest

/-- Adds what a core in the set expects. -/
def expandCore (g : Grammar) (core : ItemCore) (set : ItemSet) (waiting : Queue ItemCore) :
    ItemSet × Queue ItemCore :=
  match core.nextSymbol g with
  | none => (set, waiting)
  | some next =>
      if g.isNonterminal next then
        addRules (g.lookaheadBehind set core) set waiting (g.rulesOf next)
      else (set, waiting)

/-- Expands the waiting cores until none is left, at most `fuel` of them. -/
def expandWaiting (g : Grammar) : (fuel : Nat) → ItemSet → Queue ItemCore → ItemSet
  | 0, set, _ => set
  | fuel + 1, set, waiting =>
      match waiting.pop with
      | none => set
      | some (core, waiting) =>
          let (set, waiting) := g.expandCore core set waiting
          g.expandWaiting fuel set waiting

/-- The closure of one item. A core waits once at the beginning and then whenever its item is new
or its lookahead has grown, which bounds the number of expansions. -/
def closeItem (g : Grammar) (item : Item) : ItemSet :=
  let growth := g.rules.length * (1 + g.terminalBound + item.lookahead.size)
  g.expandWaiting (1 + growth) (ItemSet.ofList [item]) (Queue.ofList [item.core])

end Grammar

/-- The closures of single items that are known already. -/
abbrev KnownClosures := List (Item × ItemSet)

namespace KnownClosures

/-- The closure of an item, which is computed once. -/
def closeItem (g : Grammar) (known : KnownClosures) (item : Item) : ItemSet × KnownClosures :=
  match known.lookup item with
  | some closed => (closed, known)
  | none =>
      let closed := g.closeItem item
      (closed, (item, closed) :: known)

/-- Joins the closures of several items to a set. -/
def closeItems (g : Grammar) (known : KnownClosures) (closed : ItemSet) :
    List Item → ItemSet × KnownClosures
  | [] => (closed, known)
  | item :: rest =>
      let (one, known) := known.closeItem g item
      known.closeItems g (closed ∪ one) rest

/-- The closure of an item set. -/
def close (g : Grammar) (known : KnownClosures) (kernel : ItemSet) : ItemSet × KnownClosures :=
  known.closeItems g ∅ kernel.items

end KnownClosures

end ParserGenerator
