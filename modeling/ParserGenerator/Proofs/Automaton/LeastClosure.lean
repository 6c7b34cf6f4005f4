import Mathlib.Order.Bounds.Basic
import ParserGenerator.Proofs.Automaton.KnownClosures
import ParserGenerator.Proofs.Grammar.Following

/-!
# Closing a kernel gives the least closed set

Item sets are ordered by what they hold: the smaller one has no core and no lookahead symbol that
the larger one does not have. An item set is closed when it holds the rules of what its items
expect, with a lookahead that is read off the derivations of the grammar alone. What is computed by
closing a kernel is the least closed set above the kernel, whatever was closed before, and so is the
union of the closures of its items.

Results: `KnownClosures.close_least`.
-/

namespace ParserGenerator

/-! ## Definitions -/

/-- The smaller set holds nothing that the larger one does not hold. -/
structure ItemSet.Contains (larger smaller : ItemSet) : Prop where
  has : ∀ core, smaller.Has core → larger.Has core
  looks : ∀ core, ∀ x ∈ smaller.lookahead core, x ∈ larger.lookahead core

instance : PartialOrder ItemSet where
  le smaller larger := larger.Contains smaller
  le_refl _ := ⟨fun _ has => has, fun _ _ member => member⟩
  le_trans _ _ _ early late :=
    ⟨fun core has => late.has core (early.has core has),
      fun core x member => late.looks core x (early.looks core x member)⟩
  le_antisymm _ _ below above :=
    ItemSet.ext_has (fun core => ⟨below.has core, above.has core⟩)
      fun core x => ⟨below.looks core x, above.looks core x⟩

/-- The terminal begins something that is derived from the string. -/
def Grammar.CanBegin (g : Grammar) (string : SymbolString) (x : Symbol) : Prop :=
  g.isTerminal x = true ∧ ∃ rest, Derives g.rules string (x :: rest)

/-- For an item in front of a nonterminal the set has the rules of the nonterminal with their
markers in front. Their lookahead has what can begin the rest of the item behind the nonterminal
and, if the rest can be empty, the lookahead of the item. -/
def ItemSet.IsClosed (g : Grammar) (set : ItemSet) : Prop :=
  ∀ item ∈ set.items, ∀ symbol, item.core.nextSymbol g = some symbol →
    ∀ id rule, g.rule? id = some rule → rule.lhs = symbol →
      set.Has ⟨id, 0⟩ ∧
      (∀ x, g.CanBegin (item.core.rest g) x → x ∈ set.lookahead ⟨id, 0⟩) ∧
      (Derives g.rules (item.core.rest g) [] → ∀ x ∈ item.lookahead, x ∈ set.lookahead ⟨id, 0⟩)

/-- What is remembered when the kernels of a list have been closed one after another. -/
def KnownClosures.after (g : Grammar) (history : List ItemSet) : KnownClosures :=
  history.foldl (fun known kernel => (known.close g kernel).2) []

variable {g : Grammar} {kernel set : ItemSet} {core : ItemCore} {x : Symbol}

/-! ## Closed sets -/

theorem Grammar.WellFormed.canBegin_iff (formed : g.WellFormed) {string : SymbolString} :
    g.CanBegin string x ↔ x ≠ Symbol.epsilon ∧ x ∈ g.firstOf string := by
  constructor
  · rintro ⟨isTerminal, derived⟩
    have terminal := (Grammar.isTerminal_iff formed).1 isTerminal
    exact ⟨fun equal => formed.epsilon_not_mem_terminals (equal ▸ terminal),
      (formed.mem_firstOf_iff terminal).2 derived⟩
  · rintro ⟨differs, begins⟩
    have terminal := (formed.firstOf_subset begins).resolve_right differs
    exact ⟨(Grammar.isTerminal_iff formed).2 terminal, (formed.mem_firstOf_iff terminal).1 begins⟩

/-- A closure is closed. -/
theorem IsClosure.isClosed (formed : g.WellFormed) {items : List Item}
    (closure : IsClosure g items set) : set.IsClosed g := by
  intro item member symbol next id rule found lhs
  have ofNext := Grammar.mem_rulesOf.2 ⟨found, lhs⟩
  have has := (closure.has item.core).1 (ItemSet.has_iff.2 ⟨item, member, rfl⟩)
  refine ⟨(closure.has _).2 (.expand has next ofNext), fun x begins => ?_, fun empty x inSet => ?_⟩
  · obtain ⟨differs, inFirst⟩ := formed.canBegin_iff.1 begins
    exact (closure.looks _ x).2 (.first has next ofNext differs inFirst)
  · have looks := (closure.looks item.core x).1
      (ItemSet.mem_lookahead_iff.2 ⟨item, member, rfl, inSet⟩)
    exact (closure.looks _ x).2
      (.inherit looks next ofNext (formed.epsilon_mem_firstOf_iff.2 empty))

section

variable (closed : set.IsClosed g) (above : kernel ≤ set)
include closed above

/-- A closed set above a kernel has every core that the closure must have. -/
theorem ItemSet.IsClosed.has (has : ClosureHas g kernel.items core) : set.Has core := by
  induction has with
  | @kernel item member => exact above.has item.core (ItemSet.has_iff.2 ⟨item, member, rfl⟩)
  | expand _ next ofNext ih =>
      obtain ⟨item, member, rfl⟩ := ItemSet.has_iff.1 ih
      obtain ⟨found, lhs⟩ := Grammar.mem_rulesOf.1 ofNext
      exact (closed item member _ next _ _ found lhs).1

/-- A closed set above a kernel has every lookahead symbol that the closure must have. -/
theorem ItemSet.IsClosed.looks (formed : g.WellFormed) (looks : ClosureLooks g kernel.items core x) :
    x ∈ set.lookahead core := by
  induction looks with
  | @kernel item member x inSet =>
      exact above.looks item.core x (ItemSet.mem_lookahead_iff.2 ⟨item, member, rfl, inSet⟩)
  | first has next ofNext differs begins =>
      obtain ⟨item, member, rfl⟩ := ItemSet.has_iff.1 (closed.has above has)
      obtain ⟨found, lhs⟩ := Grammar.mem_rulesOf.1 ofNext
      exact (closed item member _ next _ _ found lhs).2.1 _
        (formed.canBegin_iff.2 ⟨differs, begins⟩)
  | inherit _ next ofNext nullable ih =>
      obtain ⟨item, member, rfl, inSet⟩ := ItemSet.mem_lookahead_iff.1 ih
      obtain ⟨found, lhs⟩ := Grammar.mem_rulesOf.1 ofNext
      exact (closed item member _ next _ _ found lhs).2.2
        (formed.epsilon_mem_firstOf_iff.1 nullable) _ inSet

end

/-- The closure of a kernel is the least closed set above it. -/
theorem Grammar.closure_isLeast (formed : g.WellFormed) (kernel : ItemSet) :
    IsLeast {set | kernel ≤ set ∧ set.IsClosed g} (g.closure kernel) := by
  have closure := g.closure_spec formed kernel
  refine ⟨⟨⟨fun core has => ?_, fun core x looks => ?_⟩, closure.isClosed formed⟩, ?_⟩
  · obtain ⟨item, member, rfl⟩ := ItemSet.has_iff.1 has
    exact (closure.has _).2 (.kernel member)
  · obtain ⟨item, member, rfl, inSet⟩ := ItemSet.mem_lookahead_iff.1 looks
    exact (closure.looks _ x).2 (.kernel member inSet)
  · rintro set ⟨above, closed⟩
    exact ⟨fun core has => closed.has above ((closure.has core).1 has),
      fun core x looks => closed.looks above formed ((closure.looks core x).1 looks)⟩

/-! ## What is remembered -/

namespace KnownClosures

theorem sound_after (g : Grammar) (history : List ItemSet) : Sound g (after g history) := by
  unfold after
  generalize nothing : ([] : KnownClosures) = known
  have sound : Sound g known := nothing ▸ sound_nil
  clear nothing
  induction history generalizing known with
  | nil => exact sound
  | cons kernel rest ih => exact ih _ (close_spec sound kernel).2

theorem close_after (g : Grammar) (history : List ItemSet) (kernel : ItemSet) :
    ((after g history).close g kernel).1 = g.closure kernel :=
  (close_spec (sound_after g history) kernel).1

/-- The closure of an item alone. -/
theorem closure_singleton (g : Grammar) (item : Item) :
    g.closure (ItemSet.ofList [item]) = g.closeItem item := by
  show ∅ ∪ g.closeItem item = g.closeItem item
  refine ItemSet.ext_has (fun core => ?_) fun core x => ?_
  · rw [ItemSet.has_union]
    exact or_iff_right ItemSet.not_has_empty
  · rw [ItemSet.mem_lookahead_union]
    exact or_iff_right ItemSet.not_mem_lookahead_empty

/-- After any kernels were closed, closing a kernel gives the least closed set above it, and this is
the union of what closing each of its items alone gives, after any other kernels were closed. -/
theorem close_least {rules : List Rule} {start : Option Symbol} {names : SymbolTable}
    (accepted : Grammar.ofRules rules start names = .ok g) (history : List ItemSet)
    (kernel : ItemSet) :
    IsLeast {set | kernel ≤ set ∧ set.IsClosed g} ((after g history).close g kernel).1 ∧
      ∀ earlier : Item → List ItemSet,
        ((after g history).close g kernel).1 =
          kernel.items.foldl (fun union item =>
            union ∪ ((after g (earlier item)).close g (ItemSet.ofList [item])).1) ∅ := by
  have formed := Grammar.wellFormed_of_ofRules accepted
  rw [close_after]
  refine ⟨Grammar.closure_isLeast formed kernel, fun earlier => ?_⟩
  have alone (item : Item) :
      ((after g (earlier item)).close g (ItemSet.ofList [item])).1 = g.closeItem item := by
    rw [close_after, closure_singleton]
  simp only [alone]
  rfl

/-- Lists of tokens that may be empty, from the left: `3 := 3 4` and `3 :=`. -/
def leftRules : List Rule := [Rule.plain ⟨3⟩ [⟨3⟩, ⟨4⟩], Rule.plain ⟨3⟩ []]

/-- The items `0 := . 3` and `3 := 3 . 4`, with the end of the input and with nothing behind
them. -/
def leftKernel : ItemSet :=
  ItemSet.ofList [⟨⟨0, 0⟩, OrderedSet.singleton Symbol.endOfInput⟩, ⟨⟨1, 1⟩, ∅⟩]

/-- With its own closure remembered, closing the kernel grows the lookahead of the left-recursive
rule by the token behind it. -/
theorem close_least_left :
    ∃ g, Grammar.ofRules leftRules none SymbolTable.initial = .ok g ∧
      IsLeast {set | leftKernel ≤ set ∧ set.IsClosed g}
        ((after g [leftKernel]).close g leftKernel).1 ∧
      ((after g [leftKernel]).close g leftKernel).1 =
        leftKernel.items.foldl (fun union item =>
          union ∪ ((after g [leftKernel]).close g (ItemSet.ofList [item])).1) ∅ ∧
      ((after g [leftKernel]).close g leftKernel).1.lookahead ⟨1, 0⟩ =
        OrderedSet.ofList [Symbol.endOfInput, ⟨4⟩] := by
  have accepted : ∃ g, Grammar.ofRules leftRules none SymbolTable.initial = .ok g ∧
      (g.closure leftKernel).lookahead ⟨1, 0⟩ = OrderedSet.ofList [Symbol.endOfInput, ⟨4⟩] :=
    ⟨_, rfl, by decide +kernel⟩
  obtain ⟨g, accepted, grown⟩ := accepted
  obtain ⟨least, joined⟩ := close_least accepted [leftKernel] leftKernel
  rw [← close_after g [leftKernel]] at grown
  exact ⟨g, accepted, least, joined fun _ => [leftKernel], grown⟩

end KnownClosures

end ParserGenerator
