import ParserGenerator.Proofs.Nfa.Construction
import ParserGenerator.Proofs.Nfa.Routes

/-!
# An embedded automaton is a jump

Behind an embedding the host has its own edges and copies of the child's. The copies of the child's
inner states are new, so a route that enters them at `start` comes out at `stop` and has read
a text of the child's language on the way. This needs that nothing enters the child's initial state
and nothing leaves its final state: otherwise a route could stop at a border of the child and go on
in the host, or the other way round.

Results:
1. `Nfa.route_steps_iff`: routes along edges are paths.
2. `Nfa.Embeddable.route_embed` and `Nfa.path_embed?_iff`: an embedding adds a jump to the routes
   between states of the host, and nothing else.
-/

namespace ParserGenerator

/-- What an edge with the label reads. -/
def Label.word : Label → List Char
  | .epsilon => []
  | .char c => [c]

namespace Nfa

variable {nfa host child : Nfa} {start stop : Nat}

/-! ## Definitions -/

/-- The edges of an automaton as steps. -/
def steps (nfa : Nfa) : Steps := fun first word last =>
  ∃ label : Label, word = label.word ∧ ⟨label, last⟩ ∈ nfa.edges first

/-- The texts that paths from the initial to the final state read. -/
def language (nfa : Nfa) : Language Char := {text | nfa.Path initial text final}

/-- The copies of the child's edges as steps. -/
def copiedSteps (host child : Nfa) (start stop : Nat) : Steps := fun first word last =>
  ∃ source target, child.steps source word target ∧
    first = host.image start stop source ∧ last = host.image start stop target

/-! ## Paths as routes -/

theorem mem_language {text : List Char} : text ∈ nfa.language ↔ nfa.Path initial text final :=
  Iff.rfl

theorem route_steps_iff {first last : Nat} {text : List Char} :
    Route nfa.steps first text last ↔ nfa.Path first text last := by
  constructor
  · intro route
    induction route with
    | here state => exact .here state
    | step once _ ih =>
        obtain ⟨label, rfl, edge⟩ := once
        cases label with
        | epsilon => exact .silent edge ih
        | char c => exact .read edge ih
  · intro path
    induction path with
    | here state => exact .here state
    | @silent first second _ _ edge _ ih =>
        have once : nfa.steps first [] second := ⟨.epsilon, rfl, edge⟩
        exact .step once ih
    | @read first second _ c _ edge _ ih =>
        have once : nfa.steps first [c] second := ⟨.char c, rfl, edge⟩
        exact .step once ih

theorem Closed.within_steps (closed : nfa.Closed) : nfa.steps.Within nfa.size := by
  rintro first word last ⟨label, _, edge⟩
  exact ⟨lt_size_of_mem_edges edge, closed _ _ edge⟩

/-! ## The steps after each construction -/

theorem steps_empty : empty.steps = ⊥ := by
  funext first word last
  refine propext ⟨?_, False.elim⟩
  rintro ⟨label, _, edge⟩
  rw [edges_empty] at edge
  cases edge

theorem steps_addState (nfa : Nfa) : nfa.addState.2.steps = nfa.steps := by
  unfold steps
  simp only [edges_addState]

theorem steps_addEdge {source target : Nat} {label : Label} (bound : source < nfa.size) :
    (nfa.addEdge source label target).steps = nfa.steps ⊔ jump source {label.word} target := by
  funext first word last
  refine propext ⟨?_, ?_⟩
  · rintro ⟨other, rfl, edge⟩
    rcases (mem_edges_addEdge bound).1 edge with old | ⟨rfl, equal⟩
    · exact .inl ⟨other, rfl, old⟩
    · cases equal
      exact .inr ⟨rfl, rfl, rfl⟩
  · rintro (⟨other, rfl, edge⟩ | ⟨rfl, rfl, rfl⟩)
    · exact ⟨other, rfl, (mem_edges_addEdge bound).2 (.inl edge)⟩
    · exact ⟨label, rfl, (mem_edges_addEdge bound).2 (.inr ⟨rfl, rfl⟩)⟩

theorem steps_embed (startBound : start < host.size) (stopBound : stop < host.size) :
    (host.embed child start stop).steps = host.steps ⊔ host.copiedSteps child start stop := by
  funext first word last
  refine propext ⟨?_, ?_⟩
  · rintro ⟨label, rfl, edge⟩
    rcases (mem_edges_embed startBound stopBound).1 edge with
      old | ⟨source, inner, copied, rfl, equal⟩
    · exact .inl ⟨label, rfl, old⟩
    · cases equal
      exact .inr ⟨source, inner.target, ⟨inner.label, rfl, copied⟩, rfl, rfl⟩
  · rintro (⟨label, rfl, edge⟩ | ⟨source, target, ⟨label, rfl, edge⟩, rfl, rfl⟩)
    · exact ⟨label, rfl, (mem_edges_embed startBound stopBound).2 (.inl edge)⟩
    · exact ⟨label, rfl, (mem_edges_embed startBound stopBound).2
        (.inr ⟨source, ⟨label, target⟩, edge, rfl, rfl⟩)⟩

/-! ## The embedding law -/

theorem Path.copied (host : Nfa) (start stop : Nat) {first last : Nat} {text : List Char}
    (path : child.Path first text last) :
    Route (host.copiedSteps child start stop) (host.image start stop first) text
      (host.image start stop last) := by
  have route := route_steps_iff.2 path
  clear path
  induction route with
  | here => exact .here _
  | step once _ ih => exact .step ⟨_, _, once, rfl, rfl⟩ ih

theorem path_of_steps {first second last : Nat} {word rest : List Char}
    (once : nfa.steps first word second) (path : nfa.Path second rest last) :
    nfa.Path first (word ++ rest) last :=
  route_steps_iff.1 (.step once (route_steps_iff.2 path))

/-- The image of a state lies in the host at the borders of the child only. -/
theorem image_cases (host : Nfa) (start stop state : Nat) :
    state = initial ∧ host.image start stop state = start ∨
      state = final ∧ host.image start stop state = stop ∨
      host.size ≤ host.image start stop state ∧
        host.image start stop state - host.size + 2 = state := by
  match state with
  | 0 => exact .inl ⟨rfl, rfl⟩
  | 1 => exact .inr (.inl ⟨rfl, rfl⟩)
  | inner + 2 =>
      refine .inr (.inr ⟨Nat.le_add_right _ _, ?_⟩)
      show host.size + inner - host.size + 2 = inner + 2
      rw [Nat.add_sub_cancel_left]

namespace Embeddable

variable (embeddable : child.Embeddable)
include embeddable

theorem source_ne_final {source target : Nat} {word : List Char}
    (once : child.steps source word target) : source ≠ final := by
  rintro rfl
  obtain ⟨label, _, edge⟩ := once
  rw [embeddable.not_left] at edge
  cases edge

theorem target_ne_initial {source target : Nat} {word : List Char}
    (once : child.steps source word target) : target ≠ initial := by
  obtain ⟨label, _, edge⟩ := once
  exact embeddable.not_entered source _ edge

/-- Where a copied edge can start: at `start`, or at a state of the copy. -/
theorem image_source {source target : Nat} {word : List Char} (startBound : start < host.size)
    (once : child.steps source word target) :
    source = initial ∧ host.image start stop source = start ∧
        host.image start stop source < host.size ∨
      host.size ≤ host.image start stop source ∧
        host.image start stop source - host.size + 2 = source := by
  rcases host.image_cases start stop source with ⟨isInitial, same⟩ | ⟨isFinal, _⟩ | inner
  · exact .inl ⟨isInitial, same, same.symm ▸ startBound⟩
  · exact absurd isFinal (embeddable.source_ne_final once)
  · exact .inr inner

/-- Where a copied edge can lead: to `stop`, or to a state of the copy. -/
theorem image_target {source target : Nat} {word : List Char} (stopBound : stop < host.size)
    (once : child.steps source word target) :
    target = final ∧ host.image start stop target = stop ∧
        host.image start stop target < host.size ∨
      host.size ≤ host.image start stop target ∧
        host.image start stop target - host.size + 2 = target := by
  rcases host.image_cases start stop target with ⟨isInitial, _⟩ | ⟨isFinal, same⟩ | inner
  · exact absurd isInitial (embeddable.target_ne_initial once)
  · exact .inl ⟨isFinal, same, same.symm ▸ stopBound⟩
  · exact .inr inner

/-- An embedding adds a jump over the child's language to the routes between states of the host,
whatever other steps the host has. -/
theorem route_embed (closed : host.Closed) {others : Steps} (within : others.Within host.size)
    (startBound : start < host.size) (stopBound : stop < host.size) {first last : Nat}
    (low : first < host.size) (high : last < host.size) {word : List Char} :
    Route ((host.embed child start stop).steps ⊔ others) first word last ↔
      Route (host.steps ⊔ jump start child.language stop ⊔ others) first word last := by
  rw [steps_embed startBound stopBound,
    sup_right_comm host.steps (host.copiedSteps child start stop),
    sup_right_comm host.steps (jump start child.language stop)]
  refine route_replace (fun state => {text | child.Path (state - host.size + 2) text final})
    (closed.within_steps.sup within) ?_ ?_ ?_ ?_ ?_ low high
  · rintro _ word _ ⟨source, target, once, rfl, rfl⟩ below next
    rcases embeddable.image_source startBound once with ⟨rfl, isStart, _⟩ | ⟨above, _⟩
    · rcases embeddable.image_target stopBound once with ⟨rfl, isStop, _⟩ | ⟨above, _⟩
      · have path := path_of_steps once (.here final)
        rw [List.append_nil] at path
        exact ⟨isStart, isStop, path⟩
      · exact absurd next (Nat.not_lt.2 above)
    · exact absurd below (Nat.not_lt.2 above)
  · rintro _ word _ ⟨source, target, once, rfl, rfl⟩ below next
    rcases embeddable.image_source startBound once with ⟨rfl, isStart, _⟩ | ⟨above, _⟩
    · rcases embeddable.image_target stopBound once with ⟨_, _, inHost⟩ | ⟨_, isTarget⟩
      · exact absurd inHost (Nat.not_lt.2 next)
      · refine ⟨isStart, fun rest inTail => ?_⟩
        rw [isTarget] at inTail
        exact path_of_steps once inTail
    · exact absurd below (Nat.not_lt.2 above)
  · rintro _ word _ ⟨source, target, once, rfl, rfl⟩ above next
    rcases embeddable.image_source startBound once with ⟨_, _, inHost⟩ | ⟨_, isSource⟩
    · exact absurd inHost (Nat.not_lt.2 above)
    · rcases embeddable.image_target stopBound once with ⟨rfl, isStop, _⟩ | ⟨above, _⟩
      · refine ⟨isStop, ?_⟩
        rw [isSource]
        have path := path_of_steps once (.here final)
        rwa [List.append_nil] at path
      · exact absurd next (Nat.not_lt.2 above)
  · rintro _ word _ ⟨source, target, once, rfl, rfl⟩ above next rest inTail
    rcases embeddable.image_source startBound once with ⟨_, _, inHost⟩ | ⟨_, isSource⟩
    · exact absurd inHost (Nat.not_lt.2 above)
    · rcases embeddable.image_target stopBound once with ⟨_, _, inHost⟩ | ⟨_, isTarget⟩
      · exact absurd inHost (Nat.not_lt.2 next)
      · rw [isTarget] at inTail
        rw [isSource]
        exact path_of_steps once inTail
  · exact fun text path => Path.copied host start stop path

end Embeddable

/-! ## Embeddings between states that exist -/

theorem embed?_of_closed (closed : child.Closed) (startBound : start < host.size)
    (stopBound : stop < host.size) :
    host.embed? child start stop = some (host.embed child start stop) := by
  refine if_pos (List.all_eq_true.2 fun transition member => ?_)
  have edge := mem_transitions.1 member
  have target := closed _ _ edge
  have source := image_lt startBound stopBound (lt_size_of_mem_edges edge)
  simp only [target, source, decide_true, Bool.and_self]

/-- An automaton that is embedded between two states of a host, which may be one and the same, is
one more edge of the host that reads what the automaton accepts. The host's states keep their
numbers and their edges, and only `start` gets more. -/
theorem path_embed?_iff (closed : host.Closed) (embeddable : child.Embeddable)
    (startBound : start < host.size) (stopBound : stop < host.size) :
    ∃ grown, host.embed? child start stop = some grown ∧
      (∀ first last word, first < host.size → last < host.size →
        (grown.Path first word last ↔
          Route (host.steps ⊔ jump start {text | child.accepts text = true} stop)
            first word last)) ∧
      grown.size = host.size + (child.size - 2) ∧
      (∀ state < host.size, host.edges state <+: grown.edges state) ∧
      ∀ state < host.size, state ≠ start → grown.edges state = host.edges state := by
  refine ⟨host.embed child start stop, embed?_of_closed embeddable.closed startBound stopBound,
    fun first last word low high => ?_, size_embed startBound stopBound,
    fun state _ => edges_prefix_embed host child start stop state,
    fun state bound differs => embeddable.edges_embed_of_ne bound differs⟩
  have accepted : ({text | child.accepts text = true} : Language Char) = child.language :=
    Set.ext fun text => accepts_iff
  have law : _ ↔ Route _ first word last :=
    embeddable.route_embed closed within_bot startBound stopBound low high
  rwa [sup_bot_eq, sup_bot_eq, route_steps_iff, ← accepted] at law

/-- Accepts an `a`, any number of `b`s and a `c`. -/
def looping : Nfa :=
  ((empty.addState.2.addEdge initial (.char 'a') 2).addEdge 2 (.char 'b') 2).addEdge 2 (.char 'c')
    final

theorem looping_embeddable : looping.Embeddable := by
  refine .addEdge (.addEdge (.addEdge Embeddable.empty.addState _ ?_ ?_ ?_ ?_) _ ?_ ?_ ?_ ?_) _
    ?_ ?_ ?_ ?_ <;> decide

/-- The loop at state 2 and a copy of the automaton at the same state, read in turn. -/
theorem path_embed?_looping : ∃ grown, looping.embed? looping 2 2 = some grown ∧
    grown.Path initial ['a', 'b', 'a', 'c', 'b', 'a', 'b', 'c', 'c'] final := by
  have bound : 2 < looping.size := by decide
  obtain ⟨grown, embedded, law, _⟩ :=
    path_embed?_iff looping_embeddable.closed looping_embeddable bound bound
  refine ⟨grown, embedded, (law _ _ _ (by decide) (by decide)).2 ?_⟩
  let around : Steps := looping.steps ⊔ jump 2 {text | looping.accepts text = true} 2
  have edge (label : Label) (first last : Nat) (known : ⟨label, last⟩ ∈ looping.edges first) :
      Route around first label.word last := .of_step (.inl ⟨label, rfl, known⟩)
  have across (word : List Char) (accepted : looping.accepts word = true) :
      Route around 2 word 2 := .of_step (.inr ⟨rfl, accepted, rfl⟩)
  have loop := edge (.char 'b') 2 2 (by decide)
  have once := loop.append (across ['a', 'c'] (by rfl))
  have again := loop.append (across ['a', 'b', 'c'] (by rfl))
  exact (edge (.char 'a') initial 2 (by decide)).append
    ((once.append again).append (edge (.char 'c') 2 final (by decide)))

end Nfa

end ParserGenerator
