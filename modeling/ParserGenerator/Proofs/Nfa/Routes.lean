import Mathlib

/-!
# Routes with words

A route goes from state to state by steps that read a word each. The edges of an automaton are
such steps, and so is a `jump`, which crosses from one state to another by any word of a language.
Steps through states of their own amount to a jump between the states around them, which is how an
automaton that is put together from others is taken apart.

Results:
1. `route_replace`: what is put between two states is a jump between them.
2. `route_through`: two jumps through a state of their own are one jump.
-/

namespace ParserGenerator

/-! ## Definitions -/

/-- Steps from state to state and the word that each of them reads. -/
abbrev Steps := Nat → List Char → Nat → Prop

/-- A sequence of steps and the words that they read, put together. -/
inductive Route (steps : Steps) : Steps
  | here (state : Nat) : Route steps state [] state
  | step {first second last : Nat} {front back : List Char} (once : steps first front second)
      (later : Route steps second back last) : Route steps first (front ++ back) last

/-- One step from a state to a state by any word of a language. -/
def jump (start : Nat) (language : Language Char) (stop : Nat) : Steps :=
  fun first word last => first = start ∧ word ∈ language ∧ last = stop

/-- All steps are between states below a bound. -/
def Steps.Within (steps : Steps) (bound : Nat) : Prop :=
  ∀ first word last, steps first word last → first < bound ∧ last < bound

/-! ## Steps and jumps -/

variable {steps others : Steps} {bound start stop : Nat}

theorem Steps.Within.sup (left : steps.Within bound) (right : others.Within bound) :
    (steps ⊔ others).Within bound := by
  rintro first word last (isLeft | isRight)
  · exact left _ _ _ isLeft
  · exact right _ _ _ isRight

theorem Steps.Within.mono {larger : Nat} (within : steps.Within bound) (le : bound ≤ larger) :
    steps.Within larger := fun first word last once =>
  have ⟨low, high⟩ := within first word last once
  ⟨Nat.lt_of_lt_of_le low le, Nat.lt_of_lt_of_le high le⟩

theorem within_jump (language : Language Char) (low : start < bound) (high : stop < bound) :
    (jump start language stop).Within bound := by
  rintro first word last ⟨rfl, _, rfl⟩
  exact ⟨low, high⟩

theorem within_bot : (⊥ : Steps).Within bound := fun _ _ _ once => once.elim

theorem jump_zero : jump start 0 stop = ⊥ := by
  funext first word last
  exact propext ⟨fun once => Language.notMem_zero word once.2.1, False.elim⟩

/-- Two jumps between the same states are one jump by the words of either language. -/
theorem jump_add (left right : Language Char) :
    jump start left stop ⊔ jump start right stop = jump start (left + right) stop := by
  funext first word last
  refine propext ⟨?_, ?_⟩
  · rintro (⟨isStart, inLeft, isStop⟩ | ⟨isStart, inRight, isStop⟩)
    · exact ⟨isStart, (Language.mem_add left right word).2 (.inl inLeft), isStop⟩
    · exact ⟨isStart, (Language.mem_add left right word).2 (.inr inRight), isStop⟩
  · rintro ⟨isStart, member, isStop⟩
    rcases (Language.mem_add left right word).1 member with inLeft | inRight
    · exact .inl ⟨isStart, inLeft, isStop⟩
    · exact .inr ⟨isStart, inRight, isStop⟩

namespace Route

theorem of_step {first last : Nat} {word : List Char} (once : steps first word last) :
    Route steps first word last := by
  have route := Route.step once (.here last)
  rwa [List.append_nil] at route

theorem append {first middle last : Nat} {front back : List Char}
    (early : Route steps first front middle) (late : Route steps middle back last) :
    Route steps first (front ++ back) last := by
  induction early with
  | here => exact late
  | step once _ ih =>
      rw [List.append_assoc]
      exact .step once (ih late)

/-- A route can be taken where each of its steps is a route. -/
theorem bind (each : ∀ first word last, steps first word last → Route others first word last)
    {first last : Nat} {word : List Char} (route : Route steps first word last) :
    Route others first word last := by
  induction route with
  | here => exact .here _
  | step once _ ih => exact (each _ _ _ once).append ih

end Route

/-- With one jump alone, only that jump leads from its start to another state. -/
theorem route_jump_iff (language : Language Char) (differ : start ≠ stop) {word : List Char} :
    Route (jump start language stop) start word stop ↔ word ∈ language := by
  constructor
  · intro route
    cases route with
    | here => exact absurd rfl differ
    | step once later =>
        obtain ⟨_, member, rfl⟩ := once
        cases later with
        | here => rwa [List.append_nil]
        | step again _ => exact absurd again.1 (Ne.symm differ)
  · exact fun member => .of_step ⟨rfl, member, rfl⟩

/-! ## Steps in place of steps -/

/-- Steps through states of their own, at or above the bound, amount to a jump. They are entered at
`start` and left at `stop` alone, and `tail` says which words lead from an inner state to `stop`. -/
theorem route_replace {inner : Steps} {language : Language Char} (tail : Nat → Language Char)
    (within : steps.Within bound)
    (crosses : ∀ first word last, inner first word last → first < bound → last < bound →
      first = start ∧ last = stop ∧ word ∈ language)
    (enters : ∀ first word last, inner first word last → first < bound → bound ≤ last →
      first = start ∧ ∀ rest ∈ tail last, word ++ rest ∈ language)
    (leaves : ∀ first word last, inner first word last → bound ≤ first → last < bound →
      last = stop ∧ word ∈ tail first)
    (stays : ∀ first word last, inner first word last → bound ≤ first → bound ≤ last →
      ∀ rest ∈ tail last, word ++ rest ∈ tail first)
    (complete : ∀ word ∈ language, Route inner start word stop)
    {first last : Nat} (low : first < bound) (high : last < bound) {word : List Char} :
    Route (steps ⊔ inner) first word last ↔
      Route (steps ⊔ jump start language stop) first word last := by
  constructor
  · -- A route from an inner state first completes the words of that state.
    intro route
    suffices general : (first < bound → Route (steps ⊔ jump start language stop) first word last) ∧
        (bound ≤ first → ∃ front ∈ tail first, ∃ back, word = front ++ back ∧
          Route (steps ⊔ jump start language stop) stop back last) from general.1 low
    clear low
    induction route with
    | here state => exact ⟨fun _ => .here state, fun above => absurd high (Nat.not_lt.2 above)⟩
    | @step first second last front back once later ih =>
        obtain ⟨below, above⟩ := ih high
        rcases once with outside | inside
        · obtain ⟨low, next⟩ := within _ _ _ outside
          exact ⟨fun _ => .step (.inl outside) (below next),
            fun above => absurd low (Nat.not_lt.2 above)⟩
        · rcases Nat.lt_or_ge second bound with next | next
          · refine ⟨fun low => ?_, fun above => ?_⟩
            · obtain ⟨rfl, rfl, member⟩ := crosses _ _ _ inside low next
              exact .step (.inr ⟨rfl, member, rfl⟩) (below next)
            · obtain ⟨rfl, member⟩ := leaves _ _ _ inside above next
              exact ⟨front, member, back, rfl, below next⟩
          · obtain ⟨middle, inTail, rest, isBack, route⟩ := above next
            subst isBack
            rw [← List.append_assoc]
            refine ⟨fun low => ?_, fun above => ?_⟩
            · obtain ⟨rfl, completes⟩ := enters _ _ _ inside low next
              exact .step (.inr ⟨rfl, completes _ inTail, rfl⟩) route
            · exact ⟨front ++ middle, stays _ _ _ inside above next _ inTail, rest, rfl, route⟩
  · refine Route.bind fun first word last once => ?_
    rcases once with outside | ⟨rfl, member, rfl⟩
    · exact .of_step (.inl outside)
    · exact (complete word member).bind fun _ _ _ inside => .of_step (.inr inside)

/-- Two jumps through a state of their own are one jump. -/
theorem route_through (within : steps.Within bound) (startBound : start < bound)
    (stopBound : stop < bound) (front back : Language Char) {first last : Nat}
    (low : first < bound) (high : last < bound) {word : List Char} :
    Route (steps ⊔ (jump start front bound ⊔ jump bound back stop)) first word last ↔
      Route (steps ⊔ jump start (front * back) stop) first word last := by
  refine route_replace (fun _ => back) within ?_ ?_ ?_ ?_ ?_ low high
  · rintro _ _ _ (⟨rfl, _, rfl⟩ | ⟨rfl, _, rfl⟩) below above
    · exact absurd above (Nat.lt_irrefl _)
    · exact absurd below (Nat.lt_irrefl _)
  · rintro _ _ _ (⟨rfl, member, rfl⟩ | ⟨rfl, _, rfl⟩) below above
    · exact ⟨rfl, fun rest inBack => Language.append_mem_mul member inBack⟩
    · exact absurd below (Nat.lt_irrefl _)
  · rintro _ _ _ (⟨rfl, _, rfl⟩ | ⟨rfl, member, rfl⟩) above below
    · exact absurd below (Nat.lt_irrefl _)
    · exact ⟨rfl, member⟩
  · rintro _ _ _ (⟨rfl, _, rfl⟩ | ⟨rfl, _, rfl⟩) above next
    · exact absurd startBound (Nat.not_lt.2 above)
    · exact absurd stopBound (Nat.not_lt.2 next)
  · intro word member
    obtain ⟨early, inFront, late, inBack, rfl⟩ := Language.mem_mul.1 member
    exact .append (.of_step (.inl ⟨rfl, inFront, rfl⟩)) (.of_step (.inr ⟨rfl, inBack, rfl⟩))

end ParserGenerator
