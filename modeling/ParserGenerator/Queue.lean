/-!
# A worklist without duplicates

A queue serves its values in the order in which they came and takes a value only if the same one
is not waiting already. It keeps the front of the line and the reversed back as two lists, so that
both ends are at hand.

Results: the laws of `push`, `pop` and `isEmpty` on the waiting values, listed by `waiting`.
-/

namespace ParserGenerator

/-- Values waiting in line: `front` in order, then `back` in reverse order. -/
structure Queue (α : Type) where
  front : List α
  back : List α

namespace Queue

variable {α : Type}

def empty : Queue α := ⟨[], []⟩

/-- The waiting values, the next one first. -/
def waiting (queue : Queue α) : List α := queue.front ++ queue.back.reverse

def isEmpty (queue : Queue α) : Bool := queue.front.isEmpty && queue.back.isEmpty

/-- Adds a value at the end, unless it waits already, and says whether it was added. -/
def push [DecidableEq α] (queue : Queue α) (value : α) : Bool × Queue α :=
  if value ∈ queue.front ∨ value ∈ queue.back then (false, queue)
  else (true, { queue with back := value :: queue.back })

/-- Takes the next value out of the line. -/
def pop (queue : Queue α) : Option (α × Queue α) :=
  match queue.front with
  | value :: front => some (value, { queue with front })
  | [] =>
      match queue.back.reverse with
      | [] => none
      | value :: front => some (value, ⟨front, []⟩)

/-- The queue after pushing the values of a list in order. -/
def ofList [DecidableEq α] (values : List α) : Queue α :=
  values.foldl (fun queue value => (queue.push value).2) empty

/-! ## Laws on the waiting values -/

@[simp] theorem waiting_empty : (empty : Queue α).waiting = [] := rfl

theorem push_fst [DecidableEq α] {queue : Queue α} {value : α} :
    (queue.push value).1 = true ↔ value ∉ queue.waiting := by
  unfold push waiting
  split <;> simp_all

theorem waiting_push [DecidableEq α] {queue : Queue α} {value : α} :
    (queue.push value).2.waiting =
      if value ∈ queue.waiting then queue.waiting else queue.waiting ++ [value] := by
  unfold push waiting
  split <;> rename_i known
  · simp [known]
  · have absent : ¬ (value ∈ queue.front ++ queue.back.reverse) := by simpa using known
    simp [absent]

theorem pop_eq {queue : Queue α} :
    queue.pop.map (fun (value, rest) => (value, rest.waiting)) =
      match queue.waiting with
      | [] => none
      | value :: rest => some (value, rest) := by
  obtain ⟨front, back⟩ := queue
  cases front with
  | cons value front => simp [pop, waiting]
  | nil =>
      cases backwards : back.reverse with
      | nil => simp [pop, waiting, backwards]
      | cons value front => simp [pop, waiting, backwards]

theorem isEmpty_iff {queue : Queue α} : queue.isEmpty = true ↔ queue.waiting = [] := by
  simp [isEmpty, waiting]

end Queue

end ParserGenerator
