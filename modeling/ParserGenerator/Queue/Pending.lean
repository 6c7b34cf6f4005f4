import ParserGenerator.Queue

/-!
# A worklist with a set of its values

Where it is asked often whether a value waits already, a set of the waiting values stands beside the
line. A push looks a value up in the set alone, and a pop takes the value that it serves out of the
set as well. The set lists its values in an order of its own: a new value goes to the end, and the
last value moves to the place of one that is taken out.
-/

namespace ParserGenerator

variable {α : Type}

/-- Takes a value out of a list of different values; the last one moves to its place. -/
def swapRemove [DecidableEq α] (values : List α) (value : α) : List α :=
  match values.getLast? with
  | none => []
  | some last =>
      if value ∈ values then (values.set (values.idxOf value) last).dropLast else values

/-- Values waiting in line, the next one first, and the set of these values. -/
structure PendingQueue (α : Type) where
  line : List α
  pending : List α

namespace PendingQueue

def empty : PendingQueue α := ⟨[], []⟩

def isEmpty (queue : PendingQueue α) : Bool := queue.line.isEmpty

/-- Adds a value at the end, unless it is pending already, and says whether it was added. -/
def push [DecidableEq α] (queue : PendingQueue α) (value : α) : Bool × PendingQueue α :=
  if value ∈ queue.pending then (false, queue)
  else (true, ⟨queue.line ++ [value], queue.pending ++ [value]⟩)

/-- Takes the next value out of the line and out of the set. -/
def pop [DecidableEq α] (queue : PendingQueue α) : Option (α × PendingQueue α) :=
  match queue.line with
  | [] => none
  | value :: line => some (value, ⟨line, swapRemove queue.pending value⟩)

/-- The queue after pushing the values of a list in order. -/
def ofList [DecidableEq α] (values : List α) : PendingQueue α :=
  values.foldl (fun queue value => (queue.push value).2) empty

end PendingQueue

end ParserGenerator
