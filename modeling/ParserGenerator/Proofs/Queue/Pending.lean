import Mathlib.Data.List.Basic
import Mathlib.Data.List.Induction
import ParserGenerator.Queue.Pending

/-!
# The line and the set of a worklist

The set of a worklist is asked and the line is served, so nothing is lost or served twice only
if both hold the same values all the time. A push adds to both or to none; a pop takes the first
value of the line out of the set, where the last value moves to its place. So the set is a
rearrangement of the line after any calls, and a value that was served can be added again.

What calls come to is said of the line alone, and holds of a queue with a set and without one. Since
the line leaves no choice, both kinds of queue give the same answers.

Results:
1. `Queue.ServesAll.in_order`: what was added is what was served and what waits, in order.
2. `swapRemove_perm`: what is left when the last value takes the place of another one.
3. `PendingQueue.orderly_serve`: what holds after any calls.
-/

namespace ParserGenerator

variable {α : Type}

/-! ## Definitions -/

namespace Queue

/-- What a queue is asked to do. -/
inductive Call (α : Type) where
  | push (value : α)
  | pop
deriving DecidableEq, Repr

/-- A call together with its answer. -/
inductive Exchange (α : Type) where
  | push (value : α) (added : Bool)
  | pop (value : Option α)
deriving DecidableEq, Repr

/-- The value that joins the line, if one does. -/
def Exchange.added : Exchange α → List α
  | .push value true => [value]
  | _ => []

/-- The value that leaves the line, if one does. -/
def Exchange.served : Exchange α → List α
  | .pop value => value.toList
  | .push _ _ => []

/-- Answers one call, with a kind of queue that is given by its two operations. -/
def answer {σ : Type} (push : σ → α → Bool × σ) (pop : σ → Option (α × σ)) (queue : σ) :
    Call α → Exchange α × σ
  | .push value =>
      let (added, queue) := push queue value
      (.push value added, queue)
  | .pop =>
      match pop queue with
      | none => (.pop none, queue)
      | some (value, queue) => (.pop (some value), queue)

/-- Answers calls one after the other. -/
def answerAll {σ : Type} (push : σ → α → Bool × σ) (pop : σ → Option (α × σ)) (queue : σ) :
    List (Call α) → List (Exchange α) × σ
  | [] => ([], queue)
  | call :: calls =>
      let (exchange, queue) := answer push pop queue call
      let (log, queue) := answerAll push pop queue calls
      (exchange :: log, queue)

def serve [DecidableEq α] : Queue α → List (Call α) → List (Exchange α) × Queue α :=
  answerAll push pop

/-- What a call comes to where values wait in a line: a value joins the line at its end unless it
waits already, and the first value is served. -/
inductive Serves : (line : List α) → Call α → Exchange α → (rest : List α) → Prop
  | added {value : α} {line : List α} (fresh : value ∉ line) :
      Serves line (.push value) (.push value true) (line ++ [value])
  | refused {value : α} {line : List α} (waits : value ∈ line) :
      Serves line (.push value) (.push value false) line
  | served {value : α} {line : List α} : Serves (value :: line) .pop (.pop (some value)) line
  | idle : Serves [] .pop (.pop none) []

/-- What calls one after the other come to. -/
inductive ServesAll : (line : List α) → List (Call α) → List (Exchange α) → (rest : List α) → Prop
  | done {line : List α} : ServesAll line [] [] line
  | call {line middle rest : List α} {call : Call α} {calls : List (Call α)}
      {exchange : Exchange α} {log : List (Exchange α)} (once : Serves line call exchange middle)
      (later : ServesAll middle calls log rest) :
      ServesAll line (call :: calls) (exchange :: log) rest

/-- A kind of queue answers every call as its line demands, and `Kept` holds all the time. -/
def FollowsLine {σ : Type} (push : σ → α → Bool × σ) (pop : σ → Option (α × σ))
    (line : σ → List α) (Kept : σ → Prop) : Prop :=
  ∀ queue call, Kept queue → Kept (answer push pop queue call).2 ∧
    Serves (line queue) call (answer push pop queue call).1 (line (answer push pop queue call).2)

end Queue

namespace PendingQueue

def serve [DecidableEq α] :
    PendingQueue α → List (Queue.Call α) → List (Queue.Exchange α) × PendingQueue α :=
  Queue.answerAll push pop

/-- No value waits twice, and the set holds the values that wait and no others. -/
structure InStep (queue : PendingQueue α) : Prop where
  distinct : queue.line.Nodup
  pending_perm : queue.pending.Perm queue.line

/-- What can be relied on at any time. -/
structure Orderly [DecidableEq α] (queue : PendingQueue α) : Prop where
  inStep : queue.InStep
  push_of_mem (value : α) (waits : value ∈ queue.line) : queue.push value = (false, queue)
  push_of_not_mem (value : α) (fresh : value ∉ queue.line) :
    ∃ longer, queue.push value = (true, longer) ∧ longer.line = queue.line ++ [value]
  pop_of_nil (empty : queue.line = []) : queue.pop = none
  /-- The first value is served, and it can be added again at once. -/
  pop_of_cons (value : α) (line : List α) (first : queue.line = value :: line) :
    ∃ rest, queue.pop = some (value, rest) ∧ rest.line = line ∧ (rest.push value).1 = true
  isEmpty_iff : queue.isEmpty = true ↔ queue.pop = none

end PendingQueue

/-! ## The line -/

namespace Queue

variable {line left right : List α} {call : Call α} {calls : List (Call α)}
  {exchange other : Exchange α} {log log' : List (Exchange α)}

/-- What waits or joins the line is served or waits afterwards, in this order. -/
theorem Serves.in_order (serves : Serves line call exchange left) :
    line ++ exchange.added = exchange.served ++ left := by
  cases serves with
  | added => rfl
  | refused | served | idle => exact List.append_nil _

theorem ServesAll.in_order (serves : ServesAll line calls log left) :
    line ++ log.flatMap Exchange.added = log.flatMap Exchange.served ++ left := by
  induction serves with
  | done => exact List.append_nil _
  | call once _ ih =>
      rw [List.flatMap_cons, List.flatMap_cons, ← List.append_assoc, once.in_order,
        List.append_assoc, ih, List.append_assoc]

/-- The line leaves no choice. -/
theorem Serves.unique (serves : Serves line call exchange left)
    (servesToo : Serves line call other right) : exchange = other ∧ left = right := by
  cases serves with
  | added fresh =>
      cases servesToo with
      | added => exact ⟨rfl, rfl⟩
      | refused waits => exact absurd waits fresh
  | refused waits =>
      cases servesToo with
      | added fresh => exact absurd waits fresh
      | refused => exact ⟨rfl, rfl⟩
  | served | idle =>
      cases servesToo
      exact ⟨rfl, rfl⟩

theorem ServesAll.unique (serves : ServesAll line calls log left)
    (servesToo : ServesAll line calls log' right) : log = log' ∧ left = right := by
  induction serves generalizing log' with
  | done =>
      cases servesToo
      exact ⟨rfl, rfl⟩
  | call once _ ih =>
      cases servesToo with
      | call onceToo later =>
          obtain ⟨rfl, rfl⟩ := once.unique onceToo
          obtain ⟨rfl, rfl⟩ := ih later
          exact ⟨rfl, rfl⟩

/-- A line that took the values of a list, each at its first turn, takes one more in this way. -/
theorem Serves.eraseDups_concat [DecidableEq α] {values : List α} {value : α}
    (serves : Serves line (.push value) exchange left) (taken : line = values.eraseDups) :
    left = (values ++ [value]).eraseDups := by
  rw [List.eraseDups_append, ← taken]
  cases serves with
  | added fresh =>
      have one : [value].eraseDups = [value] := by
        rw [List.eraseDups_cons]
        rfl
      rw [taken, List.mem_eraseDups] at fresh
      simp [List.removeAll, fresh, one]
  | refused waits =>
      rw [taken, List.mem_eraseDups] at waits
      simp [List.removeAll, waits]

section

variable {σ : Type} {push : σ → α → Bool × σ} {pop : σ → Option (α × σ)} {line : σ → List α}
  {Kept : σ → Prop} {queue : σ}

theorem FollowsLine.servesAll (follows : FollowsLine push pop line Kept) (kept : Kept queue)
    (calls : List (Call α)) :
    Kept (answerAll push pop queue calls).2 ∧
      ServesAll (line queue) calls (answerAll push pop queue calls).1
        (line (answerAll push pop queue calls).2) := by
  induction calls generalizing queue with
  | nil => exact ⟨kept, .done⟩
  | cons call calls ih =>
      obtain ⟨keptOnce, once⟩ := follows queue call kept
      obtain ⟨keptLater, later⟩ := ih keptOnce
      exact ⟨keptLater, .call once later⟩

/-- The values of a list join an empty line in order, each at its first turn. -/
theorem FollowsLine.foldl_push [DecidableEq α] (follows : FollowsLine push pop line Kept)
    (kept : Kept queue) (empty : line queue = []) (values : List α) :
    Kept (values.foldl (fun queue value => (push queue value).2) queue) ∧
      line (values.foldl (fun queue value => (push queue value).2) queue) = values.eraseDups := by
  induction values using List.reverseRecOn with
  | nil => exact ⟨kept, empty⟩
  | append_singleton values value ih =>
      rw [List.foldl_append]
      obtain ⟨keptBefore, listed⟩ := ih
      obtain ⟨keptAfter, serves⟩ := follows _ (.push value) keptBefore
      exact ⟨keptAfter, serves.eraseDups_concat listed⟩

end

/-! ## The queue without a set -/

variable [DecidableEq α]

theorem followsLine : FollowsLine (@push α _) pop waiting fun _ => True := by
  intro queue call _
  refine ⟨trivial, ?_⟩
  cases call with
  | push value =>
      have added := @push_fst α _ queue value
      have waiting := @waiting_push α _ queue value
      simp only [answer]
      by_cases waits : value ∈ queue.waiting
      · have refused := Bool.eq_false_iff.2 fun isAdded => added.1 isAdded waits
        rw [if_pos waits] at waiting
        rw [refused, waiting]
        exact .refused waits
      · rw [if_neg waits] at waiting
        rw [added.2 waits, waiting]
        exact .added waits
  | pop =>
      have law := @pop_eq α queue
      cases line : queue.waiting with
      | nil =>
          rw [line] at law
          simp only [answer, Option.map_eq_none_iff.1 law, line]
          exact .idle
      | cons value rest =>
          rw [line] at law
          obtain ⟨⟨first, shorter⟩, popped, isFirst⟩ := Option.map_eq_some_iff.1 law
          obtain ⟨rfl, rfl⟩ := Prod.mk.inj isFirst
          simp only [answer, popped]
          exact .served

end Queue

/-! ## The queue with a set -/

/-- The last value in the place of another one rearranges what is left of the values. -/
theorem swapRemove_perm [DecidableEq α] {values : List α} {value : α} (member : value ∈ values) :
    (swapRemove values value).Perm (values.erase value) := by
  obtain ⟨early, late, absent, rfl, erased⟩ := List.exists_erase_eq member
  have place : (early ++ value :: late).idxOf value = early.length := by
    rw [List.idxOf_append, if_neg absent, List.idxOf_cons_self, Nat.zero_add]
  rw [erased, swapRemove]
  obtain rfl | ⟨middle, last, rfl⟩ := late.eq_nil_or_concat'
  · simp [place]
  · have isLast : (early ++ value :: (middle ++ [last])).getLast? = some last := by
      rw [← List.cons_append, ← List.append_assoc, List.getLast?_concat]
    have moved : (early ++ value :: (middle ++ [last])).set early.length last =
        early ++ last :: middle ++ [last] := by simp
    simp only [isLast, if_pos member, place]
    rw [moved, List.dropLast_concat]
    exact (List.perm_append_singleton last middle).symm.append_left early

namespace PendingQueue

open Queue (Call Exchange FollowsLine answer)

variable {queue : PendingQueue α}

theorem inStep_empty : (empty : PendingQueue α).InStep := ⟨List.nodup_nil, .refl _⟩

theorem InStep.longer (inStep : queue.InStep) {value : α} (fresh : value ∉ queue.line) :
    InStep ⟨queue.line ++ [value], queue.pending ++ [value]⟩ where
  distinct := (List.perm_append_singleton _ _).nodup_iff.2
    (List.nodup_cons.2 ⟨fresh, inStep.distinct⟩)
  pending_perm := inStep.pending_perm.append_right _

variable [DecidableEq α]

theorem InStep.push_of_mem (inStep : queue.InStep) {value : α} (waits : value ∈ queue.line) :
    queue.push value = (false, queue) :=
  if_pos (inStep.pending_perm.mem_iff.2 waits)

theorem InStep.push_of_not_mem (inStep : queue.InStep) {value : α} (fresh : value ∉ queue.line) :
    queue.push value = (true, ⟨queue.line ++ [value], queue.pending ++ [value]⟩) :=
  if_neg fun member => fresh (inStep.pending_perm.mem_iff.1 member)

theorem pop_of_nil (empty : queue.line = []) : queue.pop = none := by rw [pop, empty]

theorem pop_of_cons {value : α} {line : List α} (first : queue.line = value :: line) :
    queue.pop = some (value, ⟨line, swapRemove queue.pending value⟩) := by rw [pop, first]

theorem InStep.shorter (inStep : queue.InStep) {value : α} {line : List α}
    (first : queue.line = value :: line) :
    InStep ⟨line, swapRemove queue.pending value⟩ := by
  obtain ⟨distinct, same⟩ := inStep
  rw [first] at distinct same
  have left := same.erase value
  rw [List.erase_cons_head] at left
  exact ⟨distinct.of_cons, (swapRemove_perm (same.mem_iff.2 List.mem_cons_self)).trans left⟩

/-- A call is answered as the line demands, and leaves the line and the set in step. -/
theorem followsLine : FollowsLine (@push α _) pop line InStep := by
  intro queue call inStep
  cases call with
  | push value =>
      by_cases waits : value ∈ queue.line
      · simp only [answer, inStep.push_of_mem waits]
        exact ⟨inStep, .refused waits⟩
      · simp only [answer, inStep.push_of_not_mem waits]
        exact ⟨inStep.longer waits, .added waits⟩
  | pop =>
      cases line : queue.line with
      | nil =>
          simp only [answer, pop_of_nil line, line]
          exact ⟨inStep, .idle⟩
      | cons value rest =>
          simp only [answer, pop_of_cons line]
          exact ⟨inStep.shorter line, .served⟩

theorem InStep.orderly (inStep : queue.InStep) : queue.Orderly where
  inStep := inStep
  push_of_mem _ waits := inStep.push_of_mem waits
  push_of_not_mem _ fresh := ⟨_, inStep.push_of_not_mem fresh, rfl⟩
  pop_of_nil := pop_of_nil
  pop_of_cons value line first := by
    have distinct := inStep.distinct
    rw [first, List.nodup_cons] at distinct
    refine ⟨_, pop_of_cons first, rfl, ?_⟩
    rw [(inStep.shorter first).push_of_not_mem distinct.1]
  isEmpty_iff := by
    cases line : queue.line with
    | nil => simp [isEmpty, pop_of_nil line, line]
    | cons value rest => simp [isEmpty, pop_of_cons line, line]

/-- A queue that is filled from a list, maybe the empty one, and then used in any way stays orderly.
The values of the list without their repetitions and those that were added later are, in this order,
the values that were served and those that still wait. And the queue without a set has answered the
same. -/
theorem orderly_serve (values : List α) (calls : List (Call α)) :
    let (log, queue) := (ofList values).serve calls
    queue.Orderly ∧
      values.eraseDups ++ log.flatMap Exchange.added =
        log.flatMap Exchange.served ++ queue.line ∧
      ((Queue.ofList values).serve calls).1 = log ∧
      ((Queue.ofList values).serve calls).2.waiting = queue.line := by
  obtain ⟨inStep, listed⟩ := followsLine.foldl_push inStep_empty rfl values
  obtain ⟨left, serves⟩ := followsLine.servesAll inStep calls
  obtain ⟨_, listedToo⟩ := Queue.followsLine.foldl_push trivial Queue.waiting_empty values
  obtain ⟨_, servesToo⟩ := Queue.followsLine.servesAll trivial calls
  rw [listed] at serves
  rw [listedToo] at servesToo
  exact ⟨left.orderly, serves.in_order, servesToo.unique serves⟩

example : ((ofList [1, 2, 1]).serve [.push 2, .pop, .push 1, .pop, .pop, .pop]).1 =
    [.push 2 false, .pop (some 1), .push 1 true, .pop (some 2), .pop (some 1), .pop none] := rfl

end PendingQueue

end ParserGenerator
