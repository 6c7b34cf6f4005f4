import ParserGenerator.Proofs.Exploration.Unlimited

/-!
# The worklist of an exploration

A search takes the number of a node that waits and follows the edges of this node one after the
other. An edge that leads to a new node gives it the next number, an empty row of its own and a
place in the line, unless there are too many nodes then; and each edge joins the row of the node
that it comes from. So there are rows for nodes that still wait, and a search may be given up
between two edges of a node. The line is a double-ended queue in one construction and a counter in
the other.

None of this can be seen in the end. Between two turns the numbers of the nodes without edges wait
in ascending order, and a search is given up in the turn in which too many nodes are known,
whichever edge is the first to break the limit.

Results:
1. `Worklist.foldlM_turned`: a turn of the worklist is a turn of the search, or breaks the limit.
2. `Worklist.finds_none_iff`: without a limit the worklist finds what the search without a limit
   finds.
3. `Worklist.finds_some_iff`: with a limit the worklist comes to an end, and is given up if and only
   if the search with the limit is not complete.
-/

namespace ParserGenerator

/-! ## Definitions -/

/-- How the numbers of the nodes that wait are kept. Of the numbers from `index` up to `count` the
first one is taken, and `count` itself joins behind the last one. -/
structure WaitingLine (τ : Type) where
  standing : (index count : Nat) → τ
  next? : τ → (count : Nat) → Option (Nat × τ)
  add : τ → Nat → τ
  next?_standing (index count : Nat) : next? (standing index count) count =
    if index < count then some (index, standing (index + 1) count) else none
  add_standing {index count : Nat} (ordered : index ≤ count) :
    add (standing index count) count = standing index (count + 1)

/-- The line of a subset construction: numbers join at the back and leave at the front. -/
def WaitingLine.deque : WaitingLine (List Nat) where
  standing index count := List.range' index (count - index)
  next? line _ :=
    match line with
    | [] => none
    | index :: line => some (index, line)
  add line index := line ++ [index]
  next?_standing index count := by
    by_cases waits : index < count
    · have one : count - index = count - (index + 1) + 1 := by omega
      rw [one, List.range'_succ, if_pos waits]
    · rw [Nat.sub_eq_zero_of_le (Nat.le_of_not_lt waits), List.range'_zero, if_neg waits]
  add_standing {index count} ordered := by
    rw [Nat.sub_add_comm ordered, List.range'_concat, Nat.one_mul, Nat.add_sub_of_le ordered]

/-- The line of a canonical collection: all numbers from a counter on wait. -/
def WaitingLine.counter : WaitingLine Nat where
  standing index _ := index
  next? index count := if index < count then some (index, index + 1) else none
  add index _ := index
  next?_standing _ _ := rfl
  add_standing _ := rfl

/-- A search between two turns: the nodes that were found, the edges of each of them as far as they
were followed, and the nodes that wait. -/
structure Worklist (ν ℓ τ : Type) where
  nodes : List ν
  rows : List (List (ℓ × Nat))
  line : τ

namespace Worklist

variable {ν ℓ σ τ : Type} (kind : WaitingLine τ)

def start (first : ν) : Worklist ν ℓ τ := ⟨[first], [[]], kind.standing 0 1⟩

/-- What was found, without the line. -/
def found (list : Worklist ν ℓ τ) : Exploration ν ℓ := ⟨list.nodes, list.rows⟩

/-- Adds an edge to a row. -/
def link (list : Worklist ν ℓ τ) (source : Nat) (label : ℓ) (target : Nat) : Worklist ν ℓ τ :=
  { list with rows := list.rows.modify source (· ++ [(label, target)]) }

/-- There are more nodes than the limit allows. -/
def Exceeds (count : Nat) (limit : Option Nat) : Prop := ∃ bound ∈ limit, bound < count

instance (count : Nat) (limit : Option Nat) : Decidable (Exceeds count limit) :=
  decidable_of_iff (limit.any (· < count) = true) (by simp [Exceeds, Option.any_eq_true])

variable [DecidableEq ν]

/-- Follows an edge of a node, unless that leads to one node too many. -/
def follow (limit : Option Nat) (source : Nat) (list : Worklist ν ℓ τ) (edge : ℓ × ν) :
    Option (Worklist ν ℓ τ) :=
  match list.nodes.idxOf? edge.2 with
  | some target => some (list.link source edge.1 target)
  | none =>
      let target := list.nodes.length
      if Exceeds (target + 1) limit then none
      else
        let longer : Worklist ν ℓ τ :=
          ⟨list.nodes ++ [edge.2], list.rows ++ [[]], kind.add list.line target⟩
        some (longer.link source edge.1 target)

/-- The worklist that is served until no node waits comes to an end.

* `done`: no node waits, and the outcome is the worklist with all that it has found.
* `refused`: an edge of the next node breaks the limit. The worklist is given up with no outcome.
* `turn`: all edges of the next node are followed, and the worklist is served further. -/
inductive Ends (expand : ν → σ → List (ℓ × ν) × σ) (limit : Option Nat) :
    σ → Worklist ν ℓ τ → (outcome : Option (Worklist ν ℓ τ)) → Prop where
  | done {memory : σ} {list : Worklist ν ℓ τ}
      (empty : kind.next? list.line list.nodes.length = none) :
      Ends expand limit memory list (some list)
  | refused {memory : σ} {list : Worklist ν ℓ τ} {source : Nat} {line : τ} {node : ν}
      (next : kind.next? list.line list.nodes.length = some (source, line))
      (isNode : list.nodes[source]? = some node)
      (broken : (expand node memory).1.foldlM (follow kind limit source) { list with line } =
        none) :
      Ends expand limit memory list none
  | turn {memory : σ} {list longer : Worklist ν ℓ τ} {outcome : Option (Worklist ν ℓ τ)}
      {source : Nat} {line : τ} {node : ν}
      (next : kind.next? list.line list.nodes.length = some (source, line))
      (isNode : list.nodes[source]? = some node)
      (followed : (expand node memory).1.foldlM (follow kind limit source) { list with line } =
        some longer)
      (later : Ends expand limit (expand node memory).2 longer outcome) :
      Ends expand limit memory list outcome

/-- The search from `first` comes to an end, with what it has found or with nothing. -/
def Finds (expand : ν → σ → List (ℓ × ν) × σ) (limit : Option Nat) (memory : σ) (first : ν)
    (result : Option (Exploration ν ℓ)) : Prop :=
  ∃ outcome, Ends kind expand limit memory (start kind first) outcome ∧ outcome.map found = result

/-- The worklist of a search that has expanded some of its nodes. -/
def ofExploration (found : Exploration ν ℓ) : Worklist ν ℓ τ where
  nodes := found.nodes
  rows := found.rows ++ List.replicate (found.nodes.length - found.rows.length) []
  line := kind.standing found.rows.length found.nodes.length

open Exploration (numberOf numberTargets prefix_numberTargets turned length_le_turned
  resume_of_expanded resume_of_next not_complete_of_break)

variable {kind} {expand : ν → σ → List (ℓ × ν) × σ} {limit : Option Nat} {memory : σ}
  {found final : Exploration ν ℓ} {list : Worklist ν ℓ τ} {node : ν}

/-! ## Edges -/

theorem exceeds_mono {few many : Nat} (more : few ≤ many) (exceeds : Exceeds few limit) :
    Exceeds many limit := by
  obtain ⟨bound, isLimit, beyond⟩ := exceeds
  exact ⟨bound, isLimit, Nat.lt_of_lt_of_le beyond more⟩

theorem exceeds_some_iff {count limit : Nat} : Exceeds count (some limit) ↔ limit < count := by
  simp [Exceeds]

omit [DecidableEq ν] in
/-- The row behind those of the expanded nodes gets another edge. -/
theorem link_ofExploration (known : List ν) (rows : List (List (ℓ × Nat))) (row : List (ℓ × Nat))
    (label : ℓ) (target : Nat) :
    (ofExploration kind ⟨known, rows ++ [row]⟩).link rows.length label target =
      ofExploration kind ⟨known, rows ++ [row ++ [(label, target)]]⟩ := by
  simp only [link, ofExploration, List.length_append, List.length_singleton, List.append_assoc,
    List.modify_eq_take_drop, List.take_left, List.drop_left]
  rfl

omit [DecidableEq ν] in
/-- A node that is found waits behind all others. -/
theorem concat_ofExploration (known : List ν) (node : ν) {rows : List (List (ℓ × Nat))}
    (expanded : rows.length ≤ known.length) :
    (⟨known ++ [node], (ofExploration kind ⟨known, rows⟩).rows ++ [[]],
      kind.add (ofExploration kind ⟨known, rows⟩).line known.length⟩ : Worklist ν ℓ τ) =
      ofExploration kind ⟨known ++ [node], rows⟩ := by
  have one : known.length + 1 - rows.length = known.length - rows.length + 1 :=
    Nat.sub_add_comm expanded
  simp only [ofExploration, kind.add_standing expanded, List.length_append, List.length_singleton,
    one, List.replicate_succ', List.append_assoc]

/-- The edges of a node are numbered like those of a search that numbers all of them at once. -/
theorem foldlM_follow {known : List ν} {rows : List (List (ℓ × Nat))}
    (expanded : rows.length < known.length) (row : List (ℓ × Nat)) (edges : List (ℓ × ν)) :
    edges.foldlM (follow kind limit rows.length) (ofExploration kind ⟨known, rows ++ [row]⟩) =
      let numbered := numberTargets known edges
      if known.length < numbered.2.length ∧ Exceeds numbered.2.length limit then none
      else some (ofExploration kind ⟨numbered.2, rows ++ [row ++ numbered.1]⟩) := by
  induction edges generalizing known row with
  | nil => simp [numberTargets]
  | cons edge edges ih =>
      have nodes : (ofExploration kind ⟨known, rows ++ [row]⟩).nodes = known := rfl
      rw [List.foldlM_cons, follow, nodes]
      dsimp only [numberTargets]
      cases isKnown : known.idxOf? edge.2 with
      | some target =>
          have numbered : numberOf known edge.2 = (target, known) := by rw [numberOf, isKnown]
          dsimp only
          rw [link_ofExploration, Option.bind_eq_bind, Option.bind_some, ih expanded, numbered]
          simp only [List.append_assoc, List.singleton_append]
      | none =>
          have numbered : numberOf known edge.2 = (known.length, known ++ [edge.2]) := by
            rw [numberOf, isKnown]
          have longer : (known ++ [edge.2]).length = known.length + 1 := List.length_append
          have grown := (prefix_numberTargets (known ++ [edge.2]) edges).length_le
          rw [longer] at grown
          dsimp only
          rw [numbered]
          split
          · rename_i broken
            rw [if_pos ⟨grown, exceeds_mono grown broken⟩]
            rfl
          · rename_i fits
            have room : (rows ++ [row]).length ≤ known.length := by
              rw [List.length_append, List.length_singleton]
              exact expanded
            have more : rows.length < (known ++ [edge.2]).length := by
              rw [longer]
              exact Nat.lt_succ_of_lt expanded
            rw [concat_ofExploration known edge.2 room, link_ofExploration, Option.bind_eq_bind,
              Option.bind_some, ih more]
            simp only [longer, List.append_assoc, List.singleton_append]
            -- The limit that this node keeps is broken by a later one, if at all.
            refine if_congr (and_congr_left fun broken => ⟨fun _ => grown, fun _ => ?_⟩) rfl rfl
            refine Nat.lt_of_le_of_ne grown fun same => fits ?_
            rw [same]
            exact broken

/-! ## Turns -/

omit [DecidableEq ν] in
/-- In the end no row waits for its edges. -/
theorem found_ofExploration (complete : found.isComplete = true) :
    (ofExploration kind found).found = found := by
  have none : found.nodes.length - found.rows.length = 0 :=
    Nat.sub_eq_zero_of_le (Nat.le_of_eq (beq_iff_eq.1 complete))
  simp only [Worklist.found, ofExploration, none, List.replicate_zero, List.append_nil]

theorem length_turned : (turned expand memory found node).rows.length = found.rows.length + 1 :=
  List.length_append

omit [DecidableEq ν] in
theorem next?_ofExploration :
    kind.next? (ofExploration kind found).line (ofExploration kind found).nodes.length =
      if found.rows.length < found.nodes.length then
        some (found.rows.length, kind.standing (found.rows.length + 1) found.nodes.length)
      else none :=
  kind.next?_standing found.rows.length found.nodes.length

omit [DecidableEq ν] in
theorem next?_eq_none_iff :
    kind.next? (ofExploration kind found).line (ofExploration kind found).nodes.length = none ↔
      found.nodes[found.rows.length]? = none := by
  rw [next?_ofExploration, List.getElem?_eq_none_iff]
  simp

omit [DecidableEq ν] in
/-- The next node in the line is the first one that is not expanded. -/
theorem next?_eq_some_iff {source : Nat} {line : τ} :
    kind.next? (ofExploration kind found).line (ofExploration kind found).nodes.length =
        some (source, line) ↔
      source < found.nodes.length ∧ source = found.rows.length ∧
        line = kind.standing (found.rows.length + 1) found.nodes.length := by
  rw [next?_ofExploration]
  constructor
  · intro next
    split at next
    · cases next
      exact ⟨‹_›, rfl, rfl⟩
    · cases next
  · rintro ⟨waits, rfl, rfl⟩
    rw [if_pos waits]

omit [DecidableEq ν] in
theorem next?_of_waits (waits : found.nodes[found.rows.length]? = some node) :
    kind.next? (ofExploration kind found).line (ofExploration kind found).nodes.length =
      some (found.rows.length, kind.standing (found.rows.length + 1) found.nodes.length) :=
  next?_eq_some_iff.2 ⟨(List.getElem?_eq_some_iff.1 waits).1, rfl, rfl⟩

omit [DecidableEq ν] in
/-- The row of the node that is taken off the line is there already. -/
theorem begun_eq (waits : found.nodes[found.rows.length]? = some node) :
    { ofExploration kind found with
        line := kind.standing (found.rows.length + 1) found.nodes.length } =
      ofExploration kind ⟨found.nodes, found.rows ++ [[]]⟩ := by
  obtain ⟨bound, _⟩ := List.getElem?_eq_some_iff.1 waits
  have one : found.nodes.length - found.rows.length =
      found.nodes.length - (found.rows.length + 1) + 1 := by omega
  simp only [ofExploration, one, List.replicate_succ, List.append_assoc, List.singleton_append,
    List.length_append, List.length_singleton]

/-- A turn of the worklist is a turn of the search, or breaks the limit. -/
theorem foldlM_turned (waits : found.nodes[found.rows.length]? = some node) :
    (expand node memory).1.foldlM (follow kind limit found.rows.length)
        { ofExploration kind found with
          line := kind.standing (found.rows.length + 1) found.nodes.length } =
      if found.nodes.length < (turned expand memory found node).nodes.length ∧
          Exceeds (turned expand memory found node).nodes.length limit then none
      else some (ofExploration kind (turned expand memory found node)) := by
  obtain ⟨bound, _⟩ := List.getElem?_eq_some_iff.1 waits
  rw [begun_eq waits]
  exact foldlM_follow bound [] _

/-- Without a limit there are never too many nodes. -/
theorem foldlM_unlimited (waits : found.nodes[found.rows.length]? = some node) :
    (expand node memory).1.foldlM (follow kind none found.rows.length)
        { ofExploration kind found with
          line := kind.standing (found.rows.length + 1) found.nodes.length } =
      some (ofExploration kind (turned expand memory found node)) := by
  rw [foldlM_turned waits, if_neg]
  rintro ⟨_, _, isLimit, _⟩
  cases isLimit

/-- A turn leaves no choice, so a worklist ends in one way at most. -/
theorem Ends.unique {outcome other : Option (Worklist ν ℓ τ)}
    (ends : Ends kind expand limit memory list outcome)
    (endsToo : Ends kind expand limit memory list other) : outcome = other := by
  induction ends with
  | done empty =>
      cases endsToo with
      | done => rfl
      | refused next | turn next => cases empty.symm.trans next
  | refused next isNode broken =>
      cases endsToo with
      | done empty => cases empty.symm.trans next
      | refused => rfl
      | turn next' isNode' followed =>
          cases next.symm.trans next'
          cases isNode.symm.trans isNode'
          cases broken.symm.trans followed
  | turn next isNode followed _ ih =>
      cases endsToo with
      | done empty => cases empty.symm.trans next
      | refused next' isNode' broken =>
          cases next.symm.trans next'
          cases isNode.symm.trans isNode'
          cases broken.symm.trans followed
      | turn next' isNode' followed' later =>
          cases next.symm.trans next'
          cases isNode.symm.trans isNode'
          cases followed.symm.trans followed'
          exact ih later

/-! ## Searches without a limit -/

theorem ends_of_ends (ends : Exploration.Ends expand memory found final) :
    Ends kind expand none memory (ofExploration kind found) (some (ofExploration kind final)) := by
  induction ends with
  | done expanded => exact .done (next?_eq_none_iff.2 expanded)
  | turn waits _ ih => exact .turn (next?_of_waits waits) waits (foldlM_unlimited waits) ih

theorem exists_final {outcome : Option (Worklist ν ℓ τ)}
    (ends : Ends kind expand none memory list outcome) (isList : list = ofExploration kind found) :
    ∃ final, Exploration.Ends expand memory found final ∧
      outcome = some (ofExploration kind final) := by
  induction ends generalizing found with
  | done empty =>
      subst isList
      exact ⟨found, .done (next?_eq_none_iff.1 empty), rfl⟩
  | refused next isNode broken =>
      subst isList
      obtain ⟨_, rfl, rfl⟩ := next?_eq_some_iff.1 next
      cases broken.symm.trans (foldlM_unlimited isNode)
  | turn next isNode followed _ ih =>
      subst isList
      obtain ⟨_, rfl, rfl⟩ := next?_eq_some_iff.1 next
      cases followed.symm.trans (foldlM_unlimited isNode)
      obtain ⟨final, ends, isOutcome⟩ := ih rfl
      exact ⟨final, .turn isNode ends, isOutcome⟩

/-- Without a limit the worklist finds what the search without a limit finds. -/
theorem finds_none_iff {first : ν} {result : Option (Exploration ν ℓ)} :
    Finds kind expand none memory first result ↔
      ∃ final, Exploration.Ends expand memory ⟨[first], []⟩ final ∧ result = some final := by
  have starts : start kind first = ofExploration kind (⟨[first], []⟩ : Exploration ν ℓ) := rfl
  constructor
  · rintro ⟨outcome, ends, rfl⟩
    obtain ⟨final, searchEnds, rfl⟩ := exists_final ends starts
    have complete := searchEnds.isComplete (Nat.zero_le 1)
    exact ⟨final, searchEnds, congrArg some (found_ofExploration complete)⟩
  · rintro ⟨final, ends, rfl⟩
    have complete := ends.isComplete (Nat.zero_le 1)
    exact ⟨_, ends_of_ends ends, congrArg some (found_ofExploration complete)⟩

/-! ## Searches with a limit -/

theorem ends_resume {limit fuel : Nat} (expanded : found.rows.length ≤ found.nodes.length)
    (within : found.nodes.length ≤ max limit 1) (enough : limit < found.rows.length + fuel) :
    Ends kind expand (some limit) memory (ofExploration kind found)
      (if (Exploration.resume expand limit fuel memory found).isComplete then
        some (ofExploration kind (Exploration.resume expand limit fuel memory found))
      else none) := by
  induction fuel generalizing memory found with
  | zero =>
      -- All turns are taken, so there are as many rows as the limit allows nodes.
      have all : found.nodes.length = found.rows.length := by omega
      have none := List.getElem?_eq_none (Nat.le_of_eq all)
      rw [Exploration.resume, Exploration.isComplete, if_pos (beq_iff_eq.2 all)]
      exact .done (next?_eq_none_iff.2 none)
  | succ fuel ih =>
      cases waits : found.nodes[found.rows.length]? with
      | none =>
          have all := Nat.le_antisymm (List.getElem?_eq_none_iff.1 waits) expanded
          rw [resume_of_expanded waits, Exploration.isComplete, if_pos (beq_iff_eq.2 all)]
          exact .done (next?_eq_none_iff.2 waits)
      | some node =>
          obtain ⟨bound, _⟩ := List.getElem?_eq_some_iff.1 waits
          by_cases fits : (turned expand memory found node).nodes.length ≤ found.nodes.length ∨
              (turned expand memory found node).nodes.length ≤ limit
          · rw [resume_of_next waits fits]
            refine .turn (next?_of_waits waits) waits ?_ (ih ?_ ?_ ?_)
            · rw [foldlM_turned waits, if_neg]
              rintro ⟨grown, broken⟩
              have beyond := exceeds_some_iff.1 broken
              omega
            · rw [length_turned]
              exact Nat.le_trans bound length_le_turned
            · omega
            · rw [length_turned]
              omega
          · obtain ⟨grown, broken⟩ := not_or.1 fits
            rw [not_complete_of_break waits (Nat.lt_of_not_le grown) (Nat.lt_of_not_le broken)]
            refine .refused (next?_of_waits waits) waits ?_
            rw [foldlM_turned waits, if_pos]
            exact ⟨Nat.lt_of_not_le grown, exceeds_some_iff.2 (Nat.lt_of_not_le broken)⟩

/-- With a limit the worklist comes to an end, and is given up if and only if the search with the
limit is not complete. -/
theorem finds_some_iff {limit : Nat} {first : ν} {result : Option (Exploration ν ℓ)} :
    Finds kind expand (some limit) memory first result ↔
      result = if (explore expand limit memory first).isComplete then
        some (explore expand limit memory first) else none := by
  have starts : start kind first = ofExploration kind (⟨[first], []⟩ : Exploration ν ℓ) := rfl
  have finds : Finds kind expand (some limit) memory first
      (if (explore expand limit memory first).isComplete then
        some (explore expand limit memory first) else none) := by
    have ends : Ends kind expand (some limit) memory (ofExploration kind ⟨[first], []⟩) _ :=
      ends_resume (Nat.zero_le 1) (Nat.le_max_right limit 1)
        (Nat.lt_add_left 0 (Nat.lt_succ_self limit))
    refine ⟨_, starts ▸ ends, ?_⟩
    change Option.map Worklist.found
      (if (explore expand limit memory first).isComplete then
        some (ofExploration kind (explore expand limit memory first)) else none) = _
    split
    · exact congrArg some (found_ofExploration ‹_›)
    · rfl
  constructor
  · rintro ⟨outcome, ends, rfl⟩
    obtain ⟨other, endsToo, isResult⟩ := finds
    rw [ends.unique endsToo, isResult]
  · rintro rfl
    exact finds

end Worklist

end ParserGenerator
