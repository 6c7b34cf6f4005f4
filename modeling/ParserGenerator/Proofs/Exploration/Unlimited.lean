import ParserGenerator.Proofs.Exploration

/-!
# Exploring without a limit

A search without a limit takes turns until every node that was found is expanded, and it may never
come to that. Where it does, a search with a limit takes the same turns up to the one that breaks
the limit: with room for all nodes it ends in the same way, and otherwise it stays incomplete.

Results:
1. `Exploration.Ends.unique`, `Exploration.ends_resume`: a search without a limit ends in one way at
   most, and where a search with a limit is complete it ends as that one does.
2. `Exploration.Ends.resume_eq`, `Exploration.Ends.not_complete`: what a search with a limit comes
   to where the search without one ends.
-/

namespace ParserGenerator

namespace Exploration

/-! ## Definitions -/

section

variable {ν ℓ σ : Type} [DecidableEq ν]

/-- What is found after the turn that expands a node. -/
def turned (expand : ν → σ → List (ℓ × ν) × σ) (memory : σ) (found : Exploration ν ℓ) (node : ν) :
    Exploration ν ℓ :=
  let (row, nodes) := numberTargets found.nodes (expand node memory).1
  ⟨nodes, found.rows ++ [row]⟩

/-- The search that takes turns until all nodes are expanded comes to an end, with `final`. -/
inductive Ends (expand : ν → σ → List (ℓ × ν) × σ) :
    σ → Exploration ν ℓ → (final : Exploration ν ℓ) → Prop where
  | done {memory : σ} {found : Exploration ν ℓ}
      (expanded : found.nodes[found.rows.length]? = none) : Ends expand memory found found
  | turn {memory : σ} {found final : Exploration ν ℓ} {node : ν}
      (next : found.nodes[found.rows.length]? = some node)
      (later : Ends expand (expand node memory).2 (turned expand memory found node) final) :
      Ends expand memory found final

end

variable {ν ℓ σ : Type} [DecidableEq ν] {expand : ν → σ → List (ℓ × ν) × σ} {limit fuel : Nat}
  {memory : σ} {found final : Exploration ν ℓ} {node : ν}

/-! ## Turns -/

theorem prefix_numberOf (known : List ν) (node : ν) : known <+: (numberOf known node).2 := by
  rcases numberOf_cases known node with isKnown | isNew
  · exact ⟨[], by rw [isKnown, List.append_nil]⟩
  · exact ⟨[node], by rw [isNew]⟩

theorem prefix_numberTargets (known : List ν) (entries : List (ℓ × ν)) :
    known <+: (numberTargets known entries).2 := by
  induction entries generalizing known with
  | nil => exact List.prefix_refl _
  | cons entry rest ih => exact (prefix_numberOf known entry.2).trans (ih _)

theorem length_le_turned :
    found.nodes.length ≤ (turned expand memory found node).nodes.length :=
  (prefix_numberTargets found.nodes (expand node memory).1).length_le

theorem resume_of_expanded (expanded : found.nodes[found.rows.length]? = none) :
    resume expand limit fuel memory found = found := by
  cases fuel with
  | zero => rfl
  | succ fuel => rw [resume, expanded]

/-- A turn that finds no new node, or not too many, is taken. -/
theorem resume_of_next (next : found.nodes[found.rows.length]? = some node)
    (fits : (turned expand memory found node).nodes.length ≤ found.nodes.length ∨
      (turned expand memory found node).nodes.length ≤ limit) :
    resume expand limit (fuel + 1) memory found =
      resume expand limit fuel (expand node memory).2 (turned expand memory found node) := by
  rw [resume, next]
  dsimp only
  rw [if_neg]
  · rfl
  · rintro ⟨grown, broken⟩
    rcases fits with few | few
    · exact Nat.not_lt_of_le few grown
    · exact Nat.not_lt_of_le few broken

/-- A turn that breaks the limit leaves the search incomplete. -/
theorem not_complete_of_break (next : found.nodes[found.rows.length]? = some node)
    (grown : found.nodes.length < (turned expand memory found node).nodes.length)
    (broken : limit < (turned expand memory found node).nodes.length) :
    (resume expand limit (fuel + 1) memory found).isComplete = false := by
  obtain ⟨bound, _⟩ := List.getElem?_eq_some_iff.1 next
  rw [resume, next]
  dsimp only
  rw [if_pos ⟨grown, broken⟩, isComplete, beq_eq_false_iff_ne]
  exact Nat.ne_of_gt (Nat.lt_trans bound grown)

/-! ## Searches that end -/

/-- Turns leave no choice, so a search ends in one way at most. -/
theorem Ends.unique {other : Exploration ν ℓ} (ends : Ends expand memory found final)
    (endsToo : Ends expand memory found other) : final = other := by
  induction ends with
  | done expanded =>
      cases endsToo with
      | done _ => rfl
      | turn next _ => cases expanded.symm.trans next
  | turn next _ ih =>
      cases endsToo with
      | done expanded => cases expanded.symm.trans next
      | turn next' later =>
          cases next.symm.trans next'
          exact ih later

theorem ends_resume (complete : (resume expand limit fuel memory found).isComplete = true) :
    Ends expand memory found (resume expand limit fuel memory found) := by
  induction fuel generalizing memory found with
  | zero => exact .done (List.getElem?_eq_none (Nat.le_of_eq (beq_iff_eq.1 complete)))
  | succ fuel ih =>
      cases next : found.nodes[found.rows.length]? with
      | none =>
          rw [resume_of_expanded next]
          exact .done next
      | some node =>
          by_cases fits : (turned expand memory found node).nodes.length ≤ found.nodes.length ∨
              (turned expand memory found node).nodes.length ≤ limit
          · rw [resume_of_next next fits] at complete ⊢
            exact .turn next (ih complete)
          · obtain ⟨grown, broken⟩ := not_or.1 fits
            rw [not_complete_of_break next (Nat.lt_of_not_le grown) (Nat.lt_of_not_le broken)]
              at complete
            cases complete

theorem Ends.length_le (ends : Ends expand memory found final) :
    found.nodes.length ≤ final.nodes.length := by
  induction ends with
  | done => exact Nat.le_refl _
  | turn _ _ ih => exact Nat.le_trans length_le_turned ih

theorem Ends.isComplete (ends : Ends expand memory found final)
    (expanded : found.rows.length ≤ found.nodes.length) : final.isComplete = true := by
  induction ends with
  | done all => exact beq_iff_eq.2 (Nat.le_antisymm (List.getElem?_eq_none_iff.1 all) expanded)
  | turn next _ ih =>
      obtain ⟨bound, _⟩ := List.getElem?_eq_some_iff.1 next
      refine ih ?_
      show (_ ++ [_]).length ≤ _
      rw [List.length_append, List.length_singleton]
      exact Nat.le_trans bound length_le_turned

/-- A search with room for all nodes, and a turn for each node that waits, is the search without a
limit. -/
theorem Ends.resume_eq (ends : Ends expand memory found final)
    (within : final.nodes.length ≤ limit)
    (enough : final.nodes.length ≤ found.rows.length + fuel) :
    resume expand limit fuel memory found = final := by
  induction ends generalizing fuel with
  | done expanded => exact resume_of_expanded expanded
  | turn next later ih =>
      have fits := Nat.le_trans later.length_le within
      cases fuel with
      | zero =>
          -- A node waits, so there are more nodes than rows.
          obtain ⟨bound, _⟩ := List.getElem?_eq_some_iff.1 next
          have fewer := (Ends.turn next later).length_le
          omega
      | succ fuel =>
          rw [resume_of_next next (.inr fits)]
          refine ih within ?_
          show _ ≤ (_ ++ [_]).length + fuel
          rw [List.length_append, List.length_singleton]
          omega

/-- A search without room for all nodes that the search without a limit goes on to find is not
complete. -/
theorem Ends.not_complete (ends : Ends expand memory found final)
    (more : found.nodes.length < final.nodes.length) (beyond : limit < final.nodes.length) :
    (resume expand limit fuel memory found).isComplete = false := by
  induction ends generalizing fuel with
  | done => exact absurd more (Nat.lt_irrefl _)
  | @turn memory found final node next later ih =>
      obtain ⟨bound, _⟩ := List.getElem?_eq_some_iff.1 next
      cases fuel with
      | zero => exact beq_eq_false_iff_ne.2 (Nat.ne_of_gt bound)
      | succ fuel =>
          by_cases fits : (turned expand memory found node).nodes.length ≤ found.nodes.length ∨
              (turned expand memory found node).nodes.length ≤ limit
          · rw [resume_of_next next fits]
            refine ih ?_ beyond
            rcases fits with few | few
            · exact Nat.lt_of_le_of_lt few more
            · exact Nat.lt_of_le_of_lt few beyond
          · obtain ⟨grown, broken⟩ := not_or.1 fits
            exact not_complete_of_break next (Nat.lt_of_not_le grown) (Nat.lt_of_not_le broken)

end Exploration

end ParserGenerator
