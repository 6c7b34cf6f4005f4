import ParserGenerator.Exploration
import ParserGenerator.Proofs.Lookup

/-!
# What an exploration has found

The nodes that are found keep their places, so a number in a row goes on naming the same node
while more nodes are found. `Explored` is what the search keeps: the first node has number 0, no
node has two numbers, and each row names the successors of its node in order.

Results:
1. `explore_explored`: the search keeps it when expanding a node gives its successors whatever is
   remembered.
2. `complete_explore`: a search in a universe that the limit allows expands every node.
3. `entered_explore`: in a complete search every node is reached from the first one.
4. `explore_alike`: searches whose nodes and edges correspond give the same numbers.
-/

namespace ParserGenerator

namespace Exploration

variable {ν ℓ σ : Type} {successors : ν → List (ℓ × ν)} {first : ν}

/-- The nodes that the edges of a row lead to. -/
def targets (nodes : List ν) (row : List (ℓ × Nat)) : List (ℓ × Option ν) :=
  row.map fun (label, number) => (label, nodes[number]?)

/-- The row names the successors of a node in order. -/
def Names (nodes : List ν) (row : List (ℓ × Nat)) (successors : List (ℓ × ν)) : Prop :=
  targets nodes row = successors.map fun (label, node) => (label, some node)

/-- What the search has found so far, from `first`. -/
structure Explored (successors : ν → List (ℓ × ν)) (first : ν) (found : Exploration ν ℓ) :
    Prop where
  starts : found.nodes[0]? = some first
  distinct : found.nodes.Nodup
  expanded : found.rows.length ≤ found.nodes.length
  names : ∀ (index : Nat) (node : ν) (row : List (ℓ × Nat)), found.nodes[index]? = some node →
    found.rows[index]? = some row → Names found.nodes row (successors node)

/-! ## Numbers stay -/

theorem Names.mono {nodes more : List ν} (grown : nodes <+: more) {row : List (ℓ × Nat)}
    {successors : List (ℓ × ν)} (names : Names nodes row successors) :
    Names more row successors := by
  induction row generalizing successors with
  | nil => exact names
  | cons edge row ih =>
      cases successors with
      | nil => cases names
      | cons entry rest =>
          obtain ⟨heads, tails⟩ := List.cons.inj names
          obtain ⟨label, found⟩ := Prod.mk.inj heads
          have later : targets more row = rest.map fun (label, node) => (label, some node) :=
            ih tails
          show (edge.1, more[edge.2]?) :: targets more row = _
          rw [getElem?_of_isPrefix grown found, later, label]
          rfl

theorem Names.lookup [DecidableEq ℓ] {nodes : List ν} {row : List (ℓ × Nat)}
    {successors : List (ℓ × ν)} (names : Names nodes row successors) (label : ℓ) :
    (row.lookup label).map (fun number => nodes[number]?) =
      (successors.lookup label).map some := by
  rw [← lookup_map, ← lookup_map]
  exact congrArg (List.lookup label) names

theorem Names.labels {nodes : List ν} {row : List (ℓ × Nat)} {successors : List (ℓ × ν)}
    (names : Names nodes row successors) : row.map Prod.fst = successors.map Prod.fst := by
  have labels := congrArg (List.map Prod.fst) names
  unfold targets at labels
  rw [List.map_map, List.map_map] at labels
  exact labels

/-- What a row names is a successor. -/
theorem Names.exists_of_mem {nodes : List ν} {row : List (ℓ × Nat)} {successors : List (ℓ × ν)}
    (names : Names nodes row successors) {label : ℓ} {number : Nat}
    (member : (label, number) ∈ row) :
    ∃ node, nodes[number]? = some node ∧ (label, node) ∈ successors := by
  have target : (label, nodes[number]?) ∈ targets nodes row := List.mem_map.2 ⟨_, member, rfl⟩
  rw [names] at target
  obtain ⟨⟨other, node⟩, isSuccessor, equal⟩ := List.mem_map.1 target
  obtain ⟨rfl, isNode⟩ := Prod.mk.inj equal
  exact ⟨node, isNode.symm, isSuccessor⟩

/-- The invariant stays while nodes and the next row are added. -/
theorem Explored.append {found : Exploration ν ℓ} (explored : Explored successors first found)
    {nodes : List ν} (grown : found.nodes <+: nodes) (distinct : nodes.Nodup)
    {rows : List (List (ℓ × Nat))}
    (added : ∀ (index : Nat) (node : ν) (row : List (ℓ × Nat)), nodes[index]? = some node →
      rows[index]? = some row → found.rows[index]? = some row ∧ index < found.nodes.length ∨
        Names nodes row (successors node))
    (expanded : rows.length ≤ nodes.length) : Explored successors first ⟨nodes, rows⟩ := by
  refine ⟨getElem?_of_isPrefix grown explored.starts, distinct, expanded, ?_⟩
  intro index node row isNode isRow
  rcases added index node row isNode isRow with ⟨old, bound⟩ | new
  · have found' := List.getElem?_eq_getElem bound
    have same := (getElem?_of_isPrefix grown found').symm.trans isNode
    exact (explored.names index node row (found'.trans same) old).mono grown
  · exact new

variable [DecidableEq ν]

theorem numberOf_spec {known : List ν} (distinct : known.Nodup) (node : ν) :
    known <+: (numberOf known node).2 ∧ (numberOf known node).2.Nodup ∧
      (numberOf known node).2[(numberOf known node).1]? = some node := by
  unfold numberOf
  cases found : known.idxOf? node with
  | some index =>
      obtain ⟨bound, same, _⟩ := List.idxOf?_eq_some_iff.1 found
      refine ⟨List.prefix_refl _, distinct, ?_⟩
      exact List.getElem?_eq_some_iff.2 ⟨bound, same⟩
  | none =>
      have absent : node ∉ known := List.idxOf?_eq_none_iff.1 found
      refine ⟨List.prefix_append _ _, ?_, List.getElem?_concat_length⟩
      rw [List.nodup_append]
      refine ⟨distinct, by simp, fun other member same single => ?_⟩
      rw [List.mem_singleton.1 single]
      exact fun equal => absent (equal ▸ member)

theorem numberTargets_spec {known : List ν} (distinct : known.Nodup) (entries : List (ℓ × ν)) :
    known <+: (numberTargets known entries).2 ∧ (numberTargets known entries).2.Nodup ∧
      Names (numberTargets known entries).2 (numberTargets known entries).1 entries := by
  induction entries generalizing known with
  | nil => exact ⟨List.prefix_refl _, distinct, rfl⟩
  | cons entry rest ih =>
      obtain ⟨label, node⟩ := entry
      obtain ⟨grown, nodup, numbered⟩ := numberOf_spec distinct node
      obtain ⟨more, nodup', names⟩ := ih nodup
      refine ⟨grown.trans more, nodup', ?_⟩
      have kept := getElem?_of_isPrefix more numbered
      show (label, (numberTargets (numberOf known node).2 rest).2[(numberOf known node).1]?) ::
        targets (numberTargets (numberOf known node).2 rest).2
          (numberTargets (numberOf known node).2 rest).1 = _
      rw [kept, names]
      rfl

/-! ## The search -/

variable {expand : ν → σ → List (ℓ × ν) × σ} {valid : σ → Prop} {limit : Nat}

theorem Explored.resume {memory : σ}
    (sound : ∀ node memory, valid memory →
      (expand node memory).1 = successors node ∧ valid (expand node memory).2)
    (fuel : Nat) (remembered : valid memory) {found : Exploration ν ℓ}
    (explored : Explored successors first found) :
    Explored successors first (resume expand limit fuel memory found) := by
  induction fuel generalizing memory found with
  | zero => exact explored
  | succ fuel ih =>
      rw [Exploration.resume]
      cases next : found.nodes[found.rows.length]? with
      | none => exact explored
      | some node =>
          obtain ⟨bound, _⟩ := List.getElem?_eq_some_iff.1 next
          obtain ⟨expansion, remembered'⟩ := sound node memory remembered
          obtain ⟨grown, distinct, names⟩ :=
            numberTargets_spec explored.distinct (successors node)
          have larger := grown.length_le
          dsimp only
          rw [expansion]
          split
          · -- The row is dropped, and only the nodes have grown.
            refine explored.append grown distinct (fun index other row isNode isRow => .inl ?_)
              (Nat.le_trans explored.expanded larger)
            obtain ⟨below, _⟩ := List.getElem?_eq_some_iff.1 isRow
            exact ⟨isRow, Nat.lt_of_lt_of_le below explored.expanded⟩
          · refine ih remembered' (explored.append grown distinct ?_ ?_)
            · intro index other row isNode isRow
              rcases Nat.lt_or_ge index found.rows.length with old | new
              · rw [List.getElem?_append_left old] at isRow
                exact .inl ⟨isRow, Nat.lt_trans old bound⟩
              · have isLast : index = found.rows.length := by
                  obtain ⟨below, _⟩ := List.getElem?_eq_some_iff.1 isRow
                  rw [List.length_append, List.length_singleton] at below
                  omega
                rw [isLast, List.getElem?_concat_length] at isRow
                rw [isLast, getElem?_of_isPrefix grown next] at isNode
                cases isRow
                cases isNode
                exact .inr names
            · rw [List.length_append, List.length_singleton]
              omega

/-- The search keeps the invariant, whatever it remembers. -/
theorem explore_explored {memory : σ}
    (sound : ∀ node memory, valid memory →
      (expand node memory).1 = successors node ∧ valid (expand node memory).2)
    (remembered : valid memory) :
    Explored successors first (explore expand limit memory first) := by
  refine Explored.resume sound (limit + 1) remembered ⟨rfl, by simp, ?_, ?_⟩
  · exact Nat.zero_le _
  · intro index node row _ isRow
    cases isRow

/-! ## Searches that end -/

theorem mem_numberTargets {known : List ν} {entries : List (ℓ × ν)} {node : ν}
    (member : node ∈ (numberTargets known entries).2) :
    node ∈ known ∨ ∃ entry ∈ entries, node = entry.2 := by
  induction entries generalizing known with
  | nil => exact .inl member
  | cons entry rest ih =>
      rcases ih member with numbered | ⟨other, later, equal⟩
      · split at numbered
        · exact .inl numbered
        · rcases List.mem_append.1 numbered with old | new
          · exact .inl old
          · exact .inr ⟨entry, List.mem_cons_self, List.mem_singleton.1 new⟩
      · exact .inr ⟨other, List.mem_cons_of_mem _ later, equal⟩

/-- There are no more nodes than the universe has, so the limit is not met and every step expands
a node until all are expanded. -/
theorem complete_resume {whole : List ν} (small : whole.length ≤ limit)
    (sound : ∀ node memory, valid memory →
      (expand node memory).1 = successors node ∧ valid (expand node memory).2)
    (inside : ∀ node ∈ whole, ∀ entry ∈ successors node, entry.2 ∈ whole) (fuel : Nat)
    {memory : σ} (remembered : valid memory) {found : Exploration ν ℓ}
    (distinct : found.nodes.Nodup) (within : ∀ node ∈ found.nodes, node ∈ whole)
    (expanded : found.rows.length ≤ found.nodes.length)
    (enough : limit < found.rows.length + fuel) :
    (resume expand limit fuel memory found).rows.length =
        (resume expand limit fuel memory found).nodes.length ∧
      (resume expand limit fuel memory found).nodes.length ≤ whole.length := by
  have size := distinct.length_le_of_subset within
  induction fuel generalizing memory found with
  | zero => omega
  | succ fuel ih =>
      rw [Exploration.resume]
      cases next : found.nodes[found.rows.length]? with
      | none =>
          have all := List.getElem?_eq_none_iff.1 next
          exact ⟨Nat.le_antisymm expanded all, size⟩
      | some node =>
          obtain ⟨bound, _⟩ := List.getElem?_eq_some_iff.1 next
          obtain ⟨expansion, remembered'⟩ := sound node memory remembered
          obtain ⟨grown, distinct', _⟩ := numberTargets_spec distinct (successors node)
          have within' : ∀ other ∈ (numberTargets found.nodes (successors node)).2,
              other ∈ whole := by
            intro other member
            rcases mem_numberTargets member with old | ⟨entry, isEntry, rfl⟩
            · exact within other old
            · exact inside node (within node (List.mem_of_getElem? next)) entry isEntry
          have size' := distinct'.length_le_of_subset within'
          have larger := grown.length_le
          dsimp only
          rw [expansion, if_neg (by omega)]
          refine ih remembered' distinct' within' ?_ ?_ size'
          · dsimp only
            rw [List.length_append, List.length_singleton]
            omega
          · rw [List.length_append, List.length_singleton]
            omega

/-- A search in a universe that the limit allows expands every node that it finds. -/
theorem complete_explore {whole : List ν} (small : whole.length ≤ limit)
    (sound : ∀ node memory, valid memory →
      (expand node memory).1 = successors node ∧ valid (expand node memory).2)
    (inside : ∀ node ∈ whole, ∀ entry ∈ successors node, entry.2 ∈ whole) (starts : first ∈ whole)
    {memory : σ} (remembered : valid memory) :
    (explore expand limit memory first).rows.length =
        (explore expand limit memory first).nodes.length ∧
      (explore expand limit memory first).nodes.length ≤ whole.length := by
  refine complete_resume small sound inside (limit + 1) remembered
    (List.pairwise_singleton _ first) ?_ (Nat.zero_le _) (by simp)
  intro node member
  exact List.mem_singleton.1 member ▸ starts

/-! ## Where nodes come from -/

/-- Every node but the first is named in the row of a node in front of it. -/
def Entered (found : Exploration ν ℓ) : Prop :=
  ∀ index, index < found.nodes.length → index = 0 ∨ ∃ (source : Nat) (row : List (ℓ × Nat))
    (label : ℓ), source < index ∧ found.rows[source]? = some row ∧ (label, index) ∈ row

theorem numberOf_cases (known : List ν) (node : ν) :
    (numberOf known node).2 = known ∨ numberOf known node = (known.length, known ++ [node]) := by
  unfold numberOf
  split
  · exact .inl rfl
  · exact .inr rfl

/-- The nodes that join the known ones are named in the row. -/
theorem exists_label_of_new {known : List ν} {entries : List (ℓ × ν)} {index : Nat}
    (new : known.length ≤ index) (bound : index < (numberTargets known entries).2.length) :
    ∃ label, (label, index) ∈ (numberTargets known entries).1 := by
  induction entries generalizing known with
  | nil => exact absurd bound (Nat.not_lt_of_le new)
  | cons entry rest ih =>
      change index < (numberTargets (numberOf known entry.2).2 rest).2.length at bound
      show ∃ label, (label, index) ∈ (entry.1, (numberOf known entry.2).1) ::
        (numberTargets (numberOf known entry.2).2 rest).1
      rcases numberOf_cases known entry.2 with isKnown | isNew
      · rw [isKnown] at bound ⊢
        obtain ⟨label, member⟩ := ih new bound
        exact ⟨label, List.mem_cons_of_mem _ member⟩
      · rw [isNew] at bound ⊢
        rcases Nat.eq_or_lt_of_le new with isNext | later
        · exact ⟨entry.1, isNext ▸ List.mem_cons_self⟩
        · have longer : (known ++ [entry.2]).length ≤ index := by
            rw [List.length_append, List.length_singleton]
            exact later
          obtain ⟨label, member⟩ := ih longer bound
          exact ⟨label, List.mem_cons_of_mem _ member⟩

theorem Entered.resume (fuel : Nat) {memory : σ} {found : Exploration ν ℓ}
    (entered : found.Entered)
    (complete : (resume expand limit fuel memory found).isComplete = true) :
    (resume expand limit fuel memory found).Entered := by
  induction fuel generalizing memory found with
  | zero => exact entered
  | succ fuel ih =>
      rw [Exploration.resume] at complete ⊢
      cases next : found.nodes[found.rows.length]? with
      | none => exact entered
      | some node =>
          obtain ⟨bound, _⟩ := List.getElem?_eq_some_iff.1 next
          rw [next] at complete
          dsimp only at complete ⊢
          split at complete <;> rename_i broken
          · -- With its row dropped the search is not complete.
            rw [isComplete, beq_iff_eq] at complete
            dsimp only at complete
            omega
          · rw [if_neg broken]
            refine ih ?_ complete
            intro index isNode
            by_cases old : index < found.nodes.length
            · rcases entered index old with isFirst | ⟨source, row, label, before, isRow, member⟩
              · exact .inl isFirst
              · exact .inr ⟨source, row, label, before,
                  getElem?_of_isPrefix (List.prefix_append _ _) isRow, member⟩
            · obtain ⟨label, member⟩ := exists_label_of_new (Nat.le_of_not_lt old) isNode
              have later := Nat.lt_of_lt_of_le bound (Nat.le_of_not_lt old)
              exact .inr ⟨found.rows.length, _, label, later, List.getElem?_concat_length, member⟩

/-- In a complete search every node but the first is named in the row of a node in front of it. -/
theorem entered_explore {memory : σ}
    (complete : (explore expand limit memory first).isComplete = true) :
    (explore expand limit memory first).Entered :=
  Entered.resume (limit + 1) (fun _ isNode => .inl (Nat.lt_one_iff.1 isNode)) complete

/-! ## Two searches side by side -/

section Alike

variable {ν' ℓ' σ' : Type} [DecidableEq ν'] {same : ν → ν' → Prop} {sameLabel : ℓ → ℓ' → Prop}

/-- The edges have corresponding labels and lead to the same number. -/
def EdgesAlike (sameLabel : ℓ → ℓ' → Prop) (edge : ℓ × Nat) (edge' : ℓ' × Nat) : Prop :=
  sameLabel edge.1 edge'.1 ∧ edge.2 = edge'.2

/-- The same numbers were given to nodes and edges that correspond. -/
structure Alike (same : ν → ν' → Prop) (sameLabel : ℓ → ℓ' → Prop) (found : Exploration ν ℓ)
    (found' : Exploration ν' ℓ') : Prop where
  nodes : List.Forall₂ same found.nodes found'.nodes
  rows : List.Forall₂ (List.Forall₂ (EdgesAlike sameLabel)) found.rows found'.rows

theorem idxOf?_alike (unique : Relator.BiUnique same) {known : List ν} {known' : List ν'}
    (alike : List.Forall₂ same known known') {node : ν} {node' : ν'} (isSame : same node node') :
    known.idxOf? node = known'.idxOf? node' := by
  induction alike with
  | nil => rfl
  | @cons first first' _ _ heads _ ih =>
      have equal : (first == node) = (first' == node') := by
        rw [Bool.eq_iff_iff, beq_iff_eq, beq_iff_eq]
        exact Relator.rel_eq unique heads isSame
      rw [List.idxOf?_cons, List.idxOf?_cons, equal, ih]

theorem numberOf_alike (unique : Relator.BiUnique same) {known : List ν} {known' : List ν'}
    (alike : List.Forall₂ same known known') {node : ν} {node' : ν'} (isSame : same node node') :
    (numberOf known node).1 = (numberOf known' node').1 ∧
      List.Forall₂ same (numberOf known node).2 (numberOf known' node').2 := by
  unfold numberOf
  rw [idxOf?_alike unique alike isSame]
  cases known'.idxOf? node' with
  | some index => exact ⟨rfl, alike⟩
  | none => exact ⟨alike.length_eq, List.rel_append alike (.cons isSame .nil)⟩

theorem numberTargets_alike (unique : Relator.BiUnique same) {entries : List (ℓ × ν)}
    {entries' : List (ℓ' × ν')} (corresponds : List.Forall₂
      (fun entry entry' => sameLabel entry.1 entry'.1 ∧ same entry.2 entry'.2) entries entries')
    {known : List ν} {known' : List ν'} (alike : List.Forall₂ same known known') :
    List.Forall₂ (EdgesAlike sameLabel) (numberTargets known entries).1
        (numberTargets known' entries').1 ∧
      List.Forall₂ same (numberTargets known entries).2 (numberTargets known' entries').2 := by
  induction corresponds generalizing known known' with
  | nil => exact ⟨.nil, alike⟩
  | cons first _ ih =>
      obtain ⟨number, grown⟩ := numberOf_alike unique alike first.2
      obtain ⟨row, nodes⟩ := ih grown
      exact ⟨.cons ⟨first.1, number⟩ row, nodes⟩

variable {successors' : ν' → List (ℓ' × ν')} {expand' : ν' → σ' → List (ℓ' × ν') × σ'}
  {valid' : σ' → Prop}

/-- The searches go on in step when nodes that correspond have successors that correspond. -/
theorem Alike.resume (unique : Relator.BiUnique same)
    (sound : ∀ node memory, valid memory →
      (expand node memory).1 = successors node ∧ valid (expand node memory).2)
    (sound' : ∀ node memory, valid' memory →
      (expand' node memory).1 = successors' node ∧ valid' (expand' node memory).2)
    (corresponds : ∀ node node', same node node' → List.Forall₂
      (fun entry entry' => sameLabel entry.1 entry'.1 ∧ same entry.2 entry'.2)
      (successors node) (successors' node'))
    (fuel : Nat) {memory : σ} {memory' : σ'} (remembered : valid memory)
    (remembered' : valid' memory') {found : Exploration ν ℓ} {found' : Exploration ν' ℓ'}
    (alike : Alike same sameLabel found found') :
    Alike same sameLabel (resume expand limit fuel memory found)
      (resume expand' limit fuel memory' found') := by
  induction fuel generalizing memory memory' found found' with
  | zero => exact alike
  | succ fuel ih =>
      rw [Exploration.resume, Exploration.resume, ← alike.rows.length_eq]
      cases next : found.nodes[found.rows.length]? with
      | none =>
          have none' : found'.nodes[found.rows.length]? = none := by
            rw [List.getElem?_eq_none_iff] at next ⊢
            rwa [← alike.nodes.length_eq]
          rw [none']
          exact alike
      | some node =>
          obtain ⟨node', next', isSame⟩ := exists_getElem?_of_forall₂ alike.nodes next
          obtain ⟨isExpanded, valid⟩ := sound node memory remembered
          obtain ⟨isExpanded', valid'⟩ := sound' node' memory' remembered'
          obtain ⟨row, nodes⟩ :=
            numberTargets_alike unique (corresponds node node' isSame) alike.nodes
          rw [next']
          dsimp only
          rw [isExpanded, isExpanded', ← alike.nodes.length_eq, ← nodes.length_eq]
          split
          · exact ⟨nodes, alike.rows⟩
          · exact ih valid valid' ⟨nodes, List.rel_append alike.rows (.cons row .nil)⟩

/-- Searches from nodes that correspond give the same numbers, with the same limit. -/
theorem explore_alike (unique : Relator.BiUnique same)
    (sound : ∀ node memory, valid memory →
      (expand node memory).1 = successors node ∧ valid (expand node memory).2)
    (sound' : ∀ node memory, valid' memory →
      (expand' node memory).1 = successors' node ∧ valid' (expand' node memory).2)
    (corresponds : ∀ node node', same node node' → List.Forall₂
      (fun entry entry' => sameLabel entry.1 entry'.1 ∧ same entry.2 entry'.2)
      (successors node) (successors' node'))
    {memory : σ} {memory' : σ'} (remembered : valid memory) (remembered' : valid' memory')
    {first' : ν'} (isSame : same first first') :
    Alike same sameLabel (explore expand limit memory first)
      (explore expand' limit memory' first') :=
  Alike.resume unique sound sound' corresponds (limit + 1) remembered remembered'
    ⟨.cons isSame .nil, .nil⟩

end Alike

end Exploration

end ParserGenerator
