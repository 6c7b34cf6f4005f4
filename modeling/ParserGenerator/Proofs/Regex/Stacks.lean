import ParserGenerator.Regex.Pattern

/-!
# The stacks of a pattern

Between two characters of a pattern each group that is open has some finished branches and a last
one that can go on. The nodes and the markers of all these groups stand on two stacks, and no marker
says which node it belongs to. Yet the markers of a group can be told from what was read of it: the
finished branches are one node with a bar above, and the last branch is a row of factors, with a
last factor apart if it has any. So the stacks are known from the open groups (`holding`), and what
is done to the stacks is done to a group.

Results: `Stacks.append_holding`, `Stacks.alternation_holding`, `Stacks.repeatLast_holding`,
`Stacks.read_open`, `Stacks.read_close` and `Stacks.finish_holding`, that the stacks stay those of
the open groups.
-/

namespace ParserGenerator.Regex

/-! ## Definitions -/

/-- A choice between branches; a single branch stands for itself. -/
def choice : List Regex → Regex
  | [only] => only
  | branches => .alt branches

/-- A group that is being read: the factors of each finished branch, and the factors of the last
branch with the latest one in front. -/
structure Group where
  branches : List (List Regex)
  factors : List Regex

namespace Group

def empty : Group := ⟨[], []⟩

/-- Adds a factor to the last branch. -/
def add (group : Group) (factor : Regex) : Group :=
  { group with factors := factor :: group.factors }

/-- Finishes the last branch and starts another one. -/
def split (group : Group) : Group := ⟨group.branches ++ [group.factors.reverse], []⟩

/-- The regular expression of a finished group. -/
def close (group : Group) : Regex :=
  choice ((group.branches ++ [group.factors.reverse]).map .concat)

end Group

namespace Stacks

/-- Finished branches are one node. -/
def withBranches (state : Stacks) : List (List Regex) → Stacks
  | [] => state
  | branches =>
      { state with
        nodes := choice (branches.map .concat) :: state.nodes
        markers := .alternation :: state.markers }

/-- The last branch is a row of factors without the last factor, which can still be repeated. -/
def withFactors (state : Stacks) : List Regex → Stacks
  | [] => { state with nodes := .concat [] :: state.nodes }
  | last :: earlier =>
      { state with
        nodes := last :: .concat earlier.reverse :: state.nodes
        markers := .string :: state.markers }

/-- What is joined in a group ends here. -/
def bounded (state : Stacks) : Stacks := { state with markers := .paren :: state.markers }

/-- The stacks with a group on top. -/
def withGroup (state : Stacks) (group : Group) : Stacks :=
  (state.bounded.withBranches group.branches).withFactors group.factors

/-- The stacks inside `group` and the groups around it, each with the offset of the parenthesis that
opened the group inside it. -/
def holding (group : Group) : (outer : List (Nat × Group)) → Stacks
  | [] => empty.withGroup group
  | (opened, around) :: outer =>
      let state := (holding around outer).concat
      withGroup { state with openGroups := opened :: state.openGroups } group

variable {state : Stacks} {group : Group} {outer : List (Nat × Group)}

/-! ## One group -/

/-- The last factor joins the others when another one is to come. -/
theorem concat_withFactors (apart : state.markers.head? ≠ some .string) (factors : List Regex) :
    (state.withFactors factors).concat =
      { state with
        nodes := .concat factors.reverse :: state.nodes
        markers := .string :: state.markers } := by
  have stays (nodes : List Regex) :
      Regex.reduceWhile (· = .string) state.markers nodes = (state.markers, nodes) := by
    cases isMarkers : state.markers with
    | nil => rfl
    | cons marker markers =>
        rw [isMarkers] at apart
        have other : marker ≠ .string := fun same => apart (same ▸ rfl)
        rw [Regex.reduceWhile, if_neg (by simpa using other)]
  cases factors with
  | nil => simp only [withFactors, concat, reduceWhile, stays]; rfl
  | cons last earlier =>
      have joins : Regex.reduceWhile (· = .string) (.string :: state.markers)
          (last :: .concat earlier.reverse :: state.nodes) =
            Regex.reduceWhile (· = .string) state.markers
              (.concat (earlier.reverse ++ [last]) :: state.nodes) := rfl
      simp only [withFactors, concat, reduceWhile, joins, stays, List.reverse_cons]

theorem head?_withBranches (branches : List (List Regex)) :
    (state.bounded.withBranches branches).markers.head? ≠ some .string := by
  cases branches <;> exact nofun

/-- A factor is added to the last branch of the group on top. -/
theorem append_withGroup (factor : Regex) :
    (state.withGroup group).append factor = state.withGroup (group.add factor) := by
  unfold withGroup append
  rw [concat_withFactors (head?_withBranches group.branches)]
  rfl

theorem reduceWhile_withFactors (factors : List Regex) :
    (state.withFactors factors).reduceWhile (· ≠ .paren) =
      reduceWhile (· ≠ .paren)
        { state with nodes := .concat factors.reverse :: state.nodes } := by
  cases factors with
  | nil => rfl
  | cons last earlier =>
      rw [List.reverse_cons]
      rfl

/-- A branch behind others makes them a choice, or joins the choice that they are. -/
theorem join_choice {branches : List (List Regex)} (nonempty : branches ≠ [])
    (factors : List Regex) :
    join .alternation (choice (branches.map .concat)) (.concat factors) =
      choice ((branches ++ [factors]).map .concat) := by
  match branches with
  | [] => exact absurd rfl nonempty
  | [only] => rfl
  | first :: second :: others => simp [choice, join]

theorem reduceWhile_withBranches (branches : List (List Regex)) (factors : List Regex) :
    reduceWhile (· ≠ .paren)
        { state.withBranches branches with
          nodes := .concat factors :: (state.withBranches branches).nodes } =
      reduceWhile (· ≠ .paren)
        { state with
          nodes := choice ((branches ++ [factors]).map .concat) :: state.nodes } := by
  cases branches with
  | nil => rfl
  | cons first others =>
      rw [← join_choice (List.cons_ne_nil first others)]
      rfl

/-- All of a group is joined to the regular expression of the group. -/
theorem reduceWhile_withGroup :
    (state.withGroup group).reduceWhile (· ≠ .paren) =
      { state with
        nodes := group.close :: state.nodes
        markers := .paren :: state.markers } := by
  rw [withGroup, reduceWhile_withFactors, reduceWhile_withBranches]
  rfl

/-- The last branch of the group on top is finished. -/
theorem alternation_withGroup :
    (state.withGroup group).alternation = state.withGroup group.split := by
  rw [alternation, reduceWhile_withGroup]
  cases isSplit : group.branches ++ [group.factors.reverse] with
  | nil => exact absurd isSplit (List.append_ne_nil_of_right_ne_nil _ (List.cons_ne_nil _ _))
  | cons first others =>
      simp only [withGroup, Group.split, Group.close, isSplit, withBranches, withFactors, bounded]

theorem endGroup_withGroup :
    (state.withGroup group).endGroup = { state with nodes := group.close :: state.nodes } := by
  rw [endGroup, reduceWhile_withGroup]
  rfl

/-- The last factor of the group on top is repeated, if its last branch has one. -/
theorem repeatLast_withGroup (position : Nat) (repetition : Regex → Regex) :
    (state.withGroup group).repeatLast position repetition =
      match group.factors with
      | [] => .error ⟨.nothingToRepeat, position⟩
      | last :: earlier =>
          .ok (state.withGroup { group with factors := repetition last :: earlier }) := by
  obtain ⟨branches, factors⟩ := group
  cases factors with
  | nil => exact if_neg (head?_withBranches branches)
  | cons last earlier => rfl

theorem openGroups_withGroup : (state.withGroup group).openGroups = state.openGroups := by
  obtain ⟨branches, factors⟩ := group
  cases branches <;> cases factors <;> rfl

theorem endGroup_openGroups (openGroups : List Nat) :
    endGroup { state with openGroups } = { state.endGroup with openGroups } := rfl

/-! ## Groups inside of groups -/

theorem openGroups_holding : (holding group outer).openGroups = outer.map Prod.fst := by
  induction outer generalizing group with
  | nil => exact openGroups_withGroup
  | cons entry outer ih => exact openGroups_withGroup.trans (congrArg (entry.1 :: ·) ih)

theorem append_holding (factor : Regex) :
    (holding group outer).append factor = holding (group.add factor) outer := by
  cases outer <;> exact append_withGroup factor

theorem alternation_holding : (holding group outer).alternation = holding group.split outer := by
  cases outer <;> exact alternation_withGroup

theorem repeatLast_holding (position : Nat) (repetition : Regex → Regex) :
    (holding group outer).repeatLast position repetition =
      match group.factors with
      | [] => .error ⟨.nothingToRepeat, position⟩
      | last :: earlier =>
          .ok (holding { group with factors := repetition last :: earlier } outer) := by
  cases outer <;> exact repeatLast_withGroup position repetition

theorem read_open (position : Nat) :
    (holding group outer).read position '(' = .ok (holding .empty ((position, group) :: outer)) :=
  rfl

/-- A group that is closed is a factor of the one around it. -/
theorem read_close (position : Nat) :
    (holding group outer).read position ')' =
      match outer with
      | [] => .error ⟨.unmatchedParen, position⟩
      | (_, around) :: outer => .ok (holding (around.add group.close) outer) := by
  rw [read, openGroups_holding]
  cases outer with
  | nil => rfl
  | cons entry outer =>
      have openAround : outer.map Prod.fst = (holding entry.2 outer).concat.openGroups :=
        openGroups_holding.symm
      simp only [List.map_cons, endGroup_openGroups, holding, endGroup_withGroup, openAround,
        ← append_holding]
      rfl

/-- The whole pattern is joined in the end, unless a group is still open. -/
theorem finish_holding :
    (holding group outer).finish =
      match outer with
      | [] => .ok group.close
      | (opened, _) :: _ => .error ⟨.unclosedGroup, opened⟩ := by
  rw [finish, openGroups_holding]
  cases outer with
  | nil =>
    show Except.ok (popNode (withGroup _ _).endGroup.nodes).1 = _
    rw [endGroup_withGroup]
    rfl
  | cons entry outer => rfl

end Stacks

end ParserGenerator.Regex
