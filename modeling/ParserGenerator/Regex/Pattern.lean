import ParserGenerator.Regex

/-!
# Patterns

A pattern is the text of a regular expression. It is read once from left to right with two stacks:
the nodes are finished parts of the expression, and the markers say how they are to be joined.
Nodes are joined as late as possible. The last factor of a branch stays apart from the factors in
front of it, so that a repetition behind it can still be put around it, and a choice takes a branch
in when the next bar or the end of the group is met. The first offence in the text is the one that
is reported.
-/

namespace ParserGenerator.Regex

/-- What is wrong with a pattern. -/
inductive Offence where
  | danglingEscape
  | unterminatedClass
  | unmatchedBracket
  | emptyClass
  | unmatchedParen
  | unclosedGroup
  | nothingToRepeat
deriving DecidableEq, Repr

/-- An offence with the offset of the byte in the pattern where it lies. -/
structure PatternError where
  offence : Offence
  position : Nat
deriving DecidableEq, Repr

def Offence.message : Offence → String
  | danglingEscape => "escape at the end of the pattern"
  | unterminatedClass => "unterminated character class"
  | unmatchedBracket => "unmatched `]'"
  | emptyClass => "empty character class"
  | unmatchedParen => "unmatched `)'"
  | unclosedGroup => "unclosed `('"
  | nothingToRepeat => "nothing to repeat"

def PatternError.message (error : PatternError) : String :=
  error.offence.message ++ " at offset " ++ toString error.position

/-! ## Nodes and markers -/

/-- How a node is to be joined with the one below it. -/
inductive Marker where
  /-- The node is appended to the row of factors below it. -/
  | string
  /-- The node is a branch of a choice, behind those below it. -/
  | alternation
  /-- A group begins with the node: it is not joined before the group is closed. -/
  | paren
deriving DecidableEq, Repr

/-- Takes the top node off. Where no node is left, a row of no factors stands for it. -/
def popNode : List Regex → Regex × List Regex
  | [] => (.concat [], [])
  | node :: nodes => (node, nodes)

/-- Joins a node with the one on its left, which may be a choice or a row already. -/
def join : Marker → (left right : Regex) → Regex
  | .alternation, .alt branches, right => .alt (branches ++ [right])
  | .alternation, left, right => .alt [left, right]
  | _, .concat items, right => .concat (items ++ [right])
  | _, left, right => .concat [left, right]

/-- Joins the two top nodes. -/
def reduce (marker : Marker) (nodes : List Regex) : List Regex :=
  let (right, nodes) := popNode nodes
  let (left, nodes) := popNode nodes
  join marker left right :: nodes

/-- Joins the top nodes as the markers say, as long as these are of some kind. -/
def reduceWhile (kind : Marker → Bool) : List Marker → List Regex → List Marker × List Regex
  | [], nodes => ([], nodes)
  | marker :: markers, nodes =>
      if kind marker then reduceWhile kind markers (reduce marker nodes)
      else (marker :: markers, nodes)

/-- What was read of a pattern, with the offsets of the parentheses that are open. Each stack has
its top in front. -/
structure Stacks where
  nodes : List Regex
  markers : List Marker
  openGroups : List Nat

namespace Stacks

def empty : Stacks := ⟨[], [], []⟩

def reduceWhile (kind : Marker → Bool) (state : Stacks) : Stacks :=
  let (markers, nodes) := Regex.reduceWhile kind state.markers state.nodes
  { state with markers, nodes }

/-- Begins a group with an empty branch. -/
def beginGroup (state : Stacks) : Stacks :=
  { state with nodes := .concat [] :: state.nodes, markers := .paren :: state.markers }

/-- Joins all that was read since the latest group began, and ends the group. -/
def endGroup (state : Stacks) : Stacks :=
  let state := state.reduceWhile (· ≠ .paren)
  { state with markers := state.markers.tail }

/-- Joins the last factor with those in front of it, so that another node can be appended. -/
def concat (state : Stacks) : Stacks :=
  let state := state.reduceWhile (· = .string)
  { state with markers := .string :: state.markers }

/-- Appends a factor to the last branch. -/
def append (state : Stacks) (factor : Regex) : Stacks :=
  let state := state.concat
  { state with nodes := factor :: state.nodes }

/-- Finishes the last branch and begins another one. -/
def alternation (state : Stacks) : Stacks :=
  let state := state.reduceWhile (· ≠ .paren)
  { state with nodes := .concat [] :: state.nodes, markers := .alternation :: state.markers }

/-- Repeats the last factor, if there is one in the branch. -/
def repeatLast (state : Stacks) (position : Nat) (repetition : Regex → Regex) :
    Except PatternError Stacks :=
  if state.markers.head? = some .string then
    let (node, nodes) := popNode state.nodes
    .ok { state with nodes := repetition node :: nodes }
  else .error ⟨.nothingToRepeat, position⟩

end Stacks

/-! ## Characters -/

/-- What a backslash and a character stand for. -/
def escapedSet : Char → CharSet
  | 'w' => CharSet.word
  | 'l' => CharSet.letter
  | 'd' => CharSet.digit
  | 's' => CharSet.space
  | 'n' => OrderedSet.singleton '\n'
  | 't' => OrderedSet.singleton '\t'
  | c => OrderedSet.singleton c

/-- Reads the rest of a class whose bracket is at byte `opened`, and gives its characters and the
text behind it with the offset of that. A caret negates the class if it comes `first`; an empty
class is an offence, also a negated one. -/
def readClass (opened : Nat) (negated first : Bool) (members : CharSet) (position : Nat) :
    List Char → Except PatternError (CharSet × Nat × List Char)
  | [] => .error ⟨.unterminatedClass, opened⟩
  | c :: rest =>
      if c = '^' ∧ first then readClass opened true false members (position + 1) rest
      else if c = ']' then
        if members.isEmpty then .error ⟨.emptyClass, opened⟩
        else .ok (if negated then members.complement else members, position + 1, rest)
      else if c = '\\' then
        match rest with
        | [] => .error ⟨.danglingEscape, position⟩
        | e :: rest =>
            readClass opened negated false (members ∪ escapedSet e) (position + 1 + e.utf8Size) rest
      else readClass opened negated false (members.insert c) (position + c.utf8Size) rest

/-- Reads a character outside of classes that no other character belongs to. -/
def Stacks.read (state : Stacks) (position : Nat) : Char → Except PatternError Stacks
  | '(' =>
      let state := state.concat.beginGroup
      .ok { state with openGroups := position :: state.openGroups }
  | ')' =>
      match state.openGroups with
      | [] => .error ⟨.unmatchedParen, position⟩
      | _ :: openGroups => .ok (endGroup { state with openGroups })
  | '|' => .ok state.alternation
  | '*' => state.repeatLast position .star
  | '+' => state.repeatLast position .plus
  | '?' => state.repeatLast position .optional
  | '.' => .ok (state.append (.leaf CharSet.all))
  | ']' => .error ⟨.unmatchedBracket, position⟩
  | c => .ok (state.append (.leaf (OrderedSet.singleton c)))

/-- What was read in the end, if no parenthesis is left open. -/
def Stacks.finish (state : Stacks) : Except PatternError Regex :=
  match state.openGroups with
  | [] => .ok (popNode state.endGroup.nodes).1
  | position :: _ => .error ⟨.unclosedGroup, position⟩

/-- A class takes at least the bracket that closes it. -/
theorem length_lt_of_readClass {opened position past : Nat} {negated first : Bool}
    {members set : CharSet} {text rest : List Char}
    (read : readClass opened negated first members position text = .ok (set, past, rest)) :
    rest.length < text.length := by
  fun_induction readClass opened negated first members position text with
  | case1 | case3 | case5 => cases read
  | case2 _ _ _ _ _ _ _ ih => exact Nat.lt_succ_of_lt (ih read)
  | case4 =>
      cases read
      exact Nat.lt_succ_self _
  | case6 _ _ _ _ _ _ _ _ ih => exact Nat.lt_succ_of_lt (Nat.lt_succ_of_lt (ih read))
  | case7 _ _ _ _ _ _ _ _ _ ih => exact Nat.lt_succ_of_lt (ih read)

/-- Reads a text that starts at byte `position` of the pattern. -/
def readText (state : Stacks) (position : Nat) (text : List Char) : Except PatternError Regex :=
  match text with
  | [] => state.finish
  | c :: rest =>
      if c = '\\' then
        match rest with
        | [] => .error ⟨.danglingEscape, position⟩
        | e :: rest =>
            readText (state.append (.leaf (escapedSet e))) (position + 1 + e.utf8Size) rest
      else if c = '[' then
        match isClass : readClass position false true ∅ (position + 1) rest with
        | .error error => .error error
        | .ok (set, past, behind) =>
            have := length_lt_of_readClass isClass
            readText (state.append (.leaf set)) past behind
      else
        match state.read position c with
        | .error error => .error error
        | .ok state => readText state (position + c.utf8Size) rest
termination_by text.length
decreasing_by
  · exact Nat.lt_succ_of_lt (Nat.lt_succ_self _)
  · exact Nat.lt_succ_of_lt this
  · exact Nat.lt_succ_self _

/-- Reads a pattern. -/
def parse (pattern : String) : Except PatternError Regex :=
  readText Stacks.empty.beginGroup 0 pattern.toList

end ParserGenerator.Regex
