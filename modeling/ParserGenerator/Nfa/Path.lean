import ParserGenerator.Nfa

/-!
# Paths of nondeterministic automata

A path leads from state to state along edges, and the characters on its edges in order are the
text that it reads. Silent edges add nothing to the text, so that a path that reads the empty text
uses silent edges alone.

Results: `Nfa.Path.append`, that paths are put together, and `Nfa.Path.split`, that a path
is cut where its text is cut.
-/

namespace ParserGenerator.Nfa

/-- A path from a state to a state, and the text that it reads. -/
inductive Path (nfa : Nfa) : Nat → List Char → Nat → Prop where
  | here (state : Nat) : Path nfa state [] state
  | silent {first second last : Nat} {text : List Char}
      (edge : ⟨.epsilon, second⟩ ∈ nfa.edges first) (later : Path nfa second text last) :
      Path nfa first text last
  | read {first second last : Nat} {c : Char} {text : List Char}
      (edge : ⟨.char c, second⟩ ∈ nfa.edges first) (later : Path nfa second text last) :
      Path nfa first (c :: text) last

namespace Path

variable {nfa : Nfa}

theorem append {first middle last : Nat} {front back : List Char}
    (early : nfa.Path first front middle) (late : nfa.Path middle back last) :
    nfa.Path first (front ++ back) last := by
  induction early with
  | here => exact late
  | silent edge _ ih => exact .silent edge (ih late)
  | read edge _ ih => exact .read edge (ih late)

theorem split {first last : Nat} {front back : List Char}
    (path : nfa.Path first (front ++ back) last) :
    ∃ middle, nfa.Path first front middle ∧ nfa.Path middle back last := by
  generalize whole : front ++ back = text at path
  induction path generalizing front with
  | here state =>
      obtain ⟨rfl, rfl⟩ := List.append_eq_nil_iff.1 whole
      exact ⟨state, .here state, .here state⟩
  | silent edge _ ih =>
      obtain ⟨middle, early, late⟩ := ih whole
      exact ⟨middle, .silent edge early, late⟩
  | @read first second last c text edge later ih =>
      cases front with
      | nil =>
          subst whole
          exact ⟨first, .here first, .read edge later⟩
      | cons d front =>
          obtain ⟨rfl, rest⟩ := List.cons.inj whole
          obtain ⟨middle, early, late⟩ := ih rest
          exact ⟨middle, .read edge early, late⟩

end Path

end ParserGenerator.Nfa
