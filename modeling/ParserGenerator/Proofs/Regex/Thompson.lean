import ParserGenerator.Proofs.Nfa.Embedding
import ParserGenerator.Proofs.Regex.Language
import ParserGenerator.Regex.Thompson

/-!
# The automaton of a regular expression accepts its language

Each construction embeds automata between states of the whole. By the embedding law it amounts to a
few jumps over the languages of its parts, and what these jumps accept is read off: a row of jumps
is a product, jumps side by side are a sum, and a jump with a way back is a repetition.

Nothing enters the initial state of an automaton that is built in this way and nothing leaves its
final state, which is why it can be embedded again.

Results: `Regex.embeddable_toNfa` and `Regex.toNfa_invariant`, `Regex.language_toNfa` and
`Regex.accepts?_toNfa`.
-/

open scoped Computability

namespace ParserGenerator

namespace Nfa

variable {host : Nfa} {start : Nat}

/-- Each automaton of the list can be embedded. -/
def AllEmbeddable (items : List Nfa) : Prop := ∀ item ∈ items, item.Embeddable

/-! ## Characters -/

/-- The texts of one character of a list. -/
def oneOf (chars : List Char) : Language Char := (chars.map fun c => ({[c]} : Language Char)).sum

theorem mem_oneOf {chars : List Char} {text : List Char} :
    text ∈ oneOf chars ↔ ∃ c ∈ chars, text = [c] := by
  simp only [oneOf, Regex.mem_sum, List.mem_map, exists_exists_and_eq_and]
  rfl

theorem oneOf_cons (c : Char) (rest : List Char) : oneOf (c :: rest) = {[c]} + oneOf rest :=
  List.sum_cons

theorem foldl_addEdge_char (chars : List Char) {nfa : Nfa} (embeddable : nfa.Embeddable) :
    (chars.foldl (fun nfa c => nfa.addEdge initial (.char c) final) nfa).Embeddable ∧
      (chars.foldl (fun nfa c => nfa.addEdge initial (.char c) final) nfa).steps =
        nfa.steps ⊔ jump initial (oneOf chars) final := by
  induction chars generalizing nfa with
  | nil =>
      refine ⟨embeddable, ?_⟩
      rw [oneOf, List.map_nil, List.sum_nil, jump_zero, sup_bot_eq]
      rfl
  | cons c rest ih =>
      obtain ⟨embeddable', steps⟩ := ih (embeddable.addEdge (.char c) embeddable.initial_lt
        embeddable.final_lt (by decide) (by decide))
      refine ⟨embeddable', ?_⟩
      rw [List.foldl_cons, steps, steps_addEdge embeddable.initial_lt, oneOf_cons, ← jump_add,
        sup_assoc]
      rfl

theorem Embeddable.ofCharSet (set : CharSet) : (ofCharSet set).Embeddable :=
  (foldl_addEdge_char set.toList .empty).1

/-- An automaton whose edges amount to one jump accepts the language of the jump. -/
theorem language_eq_of_route {nfa : Nfa} {language : Language Char}
    (same : ∀ text, Route nfa.steps initial text final ↔
      Route (jump initial language final) initial text final) : nfa.language = language := by
  ext text
  rw [mem_language, ← route_steps_iff, same, route_jump_iff language (by decide)]

theorem language_ofCharSet (set : CharSet) :
    (ofCharSet set).language = oneOf set.toList := by
  refine language_eq_of_route fun text => ?_
  rw [Nfa.ofCharSet, (foldl_addEdge_char set.toList .empty).2, steps_empty, bot_sup_eq]

/-! ## Concatenations -/

theorem chain_nil (host : Nfa) (start : Nat) :
    host.chain start [] = host.addEdge start .epsilon final := rfl

theorem chain_cons (host : Nfa) (start : Nat) (item next : Nfa) (rest : List Nfa) :
    host.chain start (item :: next :: rest) =
      (host.addState.2.embed item start host.size).chain host.size (next :: rest) := rfl

theorem Embeddable.chain (embeddable : host.Embeddable) (bound : start < host.size)
    (notFinal : start ≠ final) {items : List Nfa} (each : AllEmbeddable items) :
    (host.chain start items).Embeddable := by
  induction items generalizing host start with
  | nil => exact embeddable.addEdge .epsilon bound embeddable.final_lt notFinal (by decide)
  | cons item rest ih =>
      obtain ⟨inner, later⟩ := List.forall_mem_cons.1 each
      cases rest with
      | nil => exact embeddable.embed inner bound embeddable.final_lt notFinal (by decide)
      | cons next rest =>
          have startBound : start < host.addState.2.size := by simp; omega
          have middleBound : host.size < host.addState.2.size := by simp
          rw [chain_cons]
          refine ih (embeddable.addState.embed inner startBound middleBound notFinal
            (Nat.ne_of_gt embeddable.initial_lt)) ?_ (Nat.ne_of_gt embeddable.final_lt) later
          rw [size_embed startBound middleBound]
          exact Nat.lt_add_right _ middleBound

/-- A chain is a jump over the product of the languages. -/
theorem route_chain (closed : host.Closed) (finalBound : final < host.size)
    (bound : start < host.size) {items : List Nfa} (each : AllEmbeddable items) {others : Steps}
    (within : others.Within host.size) {first last : Nat} (low : first < host.size)
    (high : last < host.size) {word : List Char} :
    Route ((host.chain start items).steps ⊔ others) first word last ↔
      Route (host.steps ⊔ jump start (items.map language).prod final ⊔ others) first word last := by
  induction items generalizing host start others with
  | nil =>
      rw [chain_nil, steps_addEdge bound]
      rfl
  | cons item rest ih =>
      obtain ⟨inner, later⟩ := List.forall_mem_cons.1 each
      cases rest with
      | nil =>
          rw [List.map_cons, List.map_nil, List.prod_singleton]
          exact inner.route_embed closed within bound finalBound low high
      | cons next rest =>
          have size := size_addState host
          have startBound : start < host.addState.2.size := by omega
          have middleBound : host.size < host.addState.2.size := by omega
          have size' : (host.addState.2.embed item start host.size).size = _ :=
            size_embed startBound middleBound
          have rests : (jump host.size ((next :: rest).map language).prod final ⊔ others).Within
              host.addState.2.size :=
            (within_jump _ middleBound (by omega)).sup (within.mono (by omega))
          rw [chain_cons, ih (closed.addState.embed inner.closed startBound middleBound) (by omega)
              (by omega) later (within.mono (by omega)) (by omega) (by omega), sup_assoc,
            inner.route_embed closed.addState rests startBound middleBound (by omega) (by omega),
            steps_addState]
          have regroup : host.steps ⊔ jump start item.language host.size ⊔
              (jump host.size ((next :: rest).map language).prod final ⊔ others) =
                host.steps ⊔ others ⊔ (jump start item.language host.size ⊔
                  jump host.size ((next :: rest).map language).prod final) := by
            ac_rfl
          rw [regroup, route_through (closed.within_steps.sup within) bound finalBound _ _ low high,
            sup_right_comm, List.map_cons (a := item), List.prod_cons]

theorem Embeddable.concat {items : List Nfa} (each : AllEmbeddable items) :
    (concat items).Embeddable := Embeddable.empty.chain (by decide) (by decide) each

theorem language_concat {items : List Nfa} (each : AllEmbeddable items) :
    (concat items).language = (items.map language).prod := by
  refine language_eq_of_route fun text => ?_
  have route : Route ((concat items).steps ⊔ ⊥) initial text final ↔ _ :=
    route_chain closed_empty (by decide) (by decide) each within_bot (by decide) (by decide)
  rwa [steps_empty, sup_bot_eq, sup_bot_eq, bot_sup_eq] at route

/-! ## Alternations -/

theorem spread_cons (host branch : Nfa) (rest : List Nfa) :
    host.spread (branch :: rest) =
      ((host.addState.2.addEdge initial .epsilon host.size).embed branch host.size final).spread
        rest := rfl

theorem Embeddable.spread (embeddable : host.Embeddable) {branches : List Nfa}
    (each : AllEmbeddable branches) : (host.spread branches).Embeddable := by
  induction branches generalizing host with
  | nil => exact embeddable
  | cons branch rest ih =>
      obtain ⟨inner, later⟩ := List.forall_mem_cons.1 each
      have grown := embeddable.addState
      have startBound : host.size < host.addState.2.size := by simp
      have linked := grown.addEdge .epsilon grown.initial_lt startBound (by decide)
        (Nat.ne_of_gt embeddable.initial_lt)
      rw [spread_cons]
      refine ih (linked.embed inner ?_ linked.final_lt (Nat.ne_of_gt embeddable.final_lt)
        (by decide)) later
      rw [size_addEdge]
      exact startBound

/-- Branches side by side are a jump over the sum of the languages. -/
theorem route_spread (closed : host.Closed) (finalBound : final < host.size) {branches : List Nfa}
    (each : AllEmbeddable branches) {others : Steps} (within : others.Within host.size)
    {first last : Nat} (low : first < host.size) (high : last < host.size) {word : List Char} :
    Route ((host.spread branches).steps ⊔ others) first word last ↔
      Route (host.steps ⊔ jump initial (branches.map language).sum final ⊔ others)
        first word last := by
  induction branches generalizing host others with
  | nil =>
      rw [List.map_nil, List.sum_nil, jump_zero, sup_bot_eq]
      rfl
  | cons branch rest ih =>
      obtain ⟨inner, later⟩ := List.forall_mem_cons.1 each
      have initialBound : initial < host.size := Nat.lt_trans (by decide) finalBound
      have size := size_addState host
      have size' := size_addEdge host.addState.2 initial .epsilon host.size
      have linked : (host.addState.2.addEdge initial .epsilon host.size).Closed :=
        closed.addState.addEdge .epsilon (by omega) (by omega)
      have size'' : ((host.addState.2.addEdge initial .epsilon host.size).embed branch host.size
          final).size = _ := size_embed (by omega) (by omega)
      have rests : (jump initial (rest.map language).sum final ⊔ others).Within host.size :=
        (within_jump _ initialBound finalBound).sup within
      rw [spread_cons, ih (linked.embed inner.closed (by omega) (by omega)) (by omega) later
          (within.mono (by omega)) (by omega) (by omega), sup_assoc,
        inner.route_embed linked (rests.mono (by omega)) (by omega) (by omega) (by omega)
          (by omega), steps_addEdge (by omega), steps_addState, List.map_cons, List.sum_cons]
      have regroup : host.steps ⊔ jump initial {Label.word .epsilon} host.size ⊔
          jump host.size branch.language final ⊔ (jump initial (rest.map language).sum final ⊔
            others) = host.steps ⊔ (jump initial (rest.map language).sum final ⊔ others) ⊔
              (jump initial {Label.word .epsilon} host.size ⊔
                jump host.size branch.language final) := by
        ac_rfl
      rw [regroup, route_through (closed.within_steps.sup rests) initialBound finalBound _ _ low
        high, ← jump_add]
      have silent : ({Label.word .epsilon} : Language Char) * branch.language = branch.language :=
        one_mul _
      rw [silent]
      have regroup' : host.steps ⊔ (jump initial (rest.map language).sum final ⊔ others) ⊔
          jump initial branch.language final = host.steps ⊔ (jump initial branch.language final ⊔
            jump initial (rest.map language).sum final) ⊔ others := by
        ac_rfl
      rw [regroup']

theorem Embeddable.alt {branches : List Nfa} (each : AllEmbeddable branches) :
    (alt branches).Embeddable := Embeddable.empty.spread each

theorem language_alt {branches : List Nfa} (each : AllEmbeddable branches) :
    (alt branches).language = (branches.map language).sum := by
  refine language_eq_of_route fun text => ?_
  have route : Route ((alt branches).steps ⊔ ⊥) initial text final ↔ _ :=
    route_spread closed_empty (by decide) each within_bot (by decide) (by decide)
  rwa [steps_empty, sup_bot_eq, sup_bot_eq, bot_sup_eq] at route

/-! ## Options and repetitions -/

theorem Embeddable.skip (embeddable : host.Embeddable) :
    (host.addEdge initial .epsilon final).Embeddable :=
  embeddable.addEdge .epsilon embeddable.initial_lt embeddable.final_lt (by decide) (by decide)

/-- A silent edge from the initial to the final state adds the empty text and nothing else. -/
theorem language_skip (embeddable : host.Embeddable) :
    (host.addEdge initial .epsilon final).language = host.language + 1 := by
  ext text
  rw [Language.mem_add, Language.mem_one, mem_language, mem_language, ← route_steps_iff,
    ← route_steps_iff, steps_addEdge embeddable.initial_lt]
  constructor
  · intro route
    -- The new edge leaves the initial state only, which is not entered again.
    have old {first last : Nat} {word : List Char} (differs : first ≠ initial)
        (route : Route (host.steps ⊔ jump initial {Label.word .epsilon} final) first word last) :
        Route host.steps first word last := by
      induction route with
      | here => exact .here _
      | step once _ ih =>
          rcases once with inside | ⟨isInitial, _⟩
          · exact .step inside (ih (embeddable.target_ne_initial inside))
          · exact absurd isInitial differs
    cases route with
    | step once later =>
        rcases once with inside | ⟨_, rfl, rfl⟩
        · exact .inl (.step inside (old (embeddable.target_ne_initial inside) later))
        · refine .inr ?_
          cases old (by decide) later with
          | here => rfl
          | step again _ => exact absurd rfl (embeddable.source_ne_final again)
  · rintro (route | rfl)
    · exact route.bind fun _ _ _ once => .of_step (.inl once)
    · exact .of_step (.inr ⟨rfl, rfl, rfl⟩)

variable {inner : Nfa}

theorem Embeddable.wrap (embeddable : inner.Embeddable) :
    (Nfa.empty.embed inner initial final).Embeddable :=
  Embeddable.empty.embed embeddable (by decide) (by decide) (by decide) (by decide)

theorem Embeddable.optional (embeddable : inner.Embeddable) : inner.optional.Embeddable :=
  embeddable.wrap.skip

theorem language_optional (embeddable : inner.Embeddable) :
    inner.optional.language = inner.language + 1 := by
  rw [Nfa.optional, language_skip embeddable.wrap]
  congr 1
  refine language_eq_of_route fun text => ?_
  have route : Route ((empty.embed inner initial final).steps ⊔ ⊥) initial text final ↔ _ :=
    embeddable.route_embed closed_empty within_bot (by decide) (by decide) (by decide) (by decide)
  rwa [steps_empty, sup_bot_eq, sup_bot_eq, bot_sup_eq] at route

/-- Where a repetition is put: between the states 2 and 3, with a silent edge to the first. -/
def entrance : Nfa := empty.addState.2.addState.2.addEdge initial .epsilon 2

theorem plus_eq (inner : Nfa) : inner.plus =
    ((entrance.embed inner 2 3).addEdge 3 .epsilon 2).addEdge 3 .epsilon final := rfl

theorem Embeddable.entrance : entrance.Embeddable :=
  Embeddable.empty.addState.addState.addEdge .epsilon (by decide) (by decide) (by decide)
    (by decide)

theorem steps_entrance : entrance.steps = jump initial 1 2 := by
  rw [entrance, steps_addEdge (by decide), steps_addState, steps_addState, steps_empty, bot_sup_eq]
  rfl

theorem lt_size_entrance_embed (inner : Nfa) {state : Nat} (bound : state < 4) :
    state < (entrance.embed inner 2 3).size := by
  rw [size_embed (by decide) (by decide)]
  exact Nat.lt_add_right _ bound

theorem Embeddable.plus (embeddable : inner.Embeddable) : inner.plus.Embeddable := by
  have between : (Nfa.entrance.embed inner 2 3).Embeddable :=
    Embeddable.entrance.embed embeddable (by decide) (by decide) (by decide) (by decide)
  have back : ((Nfa.entrance.embed inner 2 3).addEdge 3 .epsilon 2).Embeddable :=
    between.addEdge .epsilon (lt_size_entrance_embed inner (by decide))
      (lt_size_entrance_embed inner (by decide)) (by decide) (by decide)
  have exitBound : 3 < ((Nfa.entrance.embed inner 2 3).addEdge 3 .epsilon 2).size := by
    rw [size_addEdge]
    exact lt_size_entrance_embed inner (by decide)
  rw [plus_eq]
  exact back.addEdge .epsilon exitBound back.final_lt (by decide) (by decide)

/-- The jumps of a repetition: in, across, back and out. -/
def loop (language : Language Char) : Steps :=
  jump initial 1 2 ⊔ jump 2 language 3 ⊔ (jump 3 1 2 ⊔ jump 3 1 final)

theorem steps_plus (inner : Nfa) :
    inner.plus.steps = (entrance.embed inner 2 3).steps ⊔ (jump 3 1 2 ⊔ jump 3 1 final) := by
  rw [plus_eq, steps_addEdge, steps_addEdge (lt_size_entrance_embed inner (by decide)), sup_assoc]
  · rfl
  · rw [size_addEdge]
    exact lt_size_entrance_embed inner (by decide)

/-- What the jumps of a repetition read from each of its states on. -/
theorem mem_of_route_loop {language : Language Char} {first last : Nat} {word : List Char}
    (route : Route (loop language) first word last) (isFinal : last = final) :
    (first = initial → word ∈ language * language∗) ∧ (first = 2 → word ∈ language * language∗) ∧
      (first = 3 → word ∈ language∗) ∧ (first = final → word = []) := by
  induction route with
  | here => subst isFinal; exact ⟨nofun, nofun, nofun, fun _ => rfl⟩
  | step once _ ih =>
      obtain ⟨_, across, behind, out⟩ := ih isFinal
      rcases once with (⟨rfl, rfl, rfl⟩ | ⟨rfl, member, rfl⟩) | ⟨rfl, rfl, rfl⟩ | ⟨rfl, rfl, rfl⟩
      · exact ⟨fun _ => across rfl, nofun, nofun, nofun⟩
      · exact ⟨nofun, fun _ => Language.append_mem_mul member (behind rfl), nofun, nofun⟩
      · refine ⟨nofun, nofun, fun _ => ?_, nofun⟩
        rw [← Language.one_add_self_mul_kstar_eq_kstar]
        exact .inr (across rfl)
      · refine ⟨nofun, nofun, fun _ => ?_, nofun⟩
        rw [out rfl]
        exact Language.nil_mem_kstar language

theorem route_loop_of_mem {language : Language Char} {word : List Char}
    (member : word ∈ language * language∗) : Route (loop language) initial word final := by
  obtain ⟨first, inLanguage, rest, inStar, rfl⟩ := Language.mem_mul.1 member
  obtain ⟨parts, rfl, each⟩ := Language.mem_kstar.1 inStar
  have into : Route (loop language) initial [] 2 := .of_step (.inl (.inl ⟨rfl, rfl, rfl⟩))
  have across {part : List Char} (member : part ∈ language) : Route (loop language) 2 part 3 :=
    .of_step (.inl (.inr ⟨rfl, member, rfl⟩))
  have back : Route (loop language) 3 [] 2 := .of_step (.inr (.inl ⟨rfl, rfl, rfl⟩))
  have out : Route (loop language) 3 [] final := .of_step (.inr (.inr ⟨rfl, rfl, rfl⟩))
  have again : Route (loop language) 3 parts.flatten final := by
    clear inStar member
    induction parts with
    | nil => exact out
    | cons part parts ih =>
        obtain ⟨once, later⟩ := List.forall_mem_cons.1 each
        exact back.append ((across once).append (ih later))
  exact into.append ((across inLanguage).append again)

theorem language_plus (embeddable : inner.Embeddable) :
    inner.plus.language = inner.language * inner.language∗ := by
  have others : (jump 3 1 2 ⊔ jump 3 1 final).Within entrance.size :=
    (within_jump 1 (by decide) (by decide)).sup (within_jump 1 (by decide) (by decide))
  ext text
  rw [mem_language, ← route_steps_iff, steps_plus, embeddable.route_embed Embeddable.entrance.closed
    others (by decide) (by decide) (by decide) (by decide), steps_entrance]
  exact ⟨fun route => (mem_of_route_loop route rfl).1 rfl, route_loop_of_mem⟩

theorem Embeddable.star (embeddable : inner.Embeddable) : inner.star.Embeddable :=
  embeddable.plus.skip

theorem language_star (embeddable : inner.Embeddable) :
    inner.star.language = inner.language∗ := by
  rw [Nfa.star, language_skip embeddable.plus, language_plus embeddable, add_comm,
    Language.one_add_self_mul_kstar_eq_kstar]

/-! ## No edge is there twice

The automata that are embedded need not be without repeated edges for this. -/

namespace Simple

theorem ofCharSet (set : CharSet) : (ofCharSet set).Simple :=
  List.foldlRecOn (motive := Simple) _ _ Simple.empty fun _ kept c _ =>
    kept.addEdge initial (.char c) final

theorem chain (simple : host.Simple) (start : Nat) (items : List Nfa) :
    (host.chain start items).Simple := by
  induction items generalizing host start with
  | nil => exact simple.addEdge start .epsilon final
  | cons item rest ih =>
      cases rest with
      | nil => exact simple.embed item start final
      | cons next rest =>
          rw [chain_cons]
          exact ih (simple.addState.embed item start host.size) host.size

theorem spread (simple : host.Simple) (branches : List Nfa) : (host.spread branches).Simple := by
  induction branches generalizing host with
  | nil => exact simple
  | cons branch rest ih =>
      have linked := simple.addState.addEdge initial .epsilon host.size
      rw [spread_cons]
      exact ih (linked.embed branch host.size final)

theorem optional (inner : Nfa) : inner.optional.Simple :=
  (Simple.empty.embed inner initial final).addEdge initial .epsilon final

theorem plus (inner : Nfa) : inner.plus.Simple := by
  have between := (Simple.empty.addState.addState.addEdge initial .epsilon 2).embed inner 2 3
  exact (between.addEdge 3 .epsilon 2).addEdge 3 .epsilon final

theorem star (inner : Nfa) : inner.star.Simple := (plus inner).addEdge initial .epsilon final

end Simple

end Nfa

/-! ## Regular expressions -/

namespace Regex

mutual

theorem embeddable_toNfa : (regex : Regex) → regex.toNfa.Embeddable
  | .leaf set => .ofCharSet set
  | .concat items => .concat (embeddable_toNfas items)
  | .alt branches => .alt (embeddable_toNfas branches)
  | .optional inner => (embeddable_toNfa inner).optional
  | .star inner => (embeddable_toNfa inner).star
  | .plus inner => (embeddable_toNfa inner).plus

theorem embeddable_toNfas : (regexes : List Regex) → Nfa.AllEmbeddable (toNfas regexes)
  | [] => nofun
  | regex :: rest =>
      List.forall_mem_cons.2 ⟨embeddable_toNfa regex, embeddable_toNfas rest⟩

end

theorem simple_toNfa : (regex : Regex) → regex.toNfa.Simple
  | .leaf set => .ofCharSet set
  | .concat items => .chain .empty Nfa.initial (toNfas items)
  | .alt branches => .spread .empty (toNfas branches)
  | .optional inner => .optional inner.toNfa
  | .star inner => .star inner.toNfa
  | .plus inner => .plus inner.toNfa

/-- However deep the forms are nested: the initial and the final state exist, nothing enters the
one or leaves the other, all edges lead to states, and no state has the same edge twice. -/
theorem toNfa_invariant (regex : Regex) :
    2 ≤ regex.toNfa.size ∧
      (∀ source, ∀ edge ∈ regex.toNfa.edges source,
        edge.target ≠ Nfa.initial ∧ edge.target < regex.toNfa.size) ∧
      regex.toNfa.edges Nfa.final = [] ∧
      ∀ source, (regex.toNfa.edges source).Nodup := by
  have built : regex.toNfa.Embeddable := embeddable_toNfa regex
  refine ⟨built.final_lt, fun source edge member => ?_, built.not_left, simple_toNfa regex⟩
  exact ⟨built.not_entered source edge member, built.closed source edge member⟩

mutual

/-- The automaton of a regular expression has its language. -/
theorem language_toNfa : (regex : Regex) → regex.toNfa.language = regex.language
  | .leaf set => by
      ext text
      rw [toNfa, Nfa.language_ofCharSet, Nfa.mem_oneOf, mem_language_leaf]
      rfl
  | .concat items => by
      rw [toNfa, Nfa.language_concat (embeddable_toNfas items), language_toNfas items,
        language_concat]
  | .alt branches => by
      rw [toNfa, Nfa.language_alt (embeddable_toNfas branches), language_toNfas branches,
        language_alt]
  | .optional inner => by
      rw [toNfa, Nfa.language_optional (embeddable_toNfa inner), language_toNfa inner,
        language_optional]
  | .star inner => by
      rw [toNfa, Nfa.language_star (embeddable_toNfa inner), language_toNfa inner, language_star]
  | .plus inner => by
      rw [toNfa, Nfa.language_plus (embeddable_toNfa inner), language_toNfa inner, language_plus]

theorem language_toNfas : (regexes : List Regex) →
    (toNfas regexes).map Nfa.language = regexes.map language
  | [] => rfl
  | regex :: rest => by
      rw [toNfas, List.map_cons, List.map_cons, language_toNfa regex, language_toNfas rest]

end

theorem accepts_toNfa (regex : Regex) (text : List Char) :
    regex.toNfa.accepts text = true ↔ regex.Matches text := by
  rw [Nfa.accepts_iff, ← Nfa.mem_language, language_toNfa, mem_language]

/-- The automaton of a regular expression meets no missing state on any text, and it accepts the
texts that match. -/
theorem accepts?_toNfa (regex : Regex) (text : List Char) :
    ∃ answer, regex.toNfa.accepts? text = some answer ∧
      (answer = true ↔ regex.Matches text) := by
  have built : regex.toNfa.Embeddable := embeddable_toNfa regex
  exact ⟨regex.toNfa.accepts text, Nfa.accepts?_of_closed built.closed built.initial_lt text,
    regex.accepts_toNfa text⟩

end Regex

end ParserGenerator
