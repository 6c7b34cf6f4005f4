import ParserGenerator.Proofs.Build.Named
import ParserGenerator.Proofs.Grammar.Alike

/-!
# Renamed grammars

A renaming gives each symbol a new number and leaves the reserved symbols alone. Whether rules are
accepted hangs on where reserved symbols stand and on which symbols are equal, both of which a
renaming keeps.

Numbers are only compared in all that is done to a grammar, as names are when two grammars are
compared by names. A renaming is therefore seen as two symbol tables in which each symbol has the
name that its new number has in the other table, and a grammar is alike by names to the renamed one.

Results: `Renaming.exists_ofRules_iff`, `Renaming.exists_names` and `Renaming.Renewed.exists_alike`.
-/

namespace ParserGenerator

open SymbolTable (SameName)

/-! ## Definitions -/

/-- A new number for each symbol, which the reserved symbols do without. -/
structure Renaming where
  symbol : Symbol → Symbol
  injective : Function.Injective symbol
  symbol_of_isReserved : ∀ x : Symbol, x.isReserved = true → symbol x = x

namespace Renaming

/-- The rule over the new symbols. -/
def rule (fresh : Renaming) (old : Rule) : Rule :=
  { old with
    lhs := fresh.symbol old.lhs
    rhs := old.rhs.map fresh.symbol
    options_length := by rw [List.length_map, old.options_length] }

/-- The tables have the same name for a symbol and its new number alone, and such a name for each of
the given symbols. -/
structure Names (fresh : Renaming) (names known : SymbolTable) (symbols : List Symbol) :
    Prop where
  sameName : ∀ x ∈ symbols, SameName names known x (fresh.symbol x)
  eq_symbol : ∀ {x x'}, SameName names known x x' → x' = fresh.symbol x

/-- The second grammar has the rules of the first one over the new symbols. -/
structure Renewed (fresh : Renaming) (g g' : Grammar) : Prop where
  formed : g.WellFormed
  formed' : g'.WellFormed
  rules_eq : g'.rules = g.rules.map fresh.rule

variable (fresh : Renaming) {rules : List Rule} {start : Option Symbol}
  {names known : SymbolTable} {g g' : Grammar}

/-! ## Accepted rules -/

@[simp] theorem isReserved_symbol (x : Symbol) :
    (fresh.symbol x).isReserved = x.isReserved := by
  cases reserved : x.isReserved with
  | true => rw [fresh.symbol_of_isReserved x reserved, reserved]
  | false =>
      -- A symbol with a reserved number behind it would share it with the reserved symbol.
      rw [← Bool.not_eq_true]
      intro reserved'
      have same := fresh.injective (fresh.symbol_of_isReserved _ reserved')
      rw [same, reserved] at reserved'
      cases reserved'

theorem isFree_rule (rule : Rule) : (fresh.rule rule).IsFree ↔ rule.IsFree := by
  unfold Rule.IsFree Renaming.rule
  simp

theorem rule_start (x : Symbol) :
    fresh.rule (Rule.plain Symbol.start [x]) = Rule.plain Symbol.start [fresh.symbol x] := by
  have isStart := fresh.symbol_of_isReserved _ Grammar.isReserved_start
  unfold Rule.plain Rule.ofOptions Renaming.rule
  simp [isStart]

theorem getD_start (first : Rule) :
    (start.map fresh.symbol).getD (fresh.rule first).lhs =
      fresh.symbol (start.getD first.lhs) := by
  cases start <;> rfl

/-- Rules are accepted exactly when the renamed rules are. -/
theorem exists_ofRules_iff :
    (∃ g', Grammar.ofRules (rules.map fresh.rule) (start.map fresh.symbol) known = .ok g') ↔
      ∃ g, Grammar.ofRules rules start names = .ok g := by
  cases rules with
  | nil => exact ⟨fun ⟨_, accepted⟩ => (nomatch accepted), fun ⟨_, accepted⟩ => (nomatch accepted)⟩
  | cons first rest =>
      rw [List.map_cons, Grammar.exists_ofRules_iff, Grammar.exists_ofRules_iff, getD_start,
        ← List.map_cons]
      refine and_congr ?_ ?_
      · simp only [List.forall_mem_map, isFree_rule]
      · simp only [List.mem_map, exists_exists_and_eq_and]
        exact exists_congr fun rule => and_congr_right fun _ => fresh.injective.eq_iff

/-- The renamed rules make up the renamed grammar. -/
theorem renewed_of_ofRules (accepted : Grammar.ofRules rules start names = .ok g)
    (accepted' : Grammar.ofRules (rules.map fresh.rule) (start.map fresh.symbol) known =
      .ok g') : fresh.Renewed g g' := by
  refine ⟨Grammar.wellFormed_of_ofRules accepted, Grammar.wellFormed_of_ofRules accepted', ?_⟩
  have userRules := Grammar.userRules_of_ofRules accepted
  have userRules' := Grammar.userRules_of_ofRules accepted'
  cases rules with
  | nil => cases accepted
  | cons first rest =>
      have isStart := Grammar.startSymbol_eq accepted
      have isStart' := Grammar.startSymbol_eq accepted'
      rw [getD_start, ← isStart] at isStart'
      unfold Grammar.rules Grammar.extendRules
      rw [userRules, userRules', isStart', ← rule_start, ← List.map_cons]

/-! ## Names for renamed symbols -/

/-- The number below a bound that got the given number in its place. -/
def source? (bound id : Nat) : Option Nat :=
  (List.range bound).find? fun old => (fresh.symbol ⟨old⟩).id = id

/-- The number that got the given one in its place. A number that none below the bound got stands
for a number behind the bound. -/
def source (bound id : Nat) : Nat := (fresh.source? bound id).getD (bound + id)

theorem source?_eq_some_iff {bound id old : Nat} :
    fresh.source? bound id = some old ↔ old < bound ∧ fresh.symbol ⟨old⟩ = ⟨id⟩ := by
  have sound {old : Nat} (found : fresh.source? bound id = some old) :
      old < bound ∧ fresh.symbol ⟨old⟩ = ⟨id⟩ := by
    have isOld := List.find?_some found
    rw [decide_eq_true_eq] at isOld
    exact ⟨List.mem_range.1 (List.mem_of_find?_eq_some found), congrArg Symbol.mk isOld⟩
  refine ⟨sound, fun ⟨below, isOld⟩ => ?_⟩
  cases found : fresh.source? bound id with
  | none =>
      have misses := List.find?_eq_none.1 found old (List.mem_range.2 below)
      exact absurd (decide_eq_true (congrArg Symbol.id isOld)) misses
  | some other =>
      have same := fresh.injective ((sound found).2.trans isOld.symm)
      exact congrArg some (congrArg Symbol.id same)

theorem source_eq {bound id old : Nat} (below : old < bound) (isOld : fresh.symbol ⟨old⟩ = ⟨id⟩) :
    fresh.source bound id = old := by
  rw [source, fresh.source?_eq_some_iff.2 ⟨below, isOld⟩, Option.getD_some]

theorem symbol_of_source_lt {bound id : Nat} (below : fresh.source bound id < bound) :
    fresh.symbol ⟨fresh.source bound id⟩ = ⟨id⟩ := by
  unfold source at below ⊢
  cases found : fresh.source? bound id with
  | none =>
      rw [found, Option.getD_none] at below
      omega
  | some old => exact (fresh.source?_eq_some_iff.1 found).2

theorem source_of_not_lt {bound id : Nat} (behind : ¬ fresh.source bound id < bound) :
    fresh.source bound id = bound + id := by
  cases found : fresh.source? bound id with
  | none => rw [source, found, Option.getD_none]
  | some old =>
      obtain ⟨below, isOld⟩ := fresh.source?_eq_some_iff.1 found
      exact absurd (fresh.source_eq below isOld ▸ below) behind

theorem source_injective (bound : Nat) : Function.Injective (fresh.source bound) := by
  intro id id' same
  by_cases below : fresh.source bound id < bound
  · have isSource := fresh.symbol_of_source_lt below
    rw [same, fresh.symbol_of_source_lt (same ▸ below)] at isSource
    exact congrArg Symbol.id isSource.symm
  · have behind := fresh.source_of_not_lt below
    rw [same, fresh.source_of_not_lt (same ▸ below)] at behind
    exact (Nat.add_left_cancel behind).symm

end Renaming

namespace SymbolTable

theorem display_initial_of_isReserved {id : Nat} (reserved : id < Symbol.reservedNames.length) :
    initial.display ⟨id⟩ = Symbol.reservedNames[id] := by
  rw [display, name?, initial, List.getElem?_eq_getElem reserved, Option.getD_some]

theorem display_initial_of_not_isReserved {id : Nat} (free : ¬ id < Symbol.reservedNames.length) :
    initial.display ⟨id⟩ = "#" ++ toString id := by
  rw [display, name?, initial, List.getElem?_eq_none (Nat.not_lt.1 free), Option.getD_none]

/-- What symbols without names are shown as differs from symbol to symbol. -/
theorem display_initial_injective {id id' : Nat}
    (same : initial.display ⟨id⟩ = initial.display ⟨id'⟩) : id = id' := by
  have apart {id id' : Nat} (reserved : id < Symbol.reservedNames.length)
      (free : ¬ id' < Symbol.reservedNames.length) :
      initial.display ⟨id⟩ ≠ initial.display ⟨id'⟩ := by
    rw [display_initial_of_isReserved reserved, display_initial_of_not_isReserved free]
    have marked : ∀ name ∈ Symbol.reservedNames, name.toList.head? = some '_' := by decide
    intro equal
    have first := marked _ (List.getElem_mem reserved)
    rw [equal, String.toList_append] at first
    cases first
  by_cases reserved : id < Symbol.reservedNames.length
  · by_cases reserved' : id' < Symbol.reservedNames.length
    · rw [display_initial_of_isReserved reserved, display_initial_of_isReserved reserved'] at same
      exact (List.getElem_inj initial.distinct).1 same
    · exact absurd same (apart reserved reserved')
  · by_cases reserved' : id' < Symbol.reservedNames.length
    · exact absurd same.symm (apart reserved' reserved)
    · rw [display_initial_of_not_isReserved reserved, display_initial_of_not_isReserved reserved']
        at same
      exact Nat.repr_inj.1 ((String.append_right_inj "#").1 same)

/-- A table in which the numbers have the names of other numbers. -/
def labelled (label : Nat → Nat) (injective : Function.Injective label)
    (fixed : ∀ id < Symbol.reservedNames.length, label id = id) (size : Nat) : SymbolTable where
  names := (List.range (Symbol.reservedNames.length + size)).map fun id =>
    initial.display ⟨label id⟩
  distinct := List.nodup_range.map fun _ _ same => injective (display_initial_injective same)
  reserved := by
    have isReserved := calc
      (List.range Symbol.reservedNames.length).map (fun id => initial.display ⟨label id⟩)
      _ = (List.range Symbol.reservedNames.length).map fun id => initial.display ⟨id⟩ :=
          List.map_congr_left fun id member => by rw [fixed id (List.mem_range.1 member)]
      _ = Symbol.reservedNames := by decide
    rw [List.range_add, List.map_append, isReserved]
    exact List.prefix_append _ _

theorem name?_labelled_eq_some_iff {label : Nat → Nat} {injective : Function.Injective label}
    {fixed : ∀ id < Symbol.reservedNames.length, label id = id} {size : Nat} {x : Symbol}
    {name : String} : (labelled label injective fixed size).name? x = some name ↔
      x.id < Symbol.reservedNames.length + size ∧ initial.display ⟨label x.id⟩ = name := by
  unfold name? labelled
  rw [List.getElem?_map, Option.map_eq_some_iff]
  constructor
  · rintro ⟨id, found, isName⟩
    obtain ⟨below, isId⟩ := List.getElem?_eq_some_iff.1 found
    rw [List.getElem_range] at isId
    rw [List.length_range] at below
    exact ⟨below, isId ▸ isName⟩
  · exact fun ⟨below, isName⟩ => ⟨x.id, List.getElem?_range below, isName⟩

end SymbolTable

theorem Symbol.exists_bound (symbols : List Symbol) : ∃ bound, ∀ x ∈ symbols, x.id < bound := by
  induction symbols with
  | nil => exact ⟨0, fun _ none => absurd none List.not_mem_nil⟩
  | cons first rest ih =>
      obtain ⟨bound, below⟩ := ih
      refine ⟨bound + first.id + 1, List.forall_mem_cons.2 ⟨by omega, fun x member => ?_⟩⟩
      have := below x member
      omega

namespace Renaming

variable (fresh : Renaming)

/-- There are tables with the same names for symbols and their new numbers. -/
theorem exists_names (symbols : List Symbol) : ∃ names known, fresh.Names names known symbols := by
  -- The second table is long enough for all new numbers of the symbols that the first one names.
  obtain ⟨size, below⟩ := Symbol.exists_bound symbols
  obtain ⟨size', below'⟩ := Symbol.exists_bound
    ((List.range (Symbol.reservedNames.length + size)).map fun id => fresh.symbol ⟨id⟩)
  have fixed (id : Nat) (reserved : id < Symbol.reservedNames.length) :
      fresh.source (Symbol.reservedNames.length + size) id = id :=
    fresh.source_eq (Nat.lt_add_right size reserved)
      (fresh.symbol_of_isReserved ⟨id⟩ (decide_eq_true reserved))
  refine ⟨SymbolTable.labelled id Function.injective_id (fun _ _ => rfl) size,
    SymbolTable.labelled _ (fresh.source_injective (Symbol.reservedNames.length + size)) fixed
      size', fun x member => ?_, fun {x x'} same => ?_⟩
  · have isOld : x.id < Symbol.reservedNames.length + size := Nat.lt_add_left _ (below x member)
    have isNew : (fresh.symbol x).id < Symbol.reservedNames.length + size' :=
      Nat.lt_add_left _ (below' _ (List.mem_map.2 ⟨x.id, List.mem_range.2 isOld, rfl⟩))
    refine ⟨_, SymbolTable.name?_labelled_eq_some_iff.2 ⟨isOld, rfl⟩,
      SymbolTable.name?_labelled_eq_some_iff.2 ⟨isNew, ?_⟩⟩
    rw [fresh.source_eq isOld rfl, id]
  · obtain ⟨name, named, isKnown⟩ := same
    obtain ⟨isOld, isName⟩ := SymbolTable.name?_labelled_eq_some_iff.1 named
    obtain ⟨_, isName'⟩ := SymbolTable.name?_labelled_eq_some_iff.1 isKnown
    have isSource : fresh.source _ x'.id = x.id :=
      SymbolTable.display_initial_injective (isName'.trans isName.symm)
    have isNew := fresh.symbol_of_source_lt (isSource.symm ▸ isOld)
    rw [isSource] at isNew
    exact isNew.symm

/-! ## Grammars -/

variable {fresh} {names known : SymbolTable} {symbols : List Symbol} {g g' : Grammar}

/-- The symbols of the rules of a grammar. -/
def symbolsOf (g : Grammar) : List Symbol := g.rules.flatMap fun rule => rule.lhs :: rule.rhs

theorem Names.rulesAlike (shared : fresh.Names names known symbols) {rule : Rule}
    (within : ∀ x ∈ rule.lhs :: rule.rhs, x ∈ symbols) :
    RulesAlike names known rule (fresh.rule rule) := by
  obtain ⟨lhs, rhs⟩ := List.forall_mem_cons.1 within
  refine ⟨shared.sameName _ lhs, ?_, rfl, rfl, rfl⟩
  exact List.forall₂_map_right_iff.2
    (List.forall₂_same.2 fun x member => shared.sameName x (rhs x member))

/-- A grammar and the renamed one are alike by names, with a name for any further symbol. -/
theorem Renewed.exists_alike (renewed : fresh.Renewed g g') (x : Symbol) :
    ∃ names known, fresh.Names names known (x :: symbolsOf g) ∧ Grammar.Alike names known g g' := by
  obtain ⟨names, known, shared⟩ := fresh.exists_names (x :: symbolsOf g)
  refine ⟨names, known, shared, renewed.formed, renewed.formed', ?_⟩
  rw [renewed.rules_eq, List.forall₂_map_right_iff, List.forall₂_same]
  exact fun rule member => shared.rulesAlike fun y inRule =>
    List.mem_cons_of_mem x (List.mem_flatMap.2 ⟨rule, member, inRule⟩)

end Renaming

end ParserGenerator
