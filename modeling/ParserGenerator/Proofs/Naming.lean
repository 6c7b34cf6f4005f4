import Mathlib.Data.List.Forall2
import ParserGenerator.Proofs.Lookup
import ParserGenerator.Symbol

/-!
# What readers do to the symbol table

A reader is taken apart at its binds: each part starts from the table that the part in front of it
has grown. A name that a table has keeps its symbol in every later table, and registering it again
changes nothing.

A reader of names that a known table has grows a table by such names alone, so that it changes
nothing when the table has them all. The symbols that it makes carry the same names as symbols of
the known table.

Results:
1. `Naming.outcome_bind_ok`: a reader is taken apart.
2. `Naming.Yields.bind`: what a reader yields in the names of a known table.
3. `Naming.yields_intern` and `Naming.yields_internAll`: known names are registered.
4. `Naming.Ensures.bind`: what a reader ensures of the values that it makes.
-/

namespace ParserGenerator

namespace SymbolTable

variable {earlier later : SymbolTable} {name : String} {symbol : Symbol}

theorem Extends.get? (grown : later.Extends earlier) (known : earlier.get? name = some symbol) :
    later.get? name = some symbol :=
  get?_eq_some_iff.2 (grown.name? (get?_eq_some_iff.1 known))

/-- Registering a name that the table has changes nothing. -/
theorem intern_of_get? (known : earlier.get? name = some symbol) :
    earlier.intern name = (symbol, earlier) := by
  unfold intern
  split
  · rename_i other found
    cases found.symm.trans known
    rfl
  · rename_i missing
    cases missing.symm.trans known

theorem display_of_name? (named : earlier.name? symbol = some name) :
    earlier.display symbol = name := by
  rw [display, named, Option.getD_some]

/-- The table has a name for the symbol. -/
def HasName (table : SymbolTable) (symbol : Symbol) : Prop :=
  ∃ name, table.name? symbol = some name

/-- A symbol of one table and a symbol of another one have the same name. -/
def SameName (names known : SymbolTable) (symbol other : Symbol) : Prop :=
  ∃ name, names.name? symbol = some name ∧ known.name? other = some name

variable {names known : SymbolTable} {other third : Symbol}

theorem SameName.mono (same : SameName names known symbol other) (grown : later.Extends names) :
    SameName later known symbol other := by
  obtain ⟨name, named, isKnown⟩ := same
  exact ⟨name, grown.name? named, isKnown⟩

theorem SameName.display_eq (same : SameName names known symbol other) :
    names.display symbol = known.display other := by
  obtain ⟨name, named, isKnown⟩ := same
  rw [display_of_name? named, display_of_name? isKnown]

theorem eq_of_name? (first : names.name? symbol = some name)
    (second : names.name? other = some name) : symbol = other :=
  Option.some.inj ((get?_eq_some_iff.2 first).symm.trans (get?_eq_some_iff.2 second))

/-- Of two symbols of the known table, one symbol can share the name of one alone. -/
theorem SameName.right_unique (same : SameName names known symbol other)
    (same' : SameName names known symbol third) : other = third := by
  obtain ⟨name, named, isKnown⟩ := same
  obtain ⟨name', named', isKnown'⟩ := same'
  cases named.symm.trans named'
  exact eq_of_name? isKnown isKnown'

theorem SameName.symm (same : SameName names known symbol other) :
    SameName known names other symbol := by
  obtain ⟨name, named, isKnown⟩ := same
  exact ⟨name, isKnown, named⟩

theorem SameName.left_unique (same : SameName names known symbol other)
    (same' : SameName names known third other) : symbol = third :=
  same.symm.right_unique same'.symm

/-- Symbols correspond one to one by their names. -/
theorem sameName_biUnique (names known : SymbolTable) :
    Relator.BiUnique (SameName names known) :=
  ⟨fun _ _ _ same same' => same.left_unique same',
    fun _ _ _ same same' => same.right_unique same'⟩

theorem SameName.eq_iff {symbol' other' : Symbol} (same : SameName names known symbol symbol')
    (same' : SameName names known other other') : symbol = other ↔ symbol' = other' :=
  Relator.rel_eq (sameName_biUnique names known) same same'

/-- The reserved symbols have their names in every table. -/
theorem sameName_of_isReserved (names known : SymbolTable) (reserved : symbol.isReserved = true) :
    SameName names known symbol symbol := by
  have below : symbol.id < Symbol.reservedNames.length := of_decide_eq_true reserved
  have found := List.getElem?_eq_getElem below
  exact ⟨_, getElem?_of_isPrefix names.reserved found, getElem?_of_isPrefix known.reserved found⟩

/-- In a table that has all known symbols, the same name means the same symbol. -/
theorem SameName.eq (same : SameName names known symbol other) (grown : names.Extends known) :
    symbol = other := by
  obtain ⟨name, named, isKnown⟩ := same
  exact eq_of_name? named (grown.name? isKnown)

/-- The later table has grown from the earlier one by names of the known table alone. -/
structure GrowsBy (known earlier later : SymbolTable) : Prop where
  grown : later.Extends earlier
  unchanged : earlier.Extends known → later = earlier

theorem GrowsBy.refl (known table : SymbolTable) : GrowsBy known table table :=
  ⟨.refl table, fun _ => rfl⟩

theorem GrowsBy.trans {first middle last : SymbolTable} (early : GrowsBy known first middle)
    (late : GrowsBy known middle last) : GrowsBy known first last where
  grown := late.grown.trans early.grown
  unchanged has := by
    have same := early.unchanged has
    subst same
    exact late.unchanged has

end SymbolTable

namespace Naming

variable {ε δ α β : Type} {names grown : SymbolTable} {reader : Naming ε α} {next : α → Naming ε β}

theorem outcome_pure (value : α) (names : SymbolTable) :
    (pure value : Naming ε α).outcome names = (.ok value, names) := rfl

theorem outcome_intern (name : String) (names : SymbolTable) :
    (intern name : Naming ε Symbol).outcome names =
      (.ok (names.intern name).1, (names.intern name).2) := rfl

theorem outcome_bind_ok {value : α} (read : reader.outcome names = (.ok value, grown)) :
    (reader >>= next).outcome names = (next value).outcome grown := by
  have step : (reader >>= next).outcome names =
      (ExceptT.bindCont next (reader.outcome names).1).run (reader.outcome names).2 := rfl
  rw [step, read]
  rfl

theorem outcome_bind_of_error {error : ε} (failed : reader.outcome names = (.error error, grown)) :
    (reader >>= next).outcome names = (.error error, grown) := by
  have step : (reader >>= next).outcome names =
      (ExceptT.bindCont next (reader.outcome names).1).run (reader.outcome names).2 := rfl
  rw [step, failed]
  rfl

theorem outcome_eq_of_fst {result : Except ε α} (made : (reader.outcome names).1 = result) :
    reader.outcome names = (result, (reader.outcome names).2) := Prod.ext made rfl

theorem outcome_bind_error {error : ε} (failed : (reader.outcome names).1 = .error error) :
    ((reader >>= next).outcome names).1 = .error error := by
  rw [outcome_bind_of_error (outcome_eq_of_fst failed)]

/-- A reader in two steps makes a value when both of them do. -/
theorem outcome_bind_eq_ok {value : β} :
    (reader >>= next).outcome names = (.ok value, grown) ↔
      ∃ first middle, reader.outcome names = (.ok first, middle) ∧
        (next first).outcome middle = (.ok value, grown) := by
  constructor
  · intro read
    cases step : reader.outcome names with
    | mk result middle =>
        cases result with
        | ok first => exact ⟨first, middle, rfl, (outcome_bind_ok step).symm.trans read⟩
        | error error =>
            have failed : ((reader >>= next).outcome names).1 = .error error :=
              outcome_bind_error (congrArg Prod.fst step)
            rw [read] at failed
            cases failed
  · rintro ⟨first, middle, step, read⟩
    exact (outcome_bind_ok step).trans read

theorem outcome_get_bind (next : SymbolTable → Naming ε α) (names : SymbolTable) :
    (get >>= next).outcome names = (next names).outcome names := rfl

theorem outcome_mapError (change : ε → δ) (reader : Naming ε α) (names : SymbolTable) :
    (reader.mapError change).outcome names =
      (Except.mapError change (reader.outcome names).1, (reader.outcome names).2) := rfl

theorem outcome_mapError_eq_ok {change : ε → δ} {value : α} :
    (reader.mapError change).outcome names = (.ok value, grown) ↔
      reader.outcome names = (.ok value, grown) := by
  rw [outcome_mapError]
  cases reader.outcome names with
  | mk result table => cases result <;> simp [Except.mapError]

/-! ## Reading known names -/

open SymbolTable (GrowsBy SameName)

/-- From a table the reader makes a value, and grows the table by known names alone. -/
def Yields (known names : SymbolTable) (reader : Naming ε α) (holds : SymbolTable → α → Prop) :
    Prop :=
  ∃ value later, reader.outcome names = (.ok value, later) ∧ GrowsBy known names later ∧
    holds later value

variable {known : SymbolTable} {holds : SymbolTable → α → Prop}

theorem yields_pure {value : α} (held : holds names value) : Yields known names
    (pure value : Naming ε α) holds :=
  ⟨value, names, outcome_pure value names, .refl known names, held⟩

theorem Yields.bind {wanted : SymbolTable → β → Prop} (yields : Yields known names reader holds)
    (continues : ∀ value later, GrowsBy known names later → holds later value →
      Yields known later (next value) wanted) :
    Yields known names (reader >>= next) wanted := by
  obtain ⟨value, middle, read, grows, held⟩ := yields
  obtain ⟨result, last, readOn, growsOn, found⟩ := continues value middle grows held
  exact ⟨result, last, (outcome_bind_ok read).trans readOn, grows.trans growsOn, found⟩

theorem yields_intern {symbol : Symbol} {name : String} (isKnown : known.name? symbol = some name)
    (names : SymbolTable) : Yields known names (intern name : Naming ε Symbol)
      fun later found => SameName later known found symbol := by
  refine ⟨_, _, outcome_intern name names, ⟨names.extends_intern name, fun has => ?_⟩, ?_⟩
  · rw [SymbolTable.intern_of_get? (SymbolTable.get?_eq_some_iff.2 (has.name? isKnown))]
  · exact ⟨name, SymbolTable.get?_eq_some_iff.1 (names.get?_intern name), isKnown⟩

theorem yields_intern_display {symbol : Symbol} (named : known.HasName symbol)
    (names : SymbolTable) : Yields known names (intern (known.display symbol) : Naming ε Symbol)
      fun later found => SameName later known found symbol := by
  obtain ⟨name, isKnown⟩ := named
  rw [SymbolTable.display_of_name? isKnown]
  exact yields_intern isKnown names

theorem yields_internAll {symbols : List Symbol} (named : ∀ symbol ∈ symbols, known.HasName symbol)
    (names : SymbolTable) :
    Yields known names (internAll (symbols.map known.display) : Naming ε (List Symbol))
      fun later found => List.Forall₂ (SameName later known) found symbols := by
  induction symbols generalizing names with
  | nil => exact yields_pure .nil
  | cons symbol rest ih =>
      rw [List.map_cons, internAll]
      refine (yields_intern_display (named symbol List.mem_cons_self) names).bind ?_
      intro first between _ isFirst
      refine (ih (fun other member => named other (List.mem_cons_of_mem _ member)) between).bind ?_
      intro others later grows areOthers
      exact yields_pure (.cons (isFirst.mono grows.grown) areOthers)

/-! ## Whatever is made -/

/-- If the reader makes a value from a table, it has grown the table and the value is as wanted. -/
def Ensures (names : SymbolTable) (reader : Naming ε α) (holds : SymbolTable → α → Prop) : Prop :=
  ∀ value later, reader.outcome names = (.ok value, later) → later.Extends names ∧ holds later value

theorem ensures_pure {value : α} (held : holds names value) :
    Ensures names (pure value : Naming ε α) holds := by
  intro made later read
  cases read
  exact ⟨.refl names, held⟩

theorem ensures_throw (error : ε) : Ensures names (throw error : Naming ε α) holds := by
  intro made later read
  cases read

theorem ensures_get (names : SymbolTable) :
    Ensures names (get : Naming ε SymbolTable) fun later known => known = later := by
  intro made later read
  cases read
  exact ⟨.refl names, rfl⟩

theorem ensures_lift {result : Except ε α}
    (held : ∀ value, result = .ok value → holds names value) :
    Ensures names (liftM result : Naming ε α) holds := by
  cases result with
  | ok value => exact ensures_pure (held value rfl)
  | error error => exact ensures_throw error

theorem Ensures.bind {wanted : SymbolTable → β → Prop} (ensures : Ensures names reader holds)
    (continues : ∀ value later, later.Extends names → holds later value →
      Ensures later (next value) wanted) :
    Ensures names (reader >>= next) wanted := by
  intro result last read
  obtain ⟨value, middle, first, readOn⟩ := outcome_bind_eq_ok.1 read
  obtain ⟨grown, held⟩ := ensures value middle first
  obtain ⟨grownOn, found⟩ := continues value middle grown held result last readOn
  exact ⟨grownOn.trans grown, found⟩

theorem ensures_intern (name : String) (names : SymbolTable) :
    Ensures names (intern name : Naming ε Symbol) fun later symbol =>
      later.name? symbol = some name := by
  intro symbol later read
  cases read
  exact ⟨names.extends_intern name, SymbolTable.get?_eq_some_iff.1 (names.get?_intern name)⟩

/-- All symbols of a list of names are named by one of them. -/
theorem ensures_internAll (spelled : List String) (names : SymbolTable) :
    Ensures names (internAll spelled : Naming ε (List Symbol)) fun later symbols =>
      ∀ symbol ∈ symbols, ∃ name ∈ spelled, later.name? symbol = some name := by
  induction spelled generalizing names with
  | nil => exact ensures_pure fun symbol member => absurd member List.not_mem_nil
  | cons name rest ih =>
      refine (ensures_intern name names).bind fun first middle _ isFirst => ?_
      refine (ih middle).bind fun others later grown areOthers => ensures_pure ?_
      refine List.forall_mem_cons.2 ⟨⟨name, List.mem_cons_self, grown.name? isFirst⟩, ?_⟩
      intro symbol member
      obtain ⟨other, inRest, named⟩ := areOthers symbol member
      exact ⟨other, List.mem_cons_of_mem _ inRest, named⟩

end Naming

end ParserGenerator
