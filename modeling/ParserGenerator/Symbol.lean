import ParserGenerator.OrderedSet

/-!
# Symbols and their names

A symbol is a number, and a symbol table gives numbers to names in the order in which the names
are first met. Three names are reserved and hold the first numbers: the left-hand side of the
start rule that every grammar is extended by, the end of the input, and the empty string as a
member of FIRST and FOLLOW sets.

Readers of rule files register the names they meet and keep what they registered even when they
fail later, so a reader carries its table beside its outcome (`Naming`).

Results: `SymbolTable.get?_eq_some_iff`, that looking up a name and naming a symbol are inverse
to each other, and `SymbolTable.extends_intern`, that registering a name keeps all older numbers.
-/

namespace ParserGenerator

/-- A name's number in a symbol table. -/
structure Symbol where
  id : Nat
deriving DecidableEq, Repr, Inhabited

namespace Symbol

/-- The left-hand side of the rule that extends a grammar. -/
def start : Symbol := ⟨0⟩

/-- The end of the input. -/
def endOfInput : Symbol := ⟨1⟩

/-- The empty string, as a member of a set of first or following symbols. -/
def epsilon : Symbol := ⟨2⟩

/-- The names of the reserved symbols, by number. -/
def reservedNames : List String := ["__START__", "__EOF__", "__EPSILON__"]

def isReserved (symbol : Symbol) : Bool := symbol.id < reservedNames.length

end Symbol

instance : Numbered Symbol where
  number := Symbol.id
  number_inj {a b} same := by
    cases a
    cases b
    cases same
    rfl

/-- A set of symbols. -/
abbrev SymbolSet := OrderedSet Symbol

/-- The registered names by number: each name once, the reserved ones first. -/
structure SymbolTable where
  names : List String
  distinct : names.Nodup
  reserved : Symbol.reservedNames <+: names

namespace SymbolTable

/-- The table that holds the reserved names only. -/
def initial : SymbolTable where
  names := Symbol.reservedNames
  distinct := by decide
  reserved := List.prefix_refl _

instance : Inhabited SymbolTable := ⟨initial⟩

def size (table : SymbolTable) : Nat := table.names.length

/-- The symbol of a name, if it is registered. -/
def get? (table : SymbolTable) (name : String) : Option Symbol :=
  (table.names.idxOf? name).map Symbol.mk

/-- The name of a symbol, if the table has one. -/
def name? (table : SymbolTable) (symbol : Symbol) : Option String := table.names[symbol.id]?

/-- The name of a symbol, or its number when the table has no name for it. -/
def display (table : SymbolTable) (symbol : Symbol) : String :=
  (table.name? symbol).getD ("#" ++ toString symbol.id)

theorem get?_eq_none_iff {table : SymbolTable} {name : String} :
    table.get? name = none ↔ name ∉ table.names := by
  simp [get?]

theorem get?_eq_some_iff {table : SymbolTable} {name : String} {symbol : Symbol} :
    table.get? name = some symbol ↔ table.name? symbol = some name := by
  obtain ⟨id⟩ := symbol
  simp only [get?, name?, Option.map_eq_some_iff, Symbol.mk.injEq, exists_eq_right,
    List.idxOf?, List.findIdx?_eq_some_iff_getElem, beq_iff_eq]
  constructor
  · rintro ⟨bound, found, -⟩
    exact List.getElem?_eq_some_iff.2 ⟨bound, found⟩
  · intro named
    obtain ⟨bound, found⟩ := List.getElem?_eq_some_iff.1 named
    refine ⟨bound, found, fun earlier below same => ?_⟩
    have equal := (List.getElem?_inj (by omega) table.distinct).1
      ((List.getElem?_eq_some_iff.2 ⟨by omega, same⟩).trans named.symm)
    omega

/-- The symbol of a name, which is registered under the next number if it is new. -/
def intern (table : SymbolTable) (name : String) : Symbol × SymbolTable :=
  match known : table.get? name with
  | some symbol => (symbol, table)
  -- A new name goes to the end, so that all older numbers stay.
  | none =>
      (⟨table.size⟩,
        { names := table.names ++ [name]
          distinct := by
            have absent := get?_eq_none_iff.1 known
            rw [List.nodup_append]
            refine ⟨table.distinct, by simp, fun a member b single => ?_⟩
            rw [List.mem_singleton.1 single]
            exact fun equal => absent (equal ▸ member)
          reserved := table.reserved.trans (List.prefix_append _ _) })

/-- A later table has all names of an earlier one under their numbers. -/
def Extends (later earlier : SymbolTable) : Prop := earlier.names <+: later.names

theorem Extends.refl (table : SymbolTable) : table.Extends table := List.prefix_refl _

theorem Extends.trans {last middle first : SymbolTable}
    (late : last.Extends middle) (early : middle.Extends first) : last.Extends first :=
  List.IsPrefix.trans early late

theorem Extends.name? {later earlier : SymbolTable} (grown : later.Extends earlier)
    {symbol : Symbol} {name : String} (named : earlier.name? symbol = some name) :
    later.name? symbol = some name := by
  obtain ⟨added, equal⟩ := grown
  obtain ⟨bound, found⟩ := List.getElem?_eq_some_iff.1 named
  rw [SymbolTable.name?, ← equal, List.getElem?_append_left bound]
  exact named

theorem extends_intern (table : SymbolTable) (name : String) :
    (table.intern name).2.Extends table := by
  unfold intern
  split
  · exact Extends.refl _
  · exact List.prefix_append _ _

theorem get?_intern (table : SymbolTable) (name : String) :
    (table.intern name).2.get? name = some (table.intern name).1 := by
  unfold intern
  split
  · assumption
  · exact get?_eq_some_iff.2 (by simp [SymbolTable.name?, size])

end SymbolTable

/-! ## Readers that register names -/

/-- A computation that registers names and may fail; the table it has grown survives a failure. -/
abbrev Naming (ε : Type) := ExceptT ε (StateM SymbolTable)

namespace Naming

variable {ε α : Type}

/-- Registers a name. -/
def intern (name : String) : Naming ε Symbol := modifyGet (·.intern name)

/-- Registers the names of a list in order. -/
def internAll : List String → Naming ε (List Symbol)
  | [] => pure []
  | name :: rest => do
      let symbol ← intern name
      let symbols ← internAll rest
      pure (symbol :: symbols)

/-- The outcome and the grown table, from a table to start with. -/
def outcome (reader : Naming ε α) (table : SymbolTable) : Except ε α × SymbolTable :=
  reader.run.run table

/-- The reader with its error put into other words. -/
def mapError {δ : Type} (change : ε → δ) (reader : Naming ε α) : Naming δ α :=
  ExceptT.mk (Except.mapError change <$> reader.run)

end Naming

/-! ## Results that can be computed -/

instance decidableEqExcept {ε α : Type} [DecidableEq ε] [DecidableEq α] :
    DecidableEq (Except ε α)
  | .ok a, .ok b =>
      if same : a = b then isTrue (congrArg _ same)
      else isFalse fun equal => same (Except.ok.inj equal)
  | .error a, .error b =>
      if same : a = b then isTrue (congrArg _ same)
      else isFalse fun equal => same (Except.error.inj equal)
  | .ok _, .error _ => isFalse nofun
  | .error _, .ok _ => isFalse nofun

instance decidableExistsOk {ε α : Type} {p : α → Prop} [DecidablePred p] :
    (outcome : Except ε α) → Decidable (∃ a, outcome = .ok a ∧ p a)
  | .ok a =>
      if holds : p a then isTrue ⟨a, rfl, holds⟩
      else isFalse fun ⟨_, isOk, holds'⟩ => holds (Except.ok.inj isOk ▸ holds')
  | .error _ => isFalse fun ⟨_, isOk, _⟩ => nomatch isOk

/-! ## Sets of symbols -/

/-- A set of symbols between braces, by ascending numbers. -/
def SymbolSet.display (names : SymbolTable) (set : SymbolSet) : String :=
  "\x7b" ++ ", ".intercalate (set.toList.map names.display) ++ "\x7d"

end ParserGenerator
