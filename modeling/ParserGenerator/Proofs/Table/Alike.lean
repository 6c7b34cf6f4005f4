import Mathlib.Data.List.Forall2
import ParserGenerator.Proofs.Naming
import ParserGenerator.Proofs.Table.Writes
import ParserGenerator.Table.Text

/-!
# Tables that say the same by names

Two tables with symbols and rules of their own are alike when their cells correspond one by one:
the symbols have the same names, and reductions are by rules that say the same by names, under
whatever numbers. Nothing else enters the text of a table, so tables that are alike have the same
text. If one of them has the symbols of the other one, they are equal.

Results: `Table.Alike.text?_eq` and `Table.Alike.sameCells`.
-/

namespace ParserGenerator

open SymbolTable (SameName)

/-! ## Definitions -/

/-- The rules say the same by names. -/
structure RulesAlike (names known : SymbolTable) (rule other : Rule) : Prop where
  lhs : SameName names known rule.lhs other.lhs
  rhs : List.Forall₂ (SameName names known) rule.rhs other.rhs
  options_eq : rule.options = other.options
  chained_eq : rule.chained = other.chained
  unwrapsSingle_eq : rule.unwrapsSingle = other.unwrapsSingle

/-- The entries are the same, or reduce by rules that say the same by names. -/
inductive EntriesAlike (names known : SymbolTable) (rules others : List Rule) :
    Entry → Entry → Prop where
  | shift (next : Nat) : EntriesAlike names known rules others (.shift next) (.shift next)
  | goto (next : Nat) : EntriesAlike names known rules others (.goto next) (.goto next)
  | accept : EntriesAlike names known rules others .accept .accept
  | reduce {id id' : Nat} {rule other : Rule} (found : rules[id]? = some rule)
      (found' : others[id']? = some other) (alike : RulesAlike names known rule other) :
      EntriesAlike names known rules others (.reduce id) (.reduce id')

/-- The cells belong to symbols with the same name and say the same. -/
structure CellsAlike (names known : SymbolTable) (rules others : List Rule)
    (cell other : Symbol × Entry) : Prop where
  symbol : SameName names known cell.1 other.1
  entry : EntriesAlike names known rules others cell.2 other.2

/-- The rows correspond cell by cell. -/
def RowsAlike (names known : SymbolTable) (rules others : List Rule) (row other : Row) : Prop :=
  List.Forall₂ (CellsAlike names known rules others) row other

/-- The tables correspond row by row. -/
def Table.Alike (left right : Table) : Prop :=
  List.Forall₂ (RowsAlike left.symbols right.symbols left.rules right.rules) left.rows right.rows

variable {names later known : SymbolTable} {rules more others : List Rule} {rule other : Rule}

/-! ## Growth -/

theorem RulesAlike.mono (alike : RulesAlike names known rule other) (grown : later.Extends names) :
    RulesAlike later known rule other where
  lhs := alike.lhs.mono grown
  rhs := alike.rhs.imp fun _ _ same => same.mono grown
  options_eq := alike.options_eq
  chained_eq := alike.chained_eq
  unwrapsSingle_eq := alike.unwrapsSingle_eq

theorem EntriesAlike.mono {entry entry' : Entry}
    (alike : EntriesAlike names known rules others entry entry') (grown : later.Extends names)
    (longer : rules <+: more) : EntriesAlike later known more others entry entry' := by
  cases alike with
  | shift next => exact .shift next
  | goto next => exact .goto next
  | accept => exact .accept
  | reduce found found' alike =>
      exact .reduce (getElem?_of_isPrefix longer found) found' (alike.mono grown)

theorem RowsAlike.mono {row row' : Row} (alike : RowsAlike names known rules others row row')
    (grown : later.Extends names) (longer : rules <+: more) :
    RowsAlike later known more others row row' :=
  alike.imp fun _ _ cells => ⟨cells.symbol.mono grown, cells.entry.mono grown longer⟩

/-- Entries that are alike lead to the same state. -/
theorem EntriesAlike.target?_eq {entry entry' : Entry}
    (alike : EntriesAlike names known rules others entry entry') :
    entry.target? = entry'.target? := by
  cases alike <;> rfl

/-! ## Equal texts -/

theorem RulesAlike.ruleText_eq (alike : RulesAlike names known rule other) :
    Table.ruleText names rule = Table.ruleText known other := by
  have rhs : rule.rhs.map (fun symbol => " " ++ names.display symbol) =
      other.rhs.map (fun symbol => " " ++ known.display symbol) := by
    refine List.forall₂_eq_eq_eq ▸ (List.rel_map ?_ alike.rhs)
    exact fun _ _ same => congrArg (" " ++ ·) same.display_eq
  rw [Table.ruleText, Table.ruleText, Rule.display, Rule.display, alike.options_eq,
    alike.chained_eq, alike.unwrapsSingle_eq, alike.lhs.display_eq, rhs]

/-- With all known symbols, rules that say the same by names are the same. -/
theorem RulesAlike.eq (alike : RulesAlike names known rule other)
    (grown : names.Extends known) : rule = other := by
  have lhs := alike.lhs.eq grown
  have rhs : rule.rhs = other.rhs :=
    List.forall₂_eq_eq_eq ▸ alike.rhs.imp fun _ _ same => same.eq grown
  obtain ⟨_, _, options, chained, unwraps⟩ := alike
  cases rule
  cases other
  cases lhs
  cases rhs
  cases options
  cases chained
  cases unwraps
  rfl

/-- Functions that agree on lists that correspond yield the same. -/
theorem mapM_congr_forall₂ {α β γ : Type} {relates : α → β → Prop} {f : α → Option γ}
    {g : β → Option γ} {left : List α} {right : List β} (related : List.Forall₂ relates left right)
    (agree : ∀ a b, relates a b → f a = g b) : left.mapM f = right.mapM g := by
  induction related with
  | nil => rfl
  | cons first _ ih => rw [List.mapM_cons, List.mapM_cons, agree _ _ first, ih]

namespace Table

variable {left right : Table} {leftRow rightRow : Row}

theorem entryText?_eq {entry entry' : Entry}
    (alike : EntriesAlike left.symbols right.symbols left.rules right.rules entry entry') :
    left.entryText? entry = right.entryText? entry' := by
  cases alike with
  | shift next => rfl
  | goto next => rfl
  | accept => rfl
  | reduce found found' alike =>
      rw [entryText?, entryText?, rule?, rule?, found, found', Option.map_some, Option.map_some,
        alike.ruleText_eq]

theorem cellText?_eq {cell cell' : Symbol × Entry}
    (alike : CellsAlike left.symbols right.symbols left.rules right.rules cell cell') :
    left.cellText? cell = right.cellText? cell' := by
  rw [cellText?, cellText?, entryText?_eq alike.entry, alike.symbol.display_eq]

theorem rowText?_eq
    (alike : RowsAlike left.symbols right.symbols left.rules right.rules leftRow rightRow) :
    left.rowText? leftRow = right.rowText? rightRow := by
  rw [rowText?, rowText?, mapM_congr_forall₂ alike fun _ _ => cellText?_eq, alike.length_eq]

/-- Tables that are alike have the same text. -/
theorem Alike.text?_eq (alike : left.Alike right) : left.text? = right.text? := by
  have size : left.size = right.size := List.Forall₂.length_eq alike
  rw [text?, text?, mapM_congr_forall₂ alike fun _ _ => rowText?_eq, size]

/-! ## Equal tables -/

theorem sameEntry_of_alike (grown : left.symbols.Extends right.symbols) {entry entry' : Entry}
    (alike : EntriesAlike left.symbols right.symbols left.rules right.rules entry entry') :
    sameEntry left right entry entry' = true := by
  cases alike with
  | shift next => exact beq_self_eq_true _
  | goto next => exact beq_self_eq_true _
  | accept => exact beq_self_eq_true _
  | reduce found found' alike =>
      rw [sameEntry, rule?, rule?, found, found', alike.eq grown]
      exact beq_self_eq_true _

theorem sameEntry_comm (left right : Table) (entry entry' : Entry) :
    sameEntry left right entry entry' = sameEntry right left entry' entry := by
  cases entry <;> cases entry' <;> exact Bool.beq_comm

/-- Two cells of one symbol that say the same. -/
def SameCell (left right : Table) (cell other : Symbol × Entry) : Prop :=
  cell.1 = other.1 ∧ sameEntry left right cell.2 other.2 = true

theorem keys_eq (same : List.Forall₂ (SameCell left right) leftRow rightRow) :
    leftRow.map Prod.fst = rightRow.map Prod.fst := by
  induction same with
  | nil => rfl
  | cons first _ ih => rw [List.map_cons, List.map_cons, first.1, ih]

theorem sameRow_of_forall₂ (same : List.Forall₂ (SameCell left right) leftRow rightRow)
    (distinct : (rightRow.map Prod.fst).Nodup) :
    sameRow left right leftRow rightRow = true := by
  rw [sameRow, Bool.and_eq_true, List.all_eq_true]
  refine ⟨beq_iff_eq.2 same.length_eq, fun cell member => ?_⟩
  obtain ⟨other, inRight, sameSymbol, agree⟩ := exists_mem_of_forall₂ same member
  have found : rightRow.get? cell.1 = some other.2 := by
    rw [sameSymbol]
    exact (lookup_eq_some_iff_mem distinct).2 inRight
  dsimp only
  rw [found]
  exact agree

theorem sameCells_of_forall₂
    (same : List.Forall₂ (List.Forall₂ (SameCell left right)) left.rows right.rows)
    (distinct : right.RowsDistinct) : sameCells left right = true := by
  rw [sameCells, Bool.and_eq_true, List.all_eq_true]
  refine ⟨beq_iff_eq.2 same.length_eq, fun rows member => ?_⟩
  have inRight := (List.of_mem_zip member).2
  exact sameRow_of_forall₂ (List.forall₂_zip same member) (distinct _ inRight)

theorem rowsDistinct_of_forall₂
    (same : List.Forall₂ (List.Forall₂ (SameCell left right)) left.rows right.rows)
    (distinct : right.RowsDistinct) : left.RowsDistinct := by
  intro row member
  obtain ⟨other, inRight, rows⟩ := exists_mem_of_forall₂ same member
  rw [keys_eq rows]
  exact distinct other inRight

/-- Tables that are alike are equal when one has all symbols of the other, compared either way. -/
theorem Alike.sameCells (alike : left.Alike right) (grown : left.symbols.Extends right.symbols)
    (distinct : right.RowsDistinct) :
    sameCells left right = true ∧ sameCells right left = true := by
  have same : List.Forall₂ (List.Forall₂ (SameCell left right)) left.rows right.rows :=
    alike.imp fun _ _ rows => rows.imp fun _ _ cell =>
      ⟨cell.symbol.eq grown, sameEntry_of_alike grown cell.entry⟩
  have flipped : List.Forall₂ (List.Forall₂ (SameCell right left)) right.rows left.rows :=
    (same.imp fun _ _ rows => (rows.imp fun _ _ cell =>
      ⟨cell.1.symm, (sameEntry_comm _ _ _ _).trans cell.2⟩).flip).flip
  exact ⟨sameCells_of_forall₂ same distinct,
    sameCells_of_forall₂ flipped (rowsDistinct_of_forall₂ same distinct)⟩

end Table

end ParserGenerator
