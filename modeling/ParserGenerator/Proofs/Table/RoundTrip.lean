import ParserGenerator.Proofs.Table.ReadBack

/-!
# The text of a table is read back

The rows of a table that is being read correspond to the first rows of the table that was written,
and the last of them to the first cells of its row. Reading the next line puts a cell behind it. The
cell is a new one, since names are distinct and a row has one cell for a symbol, so no conflict
arises.

Results:
1. `Table.Writable.yields_parse`: the text of a table is read, and a table alike comes out.
2. `Table.Writable.parse_text`: with its own names, the table itself comes out; with any other
   names, the table that comes out has the same text.
-/

namespace ParserGenerator.Table

open Naming (Yields)
open SymbolTable (GrowsBy SameName)

variable {table acc : Table} {names later : SymbolTable}

/-! ## Rows that were read -/

/-- The table has been read up to some rows of another one. -/
structure ReadUpTo (names : SymbolTable) (table acc : Table) (rows : List Row) : Prop where
  rows : List.Forall₂ (RowsAlike names table.symbols acc.rules table.rules) acc.rows rows
  conflicts : acc.conflicts = []

theorem ReadUpTo.keeps {rows : List Row} {after : Table} (upTo : ReadUpTo names table acc rows)
    (grown : later.Extends names) (keeps : Keeps acc after) : ReadUpTo later table after rows where
  rows := by
    rw [keeps.rows]
    exact upTo.rows.imp fun _ _ alike => alike.mono grown keeps.rules
  conflicts := keeps.conflicts.trans upTo.conflicts

/-- Lists that correspond are cut at the same place. -/
theorem forall₂_concat {α β : Type} {relates : α → β → Prop} {left : List α} {right : List β}
    {last : β} (related : List.Forall₂ relates left (right ++ [last])) :
    ∃ front a, left = front ++ [a] ∧ List.Forall₂ relates front right ∧ relates a last := by
  have front := List.forall₂_take_append left right [last] related
  have back := List.forall₂_drop_append left right [last] related
  obtain ⟨a, rest, relate, none, isBack⟩ := List.forall₂_cons_right_iff.1 back
  cases List.forall₂_nil_right_iff.1 none
  refine ⟨_, a, ?_, front, relate⟩
  rw [← isBack, List.take_append_drop]

theorem put_of_fresh {row : Row} {symbol : Symbol} (fresh : symbol ∉ row.map Prod.fst)
    (entry : Entry) : row.put symbol entry = row ++ [(symbol, entry)] := by
  induction row with
  | nil => rfl
  | cons cell rest ih =>
      rw [List.map_cons] at fresh
      rw [Row.put, if_neg (Ne.symm (List.ne_of_not_mem_cons fresh)),
        ih (List.not_mem_of_not_mem_cons fresh), List.cons_append]

theorem get?_of_fresh {row : Row} {symbol : Symbol} (fresh : symbol ∉ row.map Prod.fst) :
    row.get? symbol = none := by
  rw [Row.get?, List.lookup_eq_none_iff]
  intro cell member
  exact bne_iff_ne.2 fun same => fresh (List.mem_map.2 ⟨cell, member, same.symm⟩)

/-- A symbol with the name of a new one is new in the row that was read. -/
theorem fresh_of_alike {known : SymbolTable} {rules others : List Rule} {row row' : Row}
    {symbol other : Symbol} (alike : RowsAlike names known rules others row row')
    (same : SameName names known symbol other) (fresh : other ∉ row'.map Prod.fst) :
    symbol ∉ row.map Prod.fst := by
  intro member
  obtain ⟨cell, inRow, rfl⟩ := List.mem_map.1 member
  obtain ⟨cell', inRow', cells⟩ := exists_mem_of_forall₂ alike inRow
  rw [same.right_unique cells.symbol] at fresh
  exact fresh (List.mem_map.2 ⟨cell', inRow', rfl⟩)

/-- Writing a new cell to the last row puts it behind the others. -/
theorem ReadUpTo.set {rows : List Row} {row : Row} {cell found : Symbol × Entry}
    (upTo : ReadUpTo names table acc (rows ++ [row]))
    (alike : CellsAlike names table.symbols acc.rules table.rules found cell)
    (fresh : cell.1 ∉ row.map Prod.fst) :
    ReadUpTo names table (acc.set rows.length found.1 found.2) (rows ++ [row ++ [cell]]) := by
  obtain ⟨front, last, isRows, areFront, isLast⟩ := forall₂_concat upTo.rows
  have isNew : found.1 ∉ last.map Prod.fst := fresh_of_alike isLast alike.symbol fresh
  have place : acc.rows[rows.length]? = some last := by
    rw [isRows, ← areFront.length_eq, List.getElem?_concat_length]
  have cells : acc.set rows.length found.1 found.2 =
      { acc with rows := front ++ [last ++ [found]] } := by
    rw [Table.set, place]
    dsimp only
    rw [put_of_fresh isNew, get?_of_fresh isNew, conflict?, List.append_nil, isRows,
      ← areFront.length_eq, List.set_append_right _ _ (Nat.le_refl _), Nat.sub_self]
    rfl
  rw [cells]
  refine ⟨List.rel_append areFront (.cons ?_ .nil), upTo.conflicts⟩
  exact List.rel_append isLast (.cons alike .nil)

/-! ## Cells and rows -/

/-- The cells of a row are read one by one. -/
theorem yields_readCells (small : table.size < Text.stateBound) (past : Nat) {rows : List Row}
    {cells : Row} (named : ∀ cell ∈ cells, table.symbols.NamesWord cell.1)
    (writable : ∀ cell ∈ cells, table.EntryWritable cell.2) {front : Row}
    (distinct : ((front ++ cells).map Prod.fst).Nodup)
    (upTo : ReadUpTo names table acc (rows ++ [front])) {lines : List Line}
    {written : List (List String)}
    (holds : List.Forall₂ Line.Holds lines (cells.map table.cellWords ++ written)) :
    Yields table.symbols names
      (acc.readCells past table.size rows.length cells.length lines) fun later read =>
        ReadUpTo later table read.1 (rows ++ [front ++ cells]) ∧
          List.Forall₂ Line.Holds read.2 written := by
  induction cells generalizing acc front lines names with
  | nil =>
      rw [List.append_nil]
      exact Naming.yields_pure ⟨upTo, holds⟩
  | cons cell rest ih =>
      obtain ⟨line, others, isCell, areOthers, rfl⟩ := List.forall₂_cons_right_iff.1 holds
      rw [List.length_cons, readCells]
      refine (yields_readCell (named cell List.mem_cons_self) (writable cell List.mem_cons_self)
        small isCell rows.length names).bind ?_
      rintro _ later grows ⟨found, after, rfl, keeps, alike⟩
      have fresh : cell.1 ∉ front.map Prod.fst := by
        rw [List.map_append, List.map_cons] at distinct
        exact fun member => (List.nodup_append.1 distinct).2.2 _ member _ List.mem_cons_self rfl
      rw [List.append_cons] at distinct
      have step := ih (fun other member => named other (List.mem_cons_of_mem _ member))
        (fun other member => writable other (List.mem_cons_of_mem _ member)) distinct
        ((upTo.keeps grows.grown keeps).set alike fresh) areOthers
      rwa [← List.append_cons] at step

theorem readHeader_written {line : Line} {count : Nat} (below : count < Text.countBound)
    (holds : line.Holds ["state", toString count]) : readHeader line = .ok count := by
  rw [readHeader, holds]
  exact readNumber_toString below line.number

/-- The rows are read one by one. -/
theorem yields_readRows (writable : table.Writable) (past : Nat) {rows : List Row}
    (within : ∀ row ∈ rows, row ∈ table.rows) {front : List Row}
    (upTo : ReadUpTo names table acc front) {lines : List Line}
    (holds : List.Forall₂ Line.Holds lines (rows.flatMap table.rowLines)) :
    Yields table.symbols names (acc.readRows past table.size rows.length lines) fun later read =>
      ReadUpTo later table read.1 (front ++ rows) ∧ read.2 = [] := by
  induction rows generalizing acc front lines names with
  | nil =>
      rw [List.append_nil]
      exact Naming.yields_pure ⟨upTo, List.forall₂_nil_right_iff.1 holds⟩
  | cons row rest ih =>
      have member := within row List.mem_cons_self
      obtain ⟨line, others, isHeader, areOthers, rfl⟩ := List.forall₂_cons_right_iff.1 holds
      rw [List.length_cons, readRows, readHeader_written (writable.count_lt row member) isHeader]
      have size : acc.size = front.length := upTo.rows.length_eq
      have opened : ReadUpTo names table { acc with rows := acc.rows ++ [[]] } (front ++ [[]]) :=
        ⟨List.rel_append upTo.rows (.cons .nil .nil), upTo.conflicts⟩
      show Yields _ _ (readCells past table.size acc.size _ row.length others >>= _) _
      rw [size]
      have distinct : (([] ++ row).map Prod.fst).Nodup := writable.distinct row member
      refine (yields_readCells writable.size_lt past (writable.symbol row member)
        (writable.entry row member) distinct opened areOthers).bind ?_
      rintro ⟨read, left⟩ later _ ⟨upToRow, areLeft⟩
      have step := ih (fun other inside => within other (List.mem_cons_of_mem _ inside)) upToRow
        areLeft
      rwa [List.nil_append, ← List.append_cons] at step

/-! ## The whole text -/

/-- Lines that are all kept keep their texts, whatever their numbers are. -/
theorem map_text_filterMap {keep : List Char × Nat → Option Line} {lines : List (List Char)}
    (kept : ∀ line ∈ lines, ∀ number, keep (line, number) = some ⟨number, line⟩) (number : Nat) :
    ((lines.zipIdx number).filterMap keep).map Line.text = lines := by
  induction lines generalizing number with
  | nil => rfl
  | cons line rest ih =>
      rw [List.zipIdx_cons, List.filterMap_cons, kept line List.mem_cons_self]
      exact congrArg _ (ih (fun other member => kept other (List.mem_cons_of_mem _ member)) _)

/-- Lines that are neither blank nor to be trimmed are all kept. -/
theorem map_text_contentLines {lines : List (List Char)}
    (kept : ∀ line ∈ lines, Text.trim line = line ∧ line ≠ []) :
    (contentLines lines).map Line.text = lines := by
  refine map_text_filterMap (fun line member number => ?_) 1
  obtain ⟨trimmed, nonempty⟩ := kept line member
  dsimp only
  rw [trimmed, if_neg fun empty => nonempty (List.isEmpty_iff.1 empty)]

theorem toList_lineText (words : List String) :
    (lineText words).toList = Text.spaced (words.map String.toList) ++ ['\n'] := by
  rw [lineText, String.toList_append, String.toList_intercalate]
  rfl

theorem lines_written {written : List (List String)}
    (areWords : ∀ words ∈ written, AreWords words) :
    Text.lines (String.join (written.map lineText)).toList =
      written.map fun words => Text.spaced (words.map String.toList) := by
  have text : (String.join (written.map lineText)).toList =
      Text.unlines (written.map fun words => Text.spaced (words.map String.toList)) := by
    rw [String.toList_join, Text.unlines, List.flatMap_map, List.flatMap_map]
    exact List.flatMap_congr fun words _ => toList_lineText words
  rw [text]
  refine Text.lines_unlines fun line member => ?_
  obtain ⟨words, isWritten, rfl⟩ := List.mem_map.1 member
  refine Text.newline_not_mem_spaced fun word inside => ?_
  obtain ⟨name, isName, rfl⟩ := List.mem_map.1 inside
  exact (areWords words isWritten).2 name isName

/-- The written lines are found, each with its words. -/
theorem contentLines_written {written : List (List String)}
    (areWords : ∀ words ∈ written, AreWords words) :
    List.Forall₂ (fun line words => line.text = Text.spaced (words.map String.toList) ∧
        line.Holds words)
      (contentLines (Text.lines (String.join (written.map lineText)).toList)) written := by
  have eachWord {words : List String} (isWritten : words ∈ written) :
      ∀ word ∈ words.map String.toList, Text.IsWord word := by
    intro word member
    obtain ⟨name, isName, rfl⟩ := List.mem_map.1 member
    exact (areWords words isWritten).2 name isName
  have kept : ∀ line ∈ written.map fun words => Text.spaced (words.map String.toList),
      Text.trim line = line ∧ line ≠ [] := by
    intro line member
    obtain ⟨words, isWritten, rfl⟩ := List.mem_map.1 member
    refine ⟨Text.trim_spaced (eachWord isWritten), Text.spaced_ne_nil (eachWord isWritten) ?_⟩
    exact fun none => (areWords words isWritten).1 (List.map_eq_nil_iff.1 none)
  rw [lines_written areWords]
  have texts := map_text_contentLines kept
  rw [← List.forall₂_eq_eq_eq, List.forall₂_map_left_iff, List.forall₂_map_right_iff] at texts
  refine List.forall₂_iff_zip.2 ⟨texts.length_eq, fun {line words} member => ?_⟩
  have text := List.forall₂_zip texts member
  refine ⟨text, ?_⟩
  rw [Line.Holds, text, Text.words_spaced (eachWord (List.of_mem_zip member).2)]

/-- The text of a table is read, and a table alike comes out. -/
theorem Writable.yields_parse (writable : table.Writable) (names : SymbolTable) :
    Yields table.symbols names (parse (String.join (table.tableLines.map lineText)))
      fun later again => again.symbols = later ∧ again.Alike table ∧ again.conflicts = [] := by
  obtain ⟨line, others, ⟨isSize, _⟩, areOthers, contents⟩ :=
    List.forall₂_cons_right_iff.1 (contentLines_written writable.legible.areWords)
  rw [tableLines, parse]
  dsimp only
  rw [contents]
  dsimp only
  rw [isSize, List.map_singleton, Text.spaced, List.intercalate_singleton,
    readNumber_toString writable.size_lt]
  show Yields _ _ (readRows _ table.size _ table.size others >>= _) _
  have empty : ReadUpTo names table (blank SymbolTable.initial [] 0) [] := ⟨.nil, rfl⟩
  refine (yields_readRows writable _ (fun _ member => member) empty
    (areOthers.imp fun _ _ both => both.2)).bind ?_
  rintro ⟨read, left⟩ later _ ⟨upTo, none⟩
  cases none
  exact ⟨{ read with symbols := later }, later, rfl, .refl _ _, rfl, upTo.rows, upTo.conflicts⟩

/-- The text of a table is read back. With all names of the table the same table comes out, without
conflicts, and no name is added; with any other names a table with the same text comes out. -/
theorem Writable.parse_text (writable : table.Writable) :
    ∃ text, table.text? = some text ∧
      (∀ names : SymbolTable, names.Extends table.symbols → ∃ again,
        (parse text).outcome names = (.ok again, names) ∧
        sameCells again table = true ∧ sameCells table again = true ∧
        again.conflicts = [] ∧ again.text? = some text) ∧
      ∀ names : SymbolTable, ∃ again later, (parse text).outcome names = (.ok again, later) ∧
        later.Extends names ∧ again.text? = some text := by
  refine ⟨_, writable.legible.text?_eq, fun names has => ?_, fun names => ?_⟩
  · obtain ⟨again, later, read, grows, rfl, alike, clean⟩ := writable.yields_parse names
    have unchanged := grows.unchanged has
    rw [unchanged] at read
    obtain ⟨same, same'⟩ := alike.sameCells (unchanged ▸ has) writable.distinct
    exact ⟨again, read, same, same', clean, alike.text?_eq.trans writable.legible.text?_eq⟩
  · obtain ⟨again, later, read, grows, rfl, alike, _⟩ := writable.yields_parse names
    exact ⟨again, _, read, grows.grown, alike.text?_eq.trans writable.legible.text?_eq⟩

/-- A table with names that look like other parts of the text, and with two equal rules. -/
def lookalikes : Table where
  symbols := ⟨Symbol.reservedNames ++ ["state", ":=", "__CHAIN__"], by decide, by decide⟩
  rules := [.ofOptions ⟨3⟩ [] [] true false,
    .ofOptions ⟨3⟩ [⟨3⟩, ⟨4⟩, ⟨5⟩] [.default, .discard, .unwrap] true true,
    .ofOptions ⟨3⟩ [] [] true false]
  rows := [[(⟨4⟩, .reduce 2), (⟨3⟩, .goto 1), (⟨5⟩, .shift 1)], [(⟨1⟩, .accept), (⟨4⟩, .reduce 1)],
    [(⟨1⟩, .reduce 0)]]
  conflicts := []

theorem parse_text_lookalikes :
    lookalikes.Writable ∧ ∃ text, lookalikes.text? = some text ∧
      (∀ names : SymbolTable, names.Extends lookalikes.symbols → ∃ again,
        (parse text).outcome names = (.ok again, names) ∧
        sameCells again lookalikes = true ∧ sameCells lookalikes again = true ∧
        again.conflicts = [] ∧ again.text? = some text) ∧
      ∀ names : SymbolTable, ∃ again later, (parse text).outcome names = (.ok again, later) ∧
        later.Extends names ∧ again.text? = some text := by
  have writable : lookalikes.Writable :=
    ⟨by decide, by decide, by unfold RowsDistinct; decide, by decide, by decide⟩
  exact ⟨writable, writable.parse_text⟩

end ParserGenerator.Table
