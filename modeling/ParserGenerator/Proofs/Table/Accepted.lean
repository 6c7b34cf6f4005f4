import ParserGenerator.Proofs.Table.RoundTrip

/-!
# What the reader of tables accepts

Many more texts are accepted than are written: with blank lines and blanks of any kind, signs and
zeros in front of numbers, cells that are written again, empty words between options, and flags that
are repeated or in any order. Whatever is accepted makes a table that can be written. All its names
were words of the text, none of its left-hand sides was taken for a flag, its entries lead to states
that it has, its reductions are by rules that it has, and it has no more cells in a row than were
counted. So its text is read back, with the names that it has registered already.

While the table is being read, its rows are those that were read, the last of them as far as it was
read. Each step of the reader adds names and rules and keeps those that are there.

Results: `Table.ensures_parse` and `Table.stable_of_parse`.
-/

namespace ParserGenerator

open Naming (Ensures)

variable {names later : SymbolTable}

/-! ## Definitions -/

namespace Table

/-- The cell of a table that has some rules and is to have `size` states: its symbol is named by a
word, its target is a state and its rule is there. -/
structure CellAccepted (names : SymbolTable) (rules : List Rule) (size : Nat)
    (cell : Symbol × Entry) : Prop where
  symbol : names.NamesWord cell.1
  target : ∀ next ∈ cell.2.target?, next < size
  rule : ∀ id, cell.2 = .reduce id → ∃ rule, rules[id]? = some rule

/-- A row with one cell for a symbol, and all cells accepted. -/
structure RowAccepted (names : SymbolTable) (rules : List Rule) (size : Nat) (row : Row) :
    Prop where
  distinct : (row.map Prod.fst).Nodup
  cell : ∀ cell ∈ row, CellAccepted names rules size cell

/-- A table as far as it was read. -/
structure Accepted (names : SymbolTable) (size : Nat) (table : Table) : Prop where
  rule : ∀ rule ∈ table.rules, RuleWritable names rule
  row : ∀ row ∈ table.rows, RowAccepted names table.rules size row

/-- All numbers and symbols in the table have a meaning: entries lead to states and reduce by rules
of the table, rules have an option for each position, and all symbols have names. -/
structure Sound (table : Table) : Prop where
  target : ∀ row ∈ table.rows, ∀ cell ∈ row, ∀ next ∈ cell.2.target?, next < table.size
  rule : ∀ row ∈ table.rows, ∀ cell ∈ row, ∀ id, cell.2 = .reduce id →
    ∃ rule, table.rule? id = some rule
  options : ∀ rule ∈ table.rules, rule.options.length = rule.rhs.length
  cell_named : ∀ row ∈ table.rows, ∀ cell ∈ row, table.symbols.HasName cell.1
  lhs_named : ∀ rule ∈ table.rules, table.symbols.HasName rule.lhs
  rhs_named : ∀ rule ∈ table.rules, ∀ symbol ∈ rule.rhs, table.symbols.HasName symbol

variable {acc : Table} {rule : Rule} {rules more : List Rule} {size : Nat}

/-! ## What stays accepted -/

theorem RowAccepted.mono {row : Row} (accepted : RowAccepted names rules size row)
    (grown : later.Extends names) (longer : rules <+: more) : RowAccepted later more size row where
  distinct := accepted.distinct
  cell cell inside := by
    obtain ⟨symbol, target, hasRule⟩ := accepted.cell cell inside
    refine ⟨symbol.mono grown, target, fun id isReduce => ?_⟩
    obtain ⟨rule, found⟩ := hasRule id isReduce
    exact ⟨rule, getElem?_of_isPrefix longer found⟩

theorem Accepted.mono (accepted : acc.Accepted names size) (grown : later.Extends names) :
    acc.Accepted later size :=
  ⟨fun rule member => (accepted.rule rule member).mono grown,
    fun row member => (accepted.row row member).mono grown (List.prefix_refl _)⟩

/-! ## Rules -/

theorem readFlags_suffix (chained unwrapsSingle : Bool) (words : List (List Char)) :
    (readFlags chained unwrapsSingle words).2.2 <:+ words := by
  induction words generalizing chained unwrapsSingle with
  | nil => exact List.suffix_refl []
  | cons word rest ih =>
      rw [readFlags]
      split
      · exact (ih _ _).trans (List.suffix_cons word rest)
      · split
        · exact (ih _ _).trans (List.suffix_cons word rest)
        · exact List.suffix_refl _

/-- No flag is left in front of a rule. -/
theorem readFlags_head? (chained unwrapsSingle : Bool) (words : List (List Char)) :
    ∀ word ∈ (readFlags chained unwrapsSingle words).2.2.head?,
      word ≠ chainFlag.toList ∧ word ≠ unwrapFlag.toList := by
  induction words generalizing chained unwrapsSingle with
  | nil => exact fun word isHead => nomatch isHead
  | cons first rest ih =>
      rw [readFlags]
      split
      · exact ih _ _
      · split
        · exact ih _ _
        · intro word isHead
          cases isHead
          exact ⟨‹_›, ‹_›⟩

/-- A rule whose names are spelled by words can be written if the first of them is no flag. -/
theorem ruleWritable_of_words {lhs : List Char} {rhs : List (List Char)}
    (areWords : ∀ word ∈ lhs :: rhs, Text.IsWord word)
    (notFlag : lhs ≠ chainFlag.toList ∧ lhs ≠ unwrapFlag.toList)
    (isLhs : names.name? rule.lhs = some (String.ofList lhs))
    (areRhs : ∀ symbol ∈ rule.rhs, ∃ name ∈ rhs.map String.ofList,
      names.name? symbol = some name) : RuleWritable names rule where
  lhs := SymbolTable.namesWord_of_word isLhs (areWords lhs List.mem_cons_self)
  rhs symbol member := by
    obtain ⟨name, isName, named⟩ := areRhs symbol member
    obtain ⟨word, inRhs, rfl⟩ := List.mem_map.1 isName
    exact SymbolTable.namesWord_of_word named (areWords word (List.mem_cons_of_mem _ inRhs))
  not_flag := by
    rw [SymbolTable.display_of_name? isLhs]
    refine ⟨fun same => notFlag.1 ?_, fun same => notFlag.2 ?_⟩
    · rw [← same, String.toList_ofList]
    · rw [← same, String.toList_ofList]

/-- A rule that is read can be written. -/
theorem ensures_readRule {words : List (List Char)} (areWords : ∀ word ∈ words, Text.IsWord word)
    (line : Nat) (optionsWord : List Char) (names : SymbolTable) :
    Ensures names (readRule line optionsWord words) RuleWritable := by
  have suffix := readFlags_suffix false false words
  have head := readFlags_head? false false words
  unfold readRule
  split
  · exact Naming.ensures_throw _
  · dsimp only
    split
    · exact Naming.ensures_throw _
    · generalize readFlags false false words = flags at suffix head
      obtain ⟨chained, unwrapsSingle, rest⟩ := flags
      dsimp only at suffix head ⊢
      split
      · rename_i lhs rhs
        have areSpelled : ∀ word ∈ lhs :: rhs, Text.IsWord word := by
          intro word member
          refine areWords word (suffix.subset ?_)
          exact (List.mem_cons.1 member).elim (· ▸ List.mem_cons_self) fun inRhs =>
            List.mem_cons_of_mem _ (List.mem_cons_of_mem _ inRhs)
        refine (Naming.ensures_intern _ names).bind fun symbol middle _ isLhs => ?_
        split
        · refine (Naming.ensures_internAll _ middle).bind fun symbols last grown areRhs => ?_
          exact Naming.ensures_pure
            (ruleWritable_of_words areSpelled (head lhs rfl) (grown.name? isLhs) areRhs)
        · exact Naming.ensures_throw _
      · exact Naming.ensures_throw _

/-! ## Entries -/

theorem mem_rules_ruleId {other : Rule} (member : other ∈ (acc.ruleId rule).2.rules) :
    other ∈ acc.rules ∨ other = rule := by
  unfold ruleId at member
  split at member
  · exact .inl member
  · exact (List.mem_append.1 member).imp_right List.mem_singleton.1

/-- What reading an entry adds to a table: its rule. -/
structure EntryRead (names : SymbolTable) (acc : Table) (read : Entry × Table) : Prop where
  keeps : Keeps acc read.2
  rules : ∀ rule ∈ read.2.rules, RuleWritable names rule
  rule : ∀ id, read.1 = .reduce id → ∃ rule, read.2.rules[id]? = some rule

theorem ensures_readEntry (writable : ∀ rule ∈ acc.rules, RuleWritable names rule) (line : Line)
    (action : String) {words : List (List Char)} (areWords : ∀ word ∈ words, Text.IsWord word) :
    Ensures names (readEntry acc line action words) fun later read => EntryRead later acc read := by
  have unchanged {later : SymbolTable} (grown : later.Extends names) {entry : Entry}
      (other : ∀ id, entry ≠ .reduce id) : EntryRead later acc (entry, acc) :=
    ⟨.refl acc, fun rule member => (writable rule member).mono grown,
      fun id isReduce => absurd isReduce (other id)⟩
  have number (next : List Char) : Ensures names
      (liftM (readNumber Text.stateBound line.number next) : Naming TextError Nat)
      fun _ _ => True := Naming.ensures_lift fun _ _ => trivial
  unfold readEntry
  split
  · refine (number _).bind fun next later grown _ => ?_
    exact Naming.ensures_pure (unchanged grown fun _ => Entry.noConfusion)
  · refine (number _).bind fun next later grown _ => ?_
    exact Naming.ensures_pure (unchanged grown fun _ => Entry.noConfusion)
  · exact Naming.ensures_pure (unchanged (.refl names) fun _ => Entry.noConfusion)
  · have areBehind := (List.forall_mem_cons.1 areWords).2
    refine (ensures_readRule areBehind line.number _ names).bind fun rule later grown isRule => ?_
    obtain ⟨found, longer, rows, conflicts⟩ := acc.ruleId_spec rule
    refine Naming.ensures_pure ⟨⟨longer, rows, conflicts⟩, fun other member => ?_, ?_⟩
    · rcases mem_rules_ruleId member with old | rfl
      · exact (writable other old).mono grown
      · exact isRule
    · intro id isReduce
      cases isReduce
      exact ⟨rule, found⟩
  · split
    · exact Naming.ensures_throw _
    · exact Naming.ensures_throw _

/-! ## Cells -/

/-- Writing to the last state changes the last row alone. -/
theorem rows_set_concat {front : List Row} {row : Row} (isRows : acc.rows = front ++ [row])
    (symbol : Symbol) (entry : Entry) :
    (acc.set front.length symbol entry).rows = front ++ [row.put symbol entry] := by
  have place : acc.rows[front.length]? = some row := by rw [isRows, List.getElem?_concat_length]
  rw [set, place]
  dsimp only
  rw [isRows, List.set_append_right _ _ (Nat.le_refl _), Nat.sub_self]
  rfl

/-- An accepted cell that is written to the last row leaves the table accepted. -/
theorem Accepted.set {front : List Row} {row : Row} (accepted : acc.Accepted names size)
    (isRows : acc.rows = front ++ [row]) {cell : Symbol × Entry}
    (isCell : CellAccepted names acc.rules size cell) :
    (acc.set front.length cell.1 cell.2).Accepted names size := by
  have rules : (acc.set front.length cell.1 cell.2).rules = acc.rules :=
    rules_write acc ⟨front.length, cell.1, cell.2⟩
  have last := accepted.row row (isRows ▸ List.mem_append_right front List.mem_cons_self)
  refine ⟨?_, fun other isRow => ?_⟩
  · rw [rules]
    exact accepted.rule
  · rw [rules]
    rw [rows_set_concat isRows] at isRow
    rcases List.mem_append.1 isRow with before | isLast
    · exact accepted.row other (isRows ▸ List.mem_append_left [row] before)
    · rw [List.mem_singleton.1 isLast]
      refine ⟨?_, fun inside isInside => ?_⟩
      · rw [keys_put]
        exact nodup_withKey last.distinct cell.1
      · rcases mem_put isInside with rfl | old
        · exact isCell
        · exact last.cell inside old

/-- What reading cells of the last row has made of a table. -/
structure CellsRead (names : SymbolTable) (size : Nat) (front : List Row) (length : Nat)
    (acc : Table) : Prop where
  accepted : acc.Accepted names size
  rows : ∃ row : Row, acc.rows = front ++ [row] ∧ row.length ≤ length

theorem ensures_readCell {front : List Row} {length : Nat}
    (sofar : CellsRead names size front length acc) (line : Line) :
    Ensures names (acc.readCell size front.length line) fun later read =>
      CellsRead later size front (length + 1) read := by
  obtain ⟨accepted, row, isRows, short⟩ := sofar
  unfold readCell
  split
  · rename_i symbol action rest isLine
    have areWords : ∀ word ∈ symbol :: action :: rest, Text.IsWord word :=
      fun word member => Text.isWord_of_mem_words (isLine ▸ member)
    obtain ⟨isSymbol, _, areRest⟩ :=
      List.forall_mem_cons.1 areWords |>.imp_right List.forall_mem_cons.1
    refine (Naming.ensures_intern _ names).bind fun symbol first grown named => ?_
    refine (ensures_readEntry (accepted.mono grown).rule line _ areRest).bind ?_
    rintro ⟨entry, after⟩ last grownOn ⟨keeps, writable, hasRule⟩
    have before : after.Accepted last size := by
      refine ⟨writable, fun other isRow => ?_⟩
      exact (accepted.row other (keeps.rows ▸ isRow)).mono (grownOn.trans grown) keeps.rules
    have written (target : ∀ next ∈ entry.target?, next < size) :
        CellsRead last size front (length + 1) (after.set front.length symbol entry) := by
      have isCell : CellAccepted last after.rules size (symbol, entry) :=
        ⟨SymbolTable.namesWord_of_word (grownOn.name? named) isSymbol, target, hasRule⟩
      have isRows' := keeps.rows.trans isRows
      refine ⟨before.set isRows' isCell, _, rows_set_concat isRows' _ _, ?_⟩
      exact Nat.le_trans (length_put_le row symbol entry) (Nat.succ_le_succ short)
    dsimp only
    split
    · rename_i next leads
      split
      · rename_i inside
        refine Naming.ensures_pure (written fun target isTarget => ?_)
        cases leads.symm.trans isTarget
        exact inside
      · exact Naming.ensures_throw _
    · rename_i none
      exact Naming.ensures_pure (written fun target isTarget => nomatch none.symm.trans isTarget)
  · exact Naming.ensures_throw _

theorem ensures_readCells (past : Nat) {front : List Row} {length : Nat}
    (sofar : CellsRead names size front length acc) (count : Nat) (lines : List Line) :
    Ensures names (acc.readCells past size front.length count lines) fun later read =>
      CellsRead later size front (length + count) read.1 := by
  induction count generalizing acc length lines names with
  | zero => exact Naming.ensures_pure sofar
  | succ count ih =>
      cases lines with
      | nil => exact Naming.ensures_throw _
      | cons line rest =>
          rw [readCells, Nat.add_comm count, ← Nat.add_assoc]
          exact (ensures_readCell sofar line).bind fun read _ _ more => ih more rest

/-! ## Rows -/

theorem readNumber_lt {bound line number : Nat} {word : List Char}
    (read : readNumber bound line word = .ok number) : number < bound := by
  unfold readNumber at read
  split at read
  · cases read
    exact Text.readDecimal_lt ‹_›
  · cases read

theorem readHeader_lt {line : Line} {count : Nat} (read : readHeader line = .ok count) :
    count < Text.countBound := by
  unfold readHeader at read
  split at read
  · split at read
    · exact readNumber_lt read
    · cases read
  · cases read

/-- A row is opened without cells. -/
theorem Accepted.opened (accepted : acc.Accepted names size) :
    CellsRead names size acc.rows 0 { acc with rows := acc.rows ++ [[]] } := by
  refine ⟨⟨accepted.rule, fun row isRow => ?_⟩, [], rfl, Nat.le_refl 0⟩
  rcases List.mem_append.1 isRow with before | isLast
  · exact accepted.row row before
  · rw [List.mem_singleton.1 isLast]
    exact ⟨List.nodup_nil, fun cell inside => absurd inside List.not_mem_nil⟩

/-- As many rows are read as were counted, each with no more cells than were counted. -/
theorem ensures_readRows (past : Nat) (accepted : acc.Accepted names size)
    (counted : ∀ row ∈ acc.rows, row.length < Text.countBound) (count : Nat) (lines : List Line) :
    Ensures names (acc.readRows past size count lines) fun later read =>
      read.1.Accepted later size ∧ (∀ row ∈ read.1.rows, row.length < Text.countBound) ∧
        read.1.size = acc.size + count := by
  induction count generalizing acc lines names with
  | zero => exact Naming.ensures_pure ⟨accepted, counted, rfl⟩
  | succ count ih =>
      cases lines with
      | nil => exact Naming.ensures_throw _
      | cons line rest =>
          rw [readRows]
          have header : Ensures names (liftM (readHeader line) : Naming TextError Nat)
              fun _ cells => cells < Text.countBound :=
            Naming.ensures_lift fun _ read => readHeader_lt read
          refine header.bind fun cells first grown below => ?_
          refine (ensures_readCells past (accepted.mono grown).opened cells rest).bind ?_
          rintro ⟨read, left⟩ later _ ⟨isAccepted, row, isRows, short⟩
          have areCounted : ∀ other ∈ read.rows, other.length < Text.countBound := by
            intro other isRow
            rcases List.mem_append.1 (isRows ▸ isRow) with before | isLast
            · exact counted other before
            · rw [List.mem_singleton.1 isLast]
              exact Nat.lt_of_le_of_lt short (Nat.zero_add cells |>.symm ▸ below)
          have size : read.size + count = acc.size + (count + 1) := by
            rw [Table.size, isRows, List.length_append, Nat.add_assoc, Nat.add_comm count]
            rfl
          rw [← size]
          exact ih isAccepted areCounted left

/-! ## Tables -/

/-- A table that was accepted with all its rows can be written. -/
theorem Accepted.writable (accepted : acc.Accepted acc.symbols acc.size)
    (small : acc.size < Text.stateBound)
    (counted : ∀ row ∈ acc.rows, row.length < Text.countBound) : acc.Writable where
  size_lt := small
  count_lt := counted
  distinct row isRow := (accepted.row row isRow).distinct
  symbol row isRow cell inside := ((accepted.row row isRow).cell cell inside).symbol
  entry row isRow cell inside := by
    obtain ⟨_, target, hasRule⟩ := (accepted.row row isRow).cell cell inside
    obtain ⟨symbol, entry⟩ := cell
    cases entry with
    | shift next => exact target next rfl
    | goto next => exact target next rfl
    | accept => trivial
    | reduce id =>
        obtain ⟨rule, found⟩ := hasRule id rfl
        exact ⟨rule, found, accepted.rule rule (List.mem_of_getElem? found)⟩

theorem Accepted.sound (accepted : acc.Accepted acc.symbols acc.size) : acc.Sound where
  target row isRow cell inside := ((accepted.row row isRow).cell cell inside).target
  rule row isRow cell inside := ((accepted.row row isRow).cell cell inside).rule
  options rule _ := rule.options_length
  cell_named row isRow cell inside := ((accepted.row row isRow).cell cell inside).symbol.hasName
  lhs_named rule member := (accepted.rule rule member).lhs.hasName
  rhs_named rule member symbol inRhs := ((accepted.rule rule member).rhs symbol inRhs).hasName

/-- Whatever text is read, its table can be written and has the names that are registered in the
end. -/
theorem ensures_parse (source : String) (names : SymbolTable) :
    Ensures names (parse source) fun later table =>
      table.symbols = later ∧ table.Writable ∧ table.Sound := by
  unfold parse
  dsimp only
  split
  · exact Naming.ensures_throw _
  · rename_i line rest _
    have number : Ensures names
        (liftM (readNumber Text.stateBound line.number line.text) : Naming TextError Nat)
        fun _ size => size < Text.stateBound := Naming.ensures_lift fun _ read => readNumber_lt read
    refine number.bind fun size first _ small => ?_
    have empty : (blank SymbolTable.initial [] 0).Accepted first size :=
      ⟨fun rule member => absurd member List.not_mem_nil,
        fun row member => absurd member List.not_mem_nil⟩
    refine (ensures_readRows _ empty (fun row member => absurd member List.not_mem_nil) size
      rest).bind ?_
    rintro ⟨table, left⟩ second _ ⟨accepted, counted, isSize⟩
    dsimp only at accepted counted isSize ⊢
    split
    · exact Naming.ensures_throw _
    · refine (Naming.ensures_get second).bind fun symbols later grown isLater =>
        Naming.ensures_pure ?_
      cases isLater
      have isSize' : table.size = size := isSize.trans (Nat.zero_add size)
      have whole : { table with symbols }.Accepted symbols table.size := by
        rw [isSize']
        exact ⟨(accepted.mono grown).rule, (accepted.mono grown).row⟩
      exact ⟨rfl, whole.writable (isSize' ▸ small) counted, whole.sound⟩

/-- Whatever text is read, its table is sound and has the names that are registered in the end, and
its own text is read back: to an equal table with the same text, without conflicts, and without
registering a name. -/
theorem stable_of_parse {source : String} {names later : SymbolTable} {table : Table}
    (read : (parse source).outcome names = (.ok table, later)) :
    table.Sound ∧ table.symbols = later ∧ ∃ text, table.text? = some text ∧
      ∃ again, (parse text).outcome later = (.ok again, later) ∧
        sameCells again table = true ∧ sameCells table again = true ∧
        again.conflicts = [] ∧ again.text? = some text := by
  obtain ⟨_, rfl, writable, sound⟩ := ensures_parse source names table later read
  have isText := writable.legible.text?_eq
  obtain ⟨again, last, readBack, grows, rfl, alike, clean⟩ := writable.yields_parse table.symbols
  have unchanged : again.symbols = table.symbols := grows.unchanged (.refl table.symbols)
  have known : again.symbols.Extends table.symbols := unchanged ▸ .refl table.symbols
  obtain ⟨same, same'⟩ := alike.sameCells known writable.distinct
  rw [unchanged] at readBack
  exact ⟨sound, rfl, _, isText, again, readBack, same, same', clean, alike.text?_eq.trans isText⟩

/-- A text that is accepted but never written: with blank lines and signs, with a cell that is
written again, and with options and flags that are empty, repeated or turned round. -/
def looseText : String :=
  "\n  +02\n\nstate\t4\n x  shift 0\nx shift +1\n\nS goto 01\n__EOF__ accept\n" ++
    "  state 3\ny reduce [,wrap,,] __UNWRAP__ __CHAIN__ __UNWRAP__ S := x\n\n" ++
    "__EOF__ reduce [wrap] __CHAIN__ __UNWRAP__ S := x\nz reduce [] S :=\n\n"

theorem stable_of_parse_loose :
    ∃ table later, (parse looseText).outcome SymbolTable.initial = (.ok table, later) ∧
      table.conflicts.length = 1 ∧ table.rules.length = 2 ∧
      table.Sound ∧ table.symbols = later ∧ ∃ text, table.text? = some text ∧
        ∃ again, (parse text).outcome later = (.ok again, later) ∧
          sameCells again table = true ∧ sameCells table again = true ∧
          again.conflicts = [] ∧ again.text? = some text := by
  have made : ((parse looseText).outcome SymbolTable.initial).1.map
      (fun table => (table.conflicts.length, table.rules.length)) = .ok (1, 2) := by
    decide +kernel
  cases read : (parse looseText).outcome SymbolTable.initial with
  | mk result later =>
      rw [read] at made
      cases result with
      | error error => cases made
      | ok table =>
          obtain ⟨conflicts, rules⟩ := Prod.mk.inj (Except.ok.inj made)
          exact ⟨table, later, rfl, conflicts, rules, stable_of_parse read⟩

end Table

end ParserGenerator
