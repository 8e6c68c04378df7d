import Vsql.Import.Tokens

/-!
# The statement for a batch of rows

The tokens of an INSERT are those of its rows, and those of a row are the tokens of its
cells: one literal or one CAST for each of them.
-/

namespace Vsql

open Lexer Identifier

variable {normalizeNfc : Text → Text}

/-! ## Rows -/

def CellIs (normalizeNfc : Text → Text) (cell : ImportColumn × ImportCell)
    (tokens : List Token) : Prop :=
  if cell.2.kind = .null then tokens = [keyword "NULL"]
  else CellTokens normalizeNfc cell.1.typ cell.2.value tokens

/-- A list in parentheses, with the tokens of one cell after another. -/
inductive RowTokens (normalizeNfc : Text → Text) (columns : List ImportColumn)
    (row : List ImportCell) : List Token → Prop
  | default (h : importCells columns row = []) :
      RowTokens normalizeNfc columns row [leftParen, keyword "DEFAULT", rightParen]
  | cells (items : List (List Token)) (h : importCells columns row ≠ [])
      (hitems : List.Forall₂ (CellIs normalizeNfc) (importCells columns row) items) :
      RowTokens normalizeNfc columns row
        (leftParen :: ([commaToken].intercalate items ++ [rightParen]))

/-- The texts of the cells can be in an INSERT. -/
def RowImportable (columns : List ImportColumn) (row : List ImportCell) : Prop :=
  ∀ cell ∈ importCells columns row, cell.2.kind ≠ .null → Importable cell.1.typ cell.2.value

theorem itemReads_cellText {cell : ImportColumn × ImportCell}
    (h : cell.2.kind ≠ .null → Importable cell.1.typ cell.2.value) :
    ∃ tokens, CellIs normalizeNfc cell tokens ∧ ItemReads normalizeNfc (cellText cell) tokens := by
  unfold CellIs cellText
  by_cases hnull : cell.2.kind = .null
  · rw [if_pos hnull]
    have hread : ItemReads normalizeNfc "NULL".toList [keyword "NULL"] := itemReads_keyword rfl
    exact ⟨_, by rw [if_pos hnull], hread⟩
  · rw [if_neg hnull]
    simpa [hnull] using itemReads_sqlLiteral (h hnull)

theorem forall₂_itemReads {cells : List (ImportColumn × ImportCell)}
    (h : ∀ cell ∈ cells, cell.2.kind ≠ .null → Importable cell.1.typ cell.2.value) :
    ∃ items, List.Forall₂ (CellIs normalizeNfc) cells items ∧
      List.Forall₂ (ItemReads normalizeNfc) (cells.map cellText) items := by
  induction cells with
  | nil => exact ⟨[], .nil, .nil⟩
  | cons cell cells ih =>
      obtain ⟨items, hitems, hreads⟩ := ih fun c hc => h c (by simp [hc])
      obtain ⟨tokens, htokens, hread⟩ := itemReads_cellText (h cell (by simp))
      exact ⟨tokens :: items, .cons htokens hitems, .cons hread hreads⟩

theorem itemReads_row {columns : List ImportColumn} {row : List ImportCell}
    (h : RowImportable columns row) (first : ImportColumn) :
    ∃ tokens, RowTokens normalizeNfc columns row tokens ∧
      ItemReads normalizeNfc (importRow columns row first).values tokens := by
  have hparens : ∀ {text tokens}, ItemReads normalizeNfc text tokens →
      ItemReads normalizeNfc ('(' :: (text ++ [')'])) (leftParen :: (tokens ++ [rightParen])) :=
    fun hread => ⟨fun rest _ => itemReads_parens hread rest, endsIs_parens _⟩
  by_cases hcells : importCells columns row = []
  · have hdefault : ItemReads normalizeNfc "DEFAULT".toList [keyword "DEFAULT"] :=
      itemReads_keyword rfl
    have hread := hparens hdefault
    refine ⟨_, .default hcells, ?_⟩
    simpa [importRow, hcells] using hread
  · obtain ⟨items, hitems, hreads⟩ := forall₂_itemReads h
    refine ⟨_, .cells items hcells hitems, ?_⟩
    have hread := hparens (itemReads_joinComma hreads (by simpa using hcells))
    simpa [importRow, hcells] using hread

/-! ## Names -/

def rowNames (columns : List ImportColumn) (row : List ImportCell) (first : ImportColumn) :
    List Text :=
  if importCells columns row = [] then [first.name]
  else (importCells columns row).map (·.1.name)

def nameTokens (names : List Text) : List Token :=
  [commaToken].intercalate (names.map fun name => [partToken name])

/-- A name that is not one of those inside of the engine. -/
def NameIsRead (name : Text) : Prop := name ≠ [] ∧ name.head? ≠ some '$'

theorem sqlName_eq (c : ImportColumn) (h : NameIsRead c.name) :
    c.sqlName = requoteIdentifier c.name := by
  simp [ImportColumn.sqlName, Identifier.str, Identifier.parts, h.1]

theorem adds_of_reads {text : Text} {token : Token} {rest : Text}
    (h : ∀ tokens, Reads normalizeNfc text tokens (tokens ++ [token]) rest) :
    Adds normalizeNfc text [token] rest := fun tokens _ => h tokens

theorem EndsItem.ends {rest : Text} (h : EndsItem rest) : Ends rest := by
  refine ⟨h.breaks, fun hquote => ?_⟩
  obtain h | h := h '"' hquote <;> cases h

theorem endsIs_partToken {name : Text} (h : name.head? ≠ some '$') :
    endsIs [partToken name] = false := by
  have htext := identifierText_partToken name h
  simp only [endsIs, List.getLast?_singleton, Option.any_some, List.contains_cons,
    List.contains_nil, Bool.or_false, Bool.or_eq_false_iff, beq_eq_false_iff_ne]
  exact ⟨ne_of_identifierText htext (by decide +kernel) (by decide),
    ne_of_identifierText htext (by decide +kernel) (by decide)⟩

theorem itemReads_name {name : Text} (h : NameIsRead name) :
    ItemReads normalizeNfc (requoteIdentifier name) [partToken name] where
  adds _ hrest := adds_of_reads fun _ => reads_requoteIdentifier h.1 h.2 hrest.ends
  endsIs := endsIs_partToken h.2

theorem forall₂_itemReads_names {names : List Text} (h : ∀ name ∈ names, NameIsRead name) :
    List.Forall₂ (ItemReads normalizeNfc) (names.map requoteIdentifier)
      (names.map fun name => [partToken name]) := by
  rw [List.forall₂_map_left_iff, List.forall₂_map_right_iff]
  exact List.forall₂_same.mpr fun name hname => itemReads_name (h name hname)

theorem nameIsRead_rowNames {columns : List ImportColumn} {row : List ImportCell}
    {first : ImportColumn} (h : ∀ column ∈ first :: columns, NameIsRead column.name) :
    ∀ name ∈ rowNames columns row first, NameIsRead name := by
  intro name hname
  unfold rowNames at hname
  split at hname
  · rw [List.mem_singleton.mp hname]
    exact h first (by simp)
  · obtain ⟨cell, hcell, rfl⟩ := List.mem_map.mp hname
    have hcolumn := (List.of_mem_zip (List.mem_filter.mp hcell).1).1
    exact h cell.1 (List.mem_cons_of_mem _ hcolumn)

theorem importRow_names {columns : List ImportColumn} {row : List ImportCell}
    {first : ImportColumn} (h : ∀ column ∈ first :: columns, NameIsRead column.name) :
    (importRow columns row first).names =
      joinComma ((rowNames columns row first).map requoteIdentifier) := by
  by_cases hcells : importCells columns row = []
  · simp [importRow, rowNames, hcells, joinComma, sqlName_eq first (h first (by simp))]
  · simp only [importRow, rowNames, hcells, if_false, List.map_map]
    congr 1
    refine List.map_congr_left fun cell hcell => ?_
    have hcolumn := (List.of_mem_zip (List.mem_filter.mp hcell).1).1
    exact sqlName_eq cell.1 (h cell.1 (List.mem_cons_of_mem _ hcolumn))

theorem itemReads_names {columns : List ImportColumn} {row : List ImportCell}
    {first : ImportColumn} (h : ∀ column ∈ first :: columns, NameIsRead column.name) :
    ItemReads normalizeNfc (importRow columns row first).names
      (nameTokens (rowNames columns row first)) := by
  rw [importRow_names h]
  refine itemReads_joinComma (forall₂_itemReads_names (nameIsRead_rowNames h)) ?_
  unfold rowNames
  split <;> simp_all

/-! ## Words that stay -/

theorem words_phrase {p : TypePhrase} (h : p.IsRead) : Words p.tokens := by
  obtain ⟨hfirst, hwords, hothers⟩ := h
  have hkeyword : Words ([p.first].map keyword) := words_keywords (by simpa using hfirst)
  have hsizes : Words ([commaToken].intercalate (p.sizes.map fun n => [(natDigits n).token])) := by
    refine Words.intercalate (by decide) fun item hitem => ?_
    obtain ⟨n, -, rfl⟩ := List.mem_map.mp hitem
    simp [Words, Digits.token, isPlaceWord, isName]
  rw [TypePhrase.tokens, words_cons, words_append, words_append]
  refine ⟨hkeyword _ (by simp), words_keywords hwords, ?_, words_keywords hothers⟩
  split
  · simp [Words]
  · rw [words_cons, words_append]
    exact ⟨by decide, hsizes, by decide⟩

theorem CellTokens.words {typ : DataType} {value : Text} {tokens : List Token}
    (h : CellTokens normalizeNfc typ value tokens) : Words tokens := by
  have hkeyword : ∀ {word}, importWords.contains word → isPlaceWord (keyword word) = false :=
    fun {word} hword => @words_keywords [word]
      (by simpa using isKeyword_of_mem hword) _ (by simp)
  cases h with
  | string => simp [Words, words_string]
  | number _ n => exact words_number n
  | truth _ word hword =>
      have hmem : importWords.contains word := by
        simp only [List.mem_cons, List.not_mem_nil, or_false] at hword
        obtain rfl | rfl | rfl := hword <;> rfl
      simp [Words, hkeyword hmem]
  | cast =>
      simp only [castTokens, words_cons, words_append]
      exact ⟨hkeyword rfl, by decide, words_string _, hkeyword rfl, words_phrase typ.phrase_isRead,
        by decide, by simp [Words]⟩

theorem words_of_cells {cells : List (ImportColumn × ImportCell)} {items : List (List Token)}
    (h : List.Forall₂ (CellIs normalizeNfc) cells items) : ∀ item ∈ items, Words item := by
  induction h with
  | nil => simp
  | @cons cell item cells items hcell _ ih =>
      have hitem : Words item := by
        unfold CellIs at hcell
        split at hcell
        · rw [hcell]
          exact @words_keywords ["NULL"] (by simpa using isKeyword_of_mem rfl)
        · exact hcell.words
      simpa using ⟨hitem, ih⟩

theorem RowTokens.words {columns : List ImportColumn} {row : List ImportCell}
    {tokens : List Token} (h : RowTokens normalizeNfc columns row tokens) : Words tokens := by
  cases h with
  | default => decide
  | cells items _ hitems =>
      simp only [words_cons, words_append]
      exact ⟨by decide, Words.intercalate (by decide) (words_of_cells hitems), by decide,
        by simp [Words]⟩

theorem words_of_rows {columns : List ImportColumn} {first : ImportColumn}
    {rows : List (List ImportCell)} {items : List (List Token)}
    (h : List.Forall₂ (fun row tokens => RowTokens normalizeNfc columns row tokens ∧
      ItemReads normalizeNfc (importRow columns row first).values tokens) rows items) :
    ∀ item ∈ items, Words item := by
  induction h with
  | nil => simp
  | cons hrow _ ih => simpa using ⟨hrow.1.words, ih⟩

/-! ## The statement -/

def tableTokens (table : Identifier) : List Token :=
  (table.parts.map partToken).intersperse period

def insertTokens (table names : List Token) (rows : List (List Token)) : List Token :=
  [keyword "INSERT", keyword "INTO"] ++ (table ++ ([leftParen] ++ (names ++
    ([rightParen, keyword "VALUES"] ++ [commaToken].intercalate rows))))

/-- A name between these tokens is in a list, or is the name of a table. -/
theorem place_of_separators {before after : List Token} {last next : Token}
    (hlast : last.token ∈ ["INTO", "OPERATOR_COMMA", "OPERATOR_LEFT_PAREN"])
    (hnext : next.token ∈ ["OPERATOR_COMMA", "OPERATOR_LEFT_PAREN", "OPERATOR_RIGHT_PAREN"])
    (hcall : startsCall (next :: after) = false) : Place (last :: before) (next :: after) where
  apart := by
    have hvalue : last.token ≠ "NOT" ∧ endsValue last = false := by
      unfold endsValue
      simp only [List.mem_cons, List.not_mem_nil, or_false] at hlast
      obtain h | h | h := hlast <;> rw [h] <;> decide +kernel
    rintro _ ⟨⟩ _ ⟨⟩
    exact .inl hvalue
  noLimit := by
    simp only [List.mem_cons, List.not_mem_nil, or_false] at hnext
    constructor
    · obtain h | h | h := hnext <;> simp [startsLiteral, h]
    · rintro _ ⟨⟩ _ ⟨⟩ hsign
      obtain h | h | h := hnext <;> simp [h] at hsign
  noCall := hcall

theorem stays_names {names : List Text} {before after : List Token} {last : Token}
    (hlast : last.token ∈ ["INTO", "OPERATOR_COMMA", "OPERATOR_LEFT_PAREN"])
    (h : ∀ before, Stays before (rightParen :: after)) :
    Stays (last :: before) (nameTokens names ++ rightParen :: after) := by
  induction names generalizing last before with
  | nil => simpa [nameTokens, List.intercalate] using h _
  | cons name names ih =>
      cases names with
      | nil =>
          have hplace : Place (last :: before) (rightParen :: after) :=
            place_of_separators hlast (by decide) (by cases after <;> rfl)
          simpa [nameTokens] using ⟨.inr (.inl hplace), h _⟩
      | cons next names =>
          have hothers : Stays (commaToken :: partToken name :: last :: before)
              (nameTokens (next :: names) ++ rightParen :: after) := ih (by decide)
          have htokens : nameTokens (name :: next :: names) ++ rightParen :: after =
              partToken name :: commaToken ::
                (nameTokens (next :: names) ++ rightParen :: after) := by
            simp [nameTokens, List.intercalate_cons_cons]
          have hplace : Place (last :: before)
              (commaToken :: (nameTokens (next :: names) ++ rightParen :: after)) := by
            refine place_of_separators hlast (by decide) ?_
            cases nameTokens (next :: names) <;> simp [startsCall, commaToken]
          rw [htokens]
          exact ⟨.inr (.inl hplace), .inl (by decide), hothers⟩

/-- The names and the words of an INSERT stay as they are. -/
theorem stays_insertTokens {table : Identifier} {names : List Text} {rows : List (List Token)}
    (htable : ∀ part ∈ table.parts, part.head? ≠ some '$') (hnames : names ≠ [])
    (hread : ∀ name ∈ names, NameIsRead name) (hrows : ∀ row ∈ rows, Words row) :
    Stays [] (insertTokens (tableTokens table) (nameTokens names) rows) := by
  have hne : ∀ {part : Text}, part.head? ≠ some '$' →
      (partToken part).token ≠ "LITERAL_NUMBER" ∧
        (partToken part).token ≠ "OPERATOR_RIGHT_PAREN" := fun {part} hpart =>
    have htext := identifierText_partToken part hpart
    ⟨ne_of_identifierText htext (by decide +kernel) (by decide),
      ne_of_identifierText htext (by decide +kernel) (by decide)⟩
  have hrest : ∀ before, Stays before
      (rightParen :: keyword "VALUES" :: [commaToken].intercalate rows) := by
    refine Words.stays ?_
    rw [words_cons, words_cons]
    exact ⟨by decide, by decide, Words.intercalate (by decide) hrows⟩
  have hcall : ∀ after, startsCall (leftParen :: (nameTokens names ++ after)) = false := by
    intro after
    cases names with
    | nil => exact absurd rfl hnames
    | cons name names =>
        have hname := (hne (hread name (by simp)).2).2
        cases names <;> simp [nameTokens, List.intercalate_cons_cons, startsCall, hname]
  have hplace : Place [keyword "INTO", keyword "INSERT"] (leftParen :: (nameTokens names ++
      (rightParen :: keyword "VALUES" :: [commaToken].intercalate rows))) :=
    place_of_separators (by decide) (by decide) (hcall _)
  refine Stays.append_of_words (by decide) (Stays.append_of_names
    (fun part hpart => (hne (htable part hpart)).1) hplace ⟨.inl (by decide), ?_⟩)
  exact stays_names (by decide) hrest

/-! ## Reading the statement -/

theorem adds_table {table : Identifier.Name} (h : ∀ part ∈ table.parts, part.head? ≠ some '$')
    {rest : Text} (hrest : Ends rest) :
    Adds normalizeNfc table.str (tableTokens table.toIdentifier) rest := by
  intro tokens _
  rw [table.str_eq]
  exact reads_intercalate table.parts_ne
    (fun part hpart tokens rest hends =>
      reads_requoteIdentifier (Name.ne_nil_of_mem_parts hpart) (h part hpart) hends) hrest

theorem forall₂_itemReads_rows {columns : List ImportColumn} (first : ImportColumn)
    {rows : List (List ImportCell)} (h : ∀ row ∈ rows, RowImportable columns row) :
    ∃ items, List.Forall₂ (fun row tokens => RowTokens normalizeNfc columns row tokens ∧
      ItemReads normalizeNfc (importRow columns row first).values tokens) rows items := by
  induction rows with
  | nil => exact ⟨[], .nil⟩
  | cons row rows ih =>
      obtain ⟨items, hitems⟩ := ih fun r hr => h r (by simp [hr])
      obtain ⟨tokens, htokens⟩ := itemReads_row (h row (by simp)) first
      exact ⟨tokens :: items, .cons htokens hitems⟩

theorem endsIs_tableTokens {table : Identifier.Name}
    (h : ∀ part ∈ table.parts, part.head? ≠ some '$') :
    endsIs (tableTokens table.toIdentifier) = false := by
  obtain ⟨others, part, hpart, htokens⟩ := getLast_intersperse partToken table.parts_ne
  have hlast := endsIs_partToken (h part hpart)
  rw [tableTokens, htokens]
  simpa [endsIs] using hlast

theorem adds_keyword_blank (word : String) {text : Text} (htext : text = word.toList ++ [' '])
    (h : importWords.contains word) {rest : Text} : Adds normalizeNfc text [keyword word] rest := by
  have hadds : Adds normalizeNfc (word.toList ++ [' ']) ([keyword word] ++ []) rest :=
    (adds_keyword (isKeyword_of_mem h) (breaks_blank _)).append
      (endsIs_keyword (isKeyword_of_mem h)) adds_blank
  rw [htext]
  simpa using hadds

/-- An INSERT is read when its parts are. -/
theorem adds_insert {tableName names values : Text} {table columns rows : List Token}
    (htable : ∀ rest, Ends rest → Adds normalizeNfc tableName table rest)
    (htableEnds : endsIs table = false) (hnames : ItemReads normalizeNfc names columns)
    (hvalues : ItemReads normalizeNfc values rows) :
    Adds normalizeNfc ("INSERT INTO ".toList ++ (tableName ++ (" (".toList ++
        (names ++ (") VALUES ".toList ++ values)))))
      ([keyword "INSERT", keyword "INTO"] ++ (table ++ ([leftParen] ++ (columns ++
        ([rightParen, keyword "VALUES"] ++ rows))))) [] := by
  have hinsert : ∀ rest, Adds normalizeNfc ("INSERT ".toList ++ "INTO ".toList)
      ([keyword "INSERT"] ++ [keyword "INTO"]) rest := fun rest =>
    Adds.append (adds_keyword_blank "INSERT" (by rfl) rfl) rfl
      (adds_keyword_blank "INTO" (by rfl) rfl)
  have hparen : ∀ rest, Adds normalizeNfc ([' '] ++ ['(']) ([] ++ [leftParen]) rest := fun rest =>
    adds_blank.append rfl adds_leftParen
  have hword : ∀ rest, Adds normalizeNfc ([')'] ++ ([' '] ++ "VALUES ".toList))
      ([rightParen] ++ ([] ++ [keyword "VALUES"])) rest := fun rest =>
    adds_rightParen.append rfl (adds_blank.append rfl (adds_keyword_blank "VALUES" (by rfl) rfl))
  have hends : EndsItem [] := by
    rintro c ⟨⟩
  have hrows := (hword _).append rfl (hvalues.adds [] hends)
  have hlist := (hnames.adds _ (endsItem_rightParen _)).append hnames.endsIs hrows
  have hcolumns := (hparen _).append rfl hlist
  have hblank : ∀ rest, Ends (' ' :: rest) := fun rest => ⟨breaks_blank rest, by simp⟩
  have hall := (hinsert _).append rfl ((htable _ (hblank _)).append htableEnds hcolumns)
  simpa using hall

/-- What is written for a batch of rows is read as the tokens of its rows. -/
theorem adds_insertBatch {tableName : Text} {row : ImportRow} {others : List ImportRow}
    {table columns : List Token} {items : List (List Token)}
    (htable : ∀ rest, Ends rest → Adds normalizeNfc tableName table rest)
    (htableEnds : endsIs table = false) (hnames : ItemReads normalizeNfc row.names columns)
    (hitems : List.Forall₂ (ItemReads normalizeNfc) ((row :: others).map (·.values)) items) :
    Adds normalizeNfc (insertBatch tableName row others) (insertTokens table columns items) [] :=
  adds_insert htable htableEnds hnames (itemReads_joinComma hitems (by simp))

theorem importRow_values (columns : List ImportColumn) (row : List ImportCell)
    (first : ImportColumn) :
    ∃ text, (importRow columns row first).values = ('(' :: text) ++ [')'] := by
  unfold importRow
  dsimp only
  split
  · exact ⟨"DEFAULT".toList, rfl⟩
  · exact ⟨_, rfl⟩

theorem tokenize_row {columns : List ImportColumn} {row : List ImportCell} {first : ImportColumn}
    {tokens : List Token} (htokens : RowTokens normalizeNfc columns row tokens)
    (hread : ItemReads normalizeNfc (importRow columns row first).values tokens) :
    tokenize normalizeNfc (importRow columns row first).values = .ok tokens := by
  obtain ⟨text, htext⟩ := importRow_values columns row first
  refine tokenize_of_adds (hread.adds [] (by rintro c ⟨⟩)) ?_ ?_ (htokens.words.stays [])
  · simp [htext]
  · rw [htext, List.getLast?_concat]
    decide

theorem getLast?_joinComma {texts : List Text} (htexts : texts ≠ [])
    (h : ∀ text ∈ texts, text.getLast? = some ')') : (joinComma texts).getLast? = some ')' := by
  induction texts with
  | nil => exact absurd rfl htexts
  | cons text texts ih =>
      cases texts with
      | nil => simpa [joinComma] using h text (by simp)
      | cons next texts =>
          have hothers := ih (by simp) fun t ht => h t (by simp [ht])
          have htext : joinComma (text :: next :: texts) =
              (text ++ ", ".toList) ++ joinComma (next :: texts) := by
            simp [joinComma, List.intercalate_cons_cons]
          rw [htext, List.getLast?_append, hothers]
          rfl

theorem head?_insertBatch (tableName : Text) (row : ImportRow) (others : List ImportRow) :
    (insertBatch tableName row others).head? = some 'I' := by
  unfold insertBatch
  simp

theorem getLast?_insertBatch {tableName : Text} {row : ImportRow} {others : List ImportRow}
    {c : Char} (h : (joinComma ((row :: others).map (·.values))).getLast? = some c) :
    (insertBatch tableName row others).getLast? = some c := by
  unfold insertBatch
  rw [List.getLast?_append, List.getLast?_append, List.getLast?_append, List.getLast?_append,
    List.getLast?_append, h]
  rfl

/-- What is written for a batch of rows is read as a list in parentheses for each row, with one
literal or one CAST for each cell, whatever the texts of the cells are. -/
theorem tokenize_insertBatch (normalizeNfc : Text → Text) (table : Identifier.Name)
    (columns : List ImportColumn) (first : ImportColumn) (row : List ImportCell)
    (others : List (List ImportCell)) (htable : ∀ part ∈ table.parts, part.head? ≠ some '$')
    (hcolumns : ∀ column ∈ first :: columns, NameIsRead column.name)
    (hrows : ∀ r ∈ row :: others, RowImportable columns r) :
    ∃ rows, List.Forall₂ (fun r tokens => RowTokens normalizeNfc columns r tokens ∧
        tokenize normalizeNfc (importRow columns r first).values = .ok tokens)
          (row :: others) rows ∧
      tokenize normalizeNfc (insertBatch table.str (importRow columns row first)
          (others.map (importRow columns · first))) =
        .ok (insertTokens (tableTokens table.toIdentifier)
          (nameTokens (rowNames columns row first)) rows) := by
  obtain ⟨rows, hread⟩ : ∃ rows, List.Forall₂ _ (row :: others) rows :=
    forall₂_itemReads_rows first hrows
  refine ⟨rows, hread.imp fun r tokens h => ⟨h.1, tokenize_row h.1 h.2⟩, ?_⟩
  have hvalues : ((importRow columns row first :: others.map (importRow columns · first)).map
      (·.values)) = (row :: others).map (importRow columns · first |>.values) := by
    simp
  have hitems : List.Forall₂ (ItemReads normalizeNfc) _ rows :=
    List.forall₂_map_left_iff.mpr (hread.imp fun _ _ h => h.2)
  rw [← hvalues] at hitems
  have hlast : ∀ values ∈ (row :: others).map (importRow columns · first |>.values),
      values.getLast? = some ')' := by
    intro values hmem
    obtain ⟨r, -, rfl⟩ := List.mem_map.mp hmem
    obtain ⟨text, htext⟩ := importRow_values columns r first
    rw [htext, List.getLast?_concat]
  have hend := getLast?_joinComma (by simp) hlast
  rw [← hvalues] at hend
  have hnames : rowNames columns row first ≠ [] := by
    unfold rowNames
    split <;> simp_all
  refine tokenize_of_adds (adds_insertBatch (fun _ hrest => adds_table htable hrest)
    (endsIs_tableTokens htable) (itemReads_names hcolumns) hitems) ?_ ?_
    (stays_insertTokens htable hnames (nameIsRead_rowNames hcolumns) (words_of_rows hread))
  · rw [head?_insertBatch]
    decide
  · rw [getLast?_insertBatch hend]
    decide

def importTable : Identifier.Name where
  schemaName := "PUBLIC".toList
  entityName := "T".toList
  customId_eq := Identifier.customId_nil
  parts_ne := by decide
  length_le := by decide

def amountColumn : ImportColumn := ⟨"AMOUNT".toList, { typ := .numeric }, false⟩

def noteColumn : ImportColumn := ⟨"NOTE".toList, { typ := .varchar, size := 10 }, false⟩

theorem tokenize_insertBatch_quotes :
    ∃ rows, List.Forall₂ (fun r tokens =>
        RowTokens id [amountColumn, noteColumn] r tokens ∧
          tokenize id (importRow [amountColumn, noteColumn] r amountColumn).values = .ok tokens)
        [[⟨.value, "-1.5".toList⟩, ⟨.value, "'); -- /*".toList⟩]] rows ∧
      tokenize id (insertBatch importTable.str (importRow [amountColumn, noteColumn]
          [⟨.value, "-1.5".toList⟩, ⟨.value, "'); -- /*".toList⟩] amountColumn) []) =
        .ok (insertTokens (tableTokens importTable.toIdentifier)
          (nameTokens ["AMOUNT".toList, "NOTE".toList]) rows) := by
  refine tokenize_insertBatch id importTable [amountColumn, noteColumn] amountColumn _ []
    (by decide) ?_ ?_
  · intro column hcolumn
    simp only [List.mem_cons, List.not_mem_nil, or_false] at hcolumn
    obtain rfl | rfl | rfl := hcolumn <;> exact ⟨by decide, by decide⟩
  · intro r hr cell hcell _
    rw [List.mem_singleton] at hr
    subst hr
    have hcells : cell = (amountColumn, ⟨.value, "-1.5".toList⟩) ∨
        cell = (noteColumn, ⟨.value, "'); -- /*".toList⟩) := by
      simpa [importCells] using hcell
    obtain rfl | rfl := hcells
    · have hdigit : ∀ d, isDigit d = true → ∀ c ∈ [d], isDigit c = true := by
        rintro d hd c hc
        rwa [List.mem_singleton.mp hc]
      exact ⟨by decide, fun _ _ _ => ⟨⟨some .minus, .decimal ⟨['1'], by simp, hdigit _ (by decide)⟩
        ⟨['5'], by simp, hdigit _ (by decide)⟩, none⟩, rfl⟩⟩
    · refine ⟨by decide, fun h => absurd h (by decide)⟩

/-- A cell with a noncharacter is not read as a literal. -/
theorem not_tokenize_insertBatch_noncharacter :
    tokenize id (importRow [noteColumn] [⟨.value, [Char.ofNat 0xFFFF]⟩] noteColumn).values =
        .error sqlstate22029 ∧
      tokenize id (insertBatch importTable.str
        (importRow [noteColumn] [⟨.value, [Char.ofNat 0xFFFF]⟩] noteColumn) []) =
        .error sqlstate22029 := by
  decide +kernel

end Vsql
