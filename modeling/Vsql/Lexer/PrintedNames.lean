import Vsql.Lexer.NamePlaces

/-!
# Names in a statement

The text of a name gives its parts again, wherever the grammar has a name, so different
names are never written alike.
-/

namespace Vsql.Identifier

open Lexer

variable {normalizeNfc : Text → Text}

/-! ## The parts of the text -/

theorem splitPartsFrom_period {s cs : Text} {fuel : Nat} :
    splitPartsFrom s (fuel + 1) ('.' :: cs) = splitPartsFrom s fuel cs := by
  have hquote : '.' ≠ '"' := by decide
  rw [splitPartsFrom, if_neg hquote]
  cases hparts : splitPartsFrom s fuel cs with
  | error e => simp [hparts]
  | ok parts => simp [hparts]

theorem splitPartsFrom_delimitIdentifier {s part rest : Text} {fuel : Nat}
    (hrest : rest.head? ≠ some '"') :
    splitPartsFrom s (fuel + 1) (delimitIdentifier part ++ rest) =
      (part :: ·) <$> splitPartsFrom s fuel rest := by
  have hquoted : quoted '"' (doubled '"' part ++ ['"'] ++ rest) = some (part, rest) := by
    rw [List.append_assoc]
    exact quoted_doubled hrest part
  rw [delimitIdentifier, List.cons_append, splitPartsFrom, if_pos rfl, hquoted]

theorem Plain.all {s : Text} (h : Plain s) : ∀ c ∈ s, isIdentifierChar c true = true := by
  cases s with
  | nil => simp
  | cons c word =>
      have hweaken : ∀ d, isIdentifierChar d false = true → isIdentifierChar d true = true := by
        intro d hd
        simp only [isIdentifierChar, Bool.false_eq_true, if_false] at hd
        simp [isIdentifierChar, hd]
      intro d hd
      obtain rfl | hd := List.mem_cons.mp hd
      · exact hweaken _ h.chars.1
      · exact h.chars.2 d hd

theorem Plain.ne_period {s : Text} (h : Plain s) : ∀ c ∈ s, c ≠ '.' := by
  rintro c hc rfl
  exact absurd (h.all _ hc) (by decide)

theorem splitPartsFrom_plain {s part rest : Text} {fuel : Nat} (hpart : Plain part)
    (hne : part ≠ []) :
    splitPartsFrom s (fuel + 1) (part ++ '.' :: rest) =
      (part :: ·) <$> splitPartsFrom s fuel rest := by
  cases part with
  | nil => exact absurd rfl hne
  | cons c word =>
      have hquote : c ≠ '"' := ne_of_isIdentifierChar hpart.chars.1 (by decide)
      have hall : ∀ d ∈ c :: word, decide (d ≠ '.') = true := by
        simpa using hpart.ne_period
      have htake : ((c :: word) ++ '.' :: rest).takeWhile (· ≠ '.') = c :: word := by
        rw [List.takeWhile_append_of_pos hall]
        simp
      have hdrop : ((c :: word) ++ '.' :: rest).dropWhile (· ≠ '.') = '.' :: rest := by
        rw [List.dropWhile_append_of_pos hall]
        simp
      simp only [List.cons_append] at htake hdrop ⊢
      rw [splitPartsFrom, if_neg hquote]
      simp only [htake, hdrop, hpart.1, reduceCtorEq, if_false]

theorem splitPartsFrom_plain_end {s part : Text} {fuel : Nat} (hpart : Plain part)
    (hne : part ≠ []) : splitPartsFrom s (fuel + 1) part = .ok [part] := by
  cases part with
  | nil => exact absurd rfl hne
  | cons c word =>
      have hquote : c ≠ '"' := ne_of_isIdentifierChar hpart.chars.1 (by decide)
      have hall : ∀ d ∈ c :: word, decide (d ≠ '.') = true := by
        simpa using hpart.ne_period
      have htake := List.takeWhile_eq_self_iff.mpr hall
      have hdrop := List.dropWhile_eq_nil_iff.mpr hall
      rw [splitPartsFrom, if_neg hquote]
      simp only [htake, hdrop, hpart.1]

/-- A part is written with quotes, or without them when it can be. -/
def Writes (write : Text → Text) (part : Text) : Prop :=
  write part = delimitIdentifier part ∨ (Plain part ∧ write part = part)

theorem writes_requoteIdentifier {part : Text} (h : part.head? ≠ some '$') :
    Writes requoteIdentifier part := by
  by_cases hplain : Plain part
  · exact .inr ⟨hplain, requoteIdentifier_of_plain hplain⟩
  · exact .inl (requoteIdentifier_of_not_plain hplain h)

theorem writes_delimitIdentifier (part : Text) : Writes delimitIdentifier part := .inl rfl

theorem Writes.ne_nil {write : Text → Text} {part : Text} (h : Writes write part)
    (hne : part ≠ []) : write part ≠ [] := by
  obtain h | ⟨-, h⟩ := h
  · simp [h, delimitIdentifier]
  · rwa [h]

@[simp] theorem splitPartsFrom_nil (s : Text) (fuel : Nat) : splitPartsFrom s fuel [] = .ok [] := by
  cases fuel <;> rfl

theorem splitPartsFrom_intercalate {write : Text → Text} {s : Text} {names : List Text}
    (hwrites : ∀ name ∈ names, Writes write name) (hne : ∀ name ∈ names, name ≠ [])
    {fuel : Nat} (hfuel : (['.'].intercalate (names.map write)).length ≤ fuel) :
    splitPartsFrom s fuel (['.'].intercalate (names.map write)) = .ok names := by
  induction names generalizing fuel with
  | nil => simp [List.intercalate]
  | cons name names ih =>
      have hname := hwrites name (by simp)
      have hpos : 0 < (write name).length :=
        List.length_pos_iff.mpr (hname.ne_nil (hne name (by simp)))
      cases names with
      | nil =>
          simp only [List.map_cons, List.map_nil, List.intercalate_singleton] at hfuel ⊢
          obtain ⟨fuel, rfl⟩ : ∃ n, fuel = n + 1 := ⟨fuel - 1, by omega⟩
          obtain h | ⟨hplain, h⟩ := hname
          · have hdelimited : splitPartsFrom s (fuel + 1) (delimitIdentifier name ++ []) = _ :=
              splitPartsFrom_delimitIdentifier (by simp)
            rw [List.append_nil, splitPartsFrom_nil] at hdelimited
            rw [h, hdelimited]
            rfl
          · rw [h]
            exact splitPartsFrom_plain_end hplain (hne name (by simp))
      | cons next names =>
          have htext : ['.'].intercalate ((name :: next :: names).map write) =
              write name ++ '.' :: ['.'].intercalate ((next :: names).map write) := by
            simp [List.intercalate]
          have hothers : ∀ {fuel : Nat}, _ ≤ fuel → splitPartsFrom s fuel _ = _ :=
            ih (fun n hn => hwrites n (by simp [hn])) fun n hn => hne n (by simp [hn])
          rw [htext] at hfuel ⊢
          simp only [List.length_append, List.length_cons] at hfuel
          obtain h | ⟨hplain, h⟩ := hname
          · have htwo : 2 ≤ (write name).length := by
              rw [h]
              simp [delimitIdentifier]
            obtain ⟨fuel, rfl⟩ : ∃ n, fuel = n + 1 + 1 := ⟨fuel - 2, by omega⟩
            rw [h, splitPartsFrom_delimitIdentifier (by simp), splitPartsFrom_period,
              hothers (by omega)]
            rfl
          · obtain ⟨fuel, rfl⟩ : ∃ n, fuel = n + 1 := ⟨fuel - 1, by omega⟩
            rw [h, splitPartsFrom_plain hplain (hne name (by simp)), hothers (by omega)]
            rfl

/-- Different parts are never written alike. -/
theorem intercalate_inj {write : Text → Text} {names names' : List Text}
    (hwrites : ∀ name ∈ names, Writes write name) (hne : ∀ name ∈ names, name ≠ [])
    (hwrites' : ∀ name ∈ names', Writes write name) (hne' : ∀ name ∈ names', name ≠ [])
    (h : ['.'].intercalate (names.map write) = ['.'].intercalate (names'.map write)) :
    names = names' := by
  have hnames := splitPartsFrom_intercalate (s := []) hwrites hne le_rfl
  rw [h, splitPartsFrom_intercalate hwrites' hne' le_rfl] at hnames
  exact (Except.ok.inj hnames).symm

theorem splitIdentifierParts_intercalate {write : Text → Text} {names : List Text}
    (hwrites : ∀ name ∈ names, Writes write name) (hnames : names ≠ [])
    (hne : ∀ name ∈ names, name ≠ [])
    (hlength : ∀ name ∈ names, name.length ≤ maxIdentifierLength) :
    splitIdentifierParts (['.'].intercalate (names.map write)) = .ok names := by
  have htext : ['.'].intercalate (names.map write) ≠ [] := by
    cases names with
    | nil => exact absurd rfl hnames
    | cons name names =>
        have hname := (hwrites name (by simp)).ne_nil (hne name (by simp))
        cases names <;> simp [List.intercalate, hname]
  have hfind : names.find? (maxIdentifierLength < ·.length) = none := by
    simpa using hlength
  rw [splitIdentifierParts, if_neg htext, splitPartsFrom_intercalate hwrites hne le_rfl]
  simp only [bind, Except.bind, hfind]

/-! ## The tokens before a place stay as they are -/

/-- The tokens that something may follow, so that they are one token together. -/
def startsSubstitution (token : Token) : Bool :=
  ["OPERATOR_PERIOD", "OPERATOR_LEFT_PAREN", "IS", "NOT"].contains token.token

theorem tailSubstitution_le {tokens others : List Token} {last : Token}
    (hlast : startsSubstitution last = false) (hends : endsSubstitution last = false) :
    (tailSubstitution (tokens ++ [last] ++ others)).1 ≤ others.length := by
  have hreverse : (tokens ++ [last] ++ others).reverse =
      others.reverse ++ last :: tokens.reverse := by simp
  rw [tailSubstitution, hreverse, ← List.length_reverse]
  simp only [startsSubstitution, endsSubstitution, List.contains_cons, List.contains_nil,
    Bool.or_false, Bool.or_eq_false_iff, beq_eq_false_iff_ne] at hlast hends
  rcases others.reverse with _ | ⟨a, _ | ⟨b, _ | ⟨c, back⟩⟩⟩
  · split <;> simp_all
  · split <;> simp_all
  · split <;> simp_all
  · split <;> simp

theorem substituteTail_append {tokens others : List Token} {last : Token}
    (hlast : startsSubstitution last = false) (hends : endsSubstitution last = false) :
    ∃ others', substituteTail (tokens ++ [last] ++ others) = tokens ++ [last] ++ others' := by
  have hle : (tailSubstitution (tokens ++ [last] ++ others)).1 ≤ others.length :=
    tailSubstitution_le hlast hends
  rw [substituteTail]
  generalize tailSubstitution (tokens ++ [last] ++ others) = substitution at hle
  obtain ⟨length, newToken⟩ := substitution
  dsimp only at hle ⊢
  split
  · have hlength : (tokens ++ [last] ++ others).length - length =
        (tokens ++ [last]).length + (others.length - length) := by
      simp only [List.length_append]
      omega
    rw [hlength, List.take_length_add_append]
    exact ⟨_, by rw [List.append_assoc]⟩
  · exact ⟨others, rfl⟩

theorem read_keeps {tokens others all : List Token} {last : Token} {parameters : Nat}
    (hlast : startsSubstitution last = false) (hends : endsSubstitution last = false) {cs : Text}
    (h : read normalizeNfc (tokens ++ [last] ++ others) parameters cs = .ok all) :
    ∃ rest, all = tokens ++ [last] ++ rest := by
  induction hn : cs.length using Nat.strong_induction_on generalizing others parameters cs with
  | _ n ih =>
      cases cs with
      | nil =>
          rw [read_nil] at h
          cases h
          exact ⟨others, rfl⟩
      | cons c cs =>
          rw [read_cons] at h
          obtain ⟨scanned, hscan, h⟩ := ok_of_bind h
          have hlength := length_scan hscan
          have hlt : scanned.rest.length < n := by
            rw [← hn, List.length_cons]
            omega
          dsimp only at h
          split at h
          · rw [List.append_assoc] at h
            obtain ⟨others', heq⟩ : ∃ others',
                substituteTail (tokens ++ [last] ++ (others ++ scanned.pushed)) = _ :=
              substituteTail_append hlast hends
            rw [heq] at h
            exact ih _ hlt h rfl
          · rw [List.append_assoc] at h
            exact ih _ hlt h rfl

/-! ## Reading a name in a statement -/

/-- A name of one to four parts. -/
structure Name extends Identifier where
  customId_eq : customId = []
  parts_ne : toIdentifier.parts ≠ []
  length_le : ∀ part ∈ toIdentifier.parts, part.length ≤ maxIdentifierLength

/-- The text of a name is read as these parts, when its tokens are at such a place. -/
def ReadsBack (normalizeNfc : Text → Text) (place : List Token → List Token → Prop)
    (text : Text) (parts : List Text) : Prop :=
  splitIdentifierParts text = .ok parts ∧
  ∃ names, identifierChain names = some text ∧
    ∀ sqlStmt before after tokens parameters all,
      trimSemicolons sqlStmt = before ++ (text ++ after) → Ends after →
      read normalizeNfc [] 0 (before ++ (text ++ after)) =
        read normalizeNfc tokens parameters (text ++ after) →
      read normalizeNfc [] 0 (before ++ (text ++ after)) = .ok all →
      ∃ rest, all = tokens ++ names ++ rest ∧
        (place tokens.reverse rest → ∃ tokens' rest',
          tokenize normalizeNfc sqlStmt = .ok (tokens' ++ names ++ rest') ∧
          tokens'.length = (replaceNowFunction none tokens).length)

section

variable {write : Text → Text} {token : Text → Token} {names : List Text}

theorem getLast_intersperse (token : Text → Token) {names : List Text} (hnames : names ≠ []) :
    ∃ others, ∃ name ∈ names, (names.map token).intersperse period = others ++ [token name] := by
  induction names with
  | nil => exact absurd rfl hnames
  | cons name names ih =>
      cases names with
      | nil => exact ⟨[], name, by simp, by simp⟩
      | cons next names =>
          obtain ⟨others, last, hlast, heq⟩ := ih (by simp)
          refine ⟨token name :: period :: others, last, by simp [hlast], ?_⟩
          simp only [List.map_cons, List.intersperse_cons_cons, List.cons_append] at heq ⊢
          rw [heq]

/-- A name is read back when each of its parts is. -/
theorem readsBack {place : List Token → List Token → Prop} (hnames : names ≠ [])
    (hne : ∀ name ∈ names, name ≠ [])
    (hlength : ∀ name ∈ names, name.length ≤ maxIdentifierLength)
    (hwrites : ∀ name ∈ names, Writes write name)
    (hreads : ∀ name ∈ names, ∀ tokens rest, Ends rest →
      Reads normalizeNfc (write name) tokens (tokens ++ [token name]) rest)
    (htext : ∀ name ∈ names, identifierText (token name) = some (write name))
    (hplace : ∀ before after, place before after →
      (∀ name ∈ names, isPlaceWord (token name) = false) ∨ Place before after) :
    ReadsBack normalizeNfc place (['.'].intercalate (names.map write)) names := by
  refine ⟨splitIdentifierParts_intercalate hwrites hnames hne hlength,
    (names.map token).intersperse period, identifierChain_intersperse hnames htext, ?_⟩
  intro sqlStmt before after tokens parameters all htrim hends hbefore hall
  have hname : read normalizeNfc tokens parameters (_ ++ after) = _ :=
    reads_intercalate hnames hreads hends parameters
  obtain ⟨others, name, hmem, hlast⟩ := getLast_intersperse token hnames
  have hread : read normalizeNfc (tokens ++ others ++ [token name] ++ []) parameters after =
      .ok all := by
    rw [List.append_nil, List.append_assoc, ← hlast, ← hname, ← hbefore, hall]
  have hne : ∀ {word}, ((tokenNumber word).map isNonReserved).getD false = false →
      word ≠ "LITERAL_IDENTIFIER" → ∀ name ∈ names, (token name).token ≠ word :=
    fun hword hliteral name hmem => ne_of_identifierText (htext name hmem) hword hliteral
  have hstarts : startsSubstitution (token name) = false := by
    simp only [startsSubstitution, List.contains_cons, List.contains_nil, Bool.or_false,
      Bool.or_eq_false_iff, beq_eq_false_iff_ne]
    exact ⟨hne (by decide +kernel) (by decide) name hmem,
      hne (by decide +kernel) (by decide) name hmem,
      hne (by decide +kernel) (by decide) name hmem,
      hne (by decide +kernel) (by decide) name hmem⟩
  obtain ⟨rest, hrest⟩ := read_keeps hstarts
    (endsSubstitution_of_identifierText (htext name hmem)) hread
  rw [List.append_assoc tokens, ← hlast] at hrest
  refine ⟨rest, hrest, fun h => ?_⟩
  obtain ⟨tokens', rest', hfinish, hcount⟩ := finishTokens_names hnames
    (fun name hmem => ⟨hne (by decide +kernel) (by decide) name hmem,
      hne (by decide +kernel) (by decide) name hmem,
      hne (by decide +kernel) (by decide) name hmem⟩) (hplace _ _ h)
  refine ⟨tokens', rest', ?_, hcount⟩
  have hfuel : readTokens normalizeNfc (before ++ (['.'].intercalate (names.map write) ++
      after)).length [] 0 (before ++ (['.'].intercalate (names.map write) ++ after)) = .ok all :=
    hall
  rw [tokenize, htrim, ← hfinish, ← hrest]
  rw [hfuel]
  rfl

end

theorem isPlaceWord_delimitIdentifier (name : Text) :
    isPlaceWord ⟨"LITERAL_IDENTIFIER", .chain (delimitIdentifier name)⟩ = false := by
  have hword : ∀ {word : String}, word.toList.head? ≠ some '"' →
      isName ⟨"LITERAL_IDENTIFIER", .chain (delimitIdentifier name)⟩ word = false := by
    intro word hword
    simp only [isName, beq_self_eq_true, Bool.true_and, beq_eq_false_iff_ne]
    rintro rfl
    apply hword
    simp [Text.str, Text.toUpper, delimitIdentifier]
  have hlimit : isName _ "LIMIT" = false := hword (by decide)
  have hnow : isName _ "NOW" = false := hword (by decide)
  simp [isPlaceWord, hlimit, hnow]

namespace Name

theorem ne_nil_of_mem_parts {e : Identifier} {part : Text} (h : part ∈ e.parts) : part ≠ [] := by
  simpa using (List.mem_filter.mp h).2

theorem mem_parts_of_mem_storageParts {e : Identifier} {part : Text} (h : part ∈ e.storageParts) :
    part ∈ e.parts := by
  obtain ⟨hmem, hne⟩ := List.mem_filter.mp h
  exact List.mem_filter.mpr ⟨List.mem_cons_of_mem _ hmem, hne⟩

theorem str_eq (e : Name) : e.str = ['.'].intercalate (e.parts.map requoteIdentifier) := by
  rw [str, if_neg (by simp [e.customId_eq])]

theorem read_str (e : Name) (hdollar : ∀ part ∈ e.parts, part.head? ≠ some '$') :
    ReadsBack normalizeNfc Place e.str e.parts := by
  rw [e.str_eq]
  exact readsBack e.parts_ne (fun part h => ne_nil_of_mem_parts h) e.length_le
    (fun part h => writes_requoteIdentifier (hdollar part h))
    (fun part h tokens rest => reads_requoteIdentifier (ne_nil_of_mem_parts h) (hdollar part h))
    (fun part h => identifierText_partToken part (hdollar part h)) fun _ _ => .inr

theorem read_storageSql (e : Name) (hparts : e.storageParts ≠ []) :
    ReadsBack normalizeNfc (fun _ _ => True) e.storageSql e.storageParts := by
  have hne : ∀ part ∈ e.storageParts, part ≠ [] := fun part h =>
    ne_nil_of_mem_parts (mem_parts_of_mem_storageParts h)
  exact readsBack hparts hne (fun part h => e.length_le part (mem_parts_of_mem_storageParts h))
    (fun part _ => writes_delimitIdentifier part)
    (fun part h tokens rest => reads_delimitIdentifier (hne part h))
    (fun part _ => rfl) fun _ _ _ => .inl fun part _ => isPlaceWord_delimitIdentifier part

theorem str_inj {e e' : Name} (hdollar : ∀ part ∈ e.parts ++ e'.parts, part.head? ≠ some '$')
    (h : e.str = e'.str) : e.parts = e'.parts := by
  rw [e.str_eq, e'.str_eq] at h
  exact intercalate_inj
    (fun part hpart => writes_requoteIdentifier (hdollar part (List.mem_append_left _ hpart)))
    (fun part hpart => ne_nil_of_mem_parts hpart)
    (fun part hpart => writes_requoteIdentifier (hdollar part (List.mem_append_right _ hpart)))
    (fun part hpart => ne_nil_of_mem_parts hpart) h

theorem storageSql_inj {e e' : Name} (h : e.storageSql = e'.storageSql) :
    e.storageParts = e'.storageParts :=
  intercalate_inj (fun part _ => writes_delimitIdentifier part)
    (fun _ hpart => ne_nil_of_mem_parts (mem_parts_of_mem_storageParts hpart))
    (fun part _ => writes_delimitIdentifier part)
    (fun _ hpart => ne_nil_of_mem_parts (mem_parts_of_mem_storageParts hpart)) h

/-- Names are read as they are written.  The catalog is not a part of the name in a file, and
the names of subqueries are not read. -/
theorem reads_as_printed (normalizeNfc : Text → Text) (e : Name) :
    ((∀ part ∈ e.parts, part.head? ≠ some '$') → ReadsBack normalizeNfc Place e.str e.parts) ∧
    (e.storageParts ≠ [] →
      ReadsBack normalizeNfc (fun _ _ => True) e.storageSql e.storageParts) ∧
    ∀ e' : Name,
      ((∀ part ∈ e.parts ++ e'.parts, part.head? ≠ some '$') → e.str = e'.str →
        e.parts = e'.parts) ∧
      (e.storageSql = e'.storageSql → e.storageParts = e'.storageParts) :=
  ⟨e.read_str, e.read_storageSql, fun _ => ⟨str_inj, storageSql_inj⟩⟩

def limitColumn : Name where
  catalogName := "main".toList
  schemaName := "a\".B".toList
  entityName := "1".toList
  subEntityName := "LIMIT".toList
  customId_eq := rfl
  parts_ne := by decide
  length_le := by decide

theorem reads_as_printed_limitColumn :
    ReadsBack id Place "\"main\".\"a\"\".B\".\"1\".LIMIT".toList
        ["main".toList, "a\".B".toList, "1".toList, "LIMIT".toList] ∧
      ReadsBack id (fun _ _ => True) "\"a\"\".B\".\"1\".\"LIMIT\"".toList
        ["a\".B".toList, "1".toList, "LIMIT".toList] := by
  have hstr : limitColumn.str = "\"main\".\"a\"\".B\".\"1\".LIMIT".toList := by
    decide +kernel
  have hstr' := (reads_as_printed id limitColumn).1 (by decide)
  rw [hstr] at hstr'
  exact ⟨hstr', (reads_as_printed id limitColumn).2.1 (by decide)⟩

/-- The same column of another catalog. -/
def otherColumn : Name where
  catalogName := "other".toList
  schemaName := "a\".B".toList
  entityName := "1".toList
  subEntityName := "LIMIT".toList
  customId_eq := rfl
  parts_ne := by decide
  length_le := by decide

/-- The catalog of a name is not in the file. -/
theorem not_reads_as_printed_catalog :
    limitColumn.parts ≠ otherColumn.parts ∧ limitColumn.storageSql = otherColumn.storageSql ∧
      splitIdentifierParts limitColumn.storageSql ≠ .ok limitColumn.parts := by
  decide

end Name

end Vsql.Identifier
