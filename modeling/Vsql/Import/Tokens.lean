import Mathlib.Data.List.Forall2
import Vsql.Import
import Vsql.Lexer.Statements

/-!
# The tokens of an imported row

The text of each cell is read as its own tokens, whatever is in the other cells.
-/

namespace Vsql

open Lexer

variable {normalizeNfc : Text → Text}

def commaToken : Token := ⟨"OPERATOR_COMMA", .text [',']⟩

def leftParen : Token := ⟨"OPERATOR_LEFT_PAREN", .text ['(']⟩

def rightParen : Token := ⟨"OPERATOR_RIGHT_PAREN", .text [')']⟩

theorem adds_leftParen {rest : Text} : Adds normalizeNfc ['('] [leftParen] rest :=
  (pushes_operator rfl rfl rfl rfl).adds

theorem adds_rightParen {rest : Text} : Adds normalizeNfc [')'] [rightParen] rest :=
  (pushes_operator rfl rfl rfl rfl).adds

theorem adds_comma {rest : Text} : Adds normalizeNfc ", ".toList [commaToken] rest := by
  have hcomma : Adds normalizeNfc [','] [commaToken] ([' '] ++ rest) :=
    (pushes_operator rfl rfl rfl rfl).adds
  exact hcomma.append rfl adds_blank

/-! ## Lists -/

/-- What is after an item of a list. -/
def EndsItem (rest : Text) : Prop := ∀ c ∈ rest.head?, c = ',' ∨ c = ')'

theorem endsItem_comma (rest : Text) : EndsItem (',' :: rest) := by
  rintro c ⟨⟩
  exact .inl rfl

theorem endsItem_rightParen (rest : Text) : EndsItem (')' :: rest) := by
  rintro c ⟨⟩
  exact .inr rfl

theorem EndsItem.breaks {rest : Text} (h : EndsItem rest) : Breaks rest := by
  intro c hc
  obtain rfl | rfl := h c hc <;> decide

theorem EndsItem.endsNumber {rest : Text} (h : EndsItem rest) : EndsNumber rest := by
  intro c hc
  obtain rfl | rfl := h c hc <;> decide

theorem EndsItem.endsString {rest : Text} (h : EndsItem rest) : EndsString rest := by
  cases rest with
  | nil => exact ⟨by simp, false, [], rfl, rfl⟩
  | cons c rest =>
      obtain rfl | rfl := h c rfl
      · exact ⟨by simp, false, _, skipSeparators_cons rfl (by decide), rfl⟩
      · exact ⟨by simp, false, _, skipSeparators_cons rfl (by decide), rfl⟩

/-- An item of a list is read as these tokens. -/
structure ItemReads (normalizeNfc : Text → Text) (text : Text) (tokens : List Token) : Prop where
  adds : ∀ rest, EndsItem rest → Adds normalizeNfc text tokens rest
  endsIs : endsIs tokens = false

theorem itemReads_joinComma {texts : List Text} {items : List (List Token)}
    (h : List.Forall₂ (ItemReads normalizeNfc) texts items) (htexts : texts ≠ []) :
    ItemReads normalizeNfc (joinComma texts) ([commaToken].intercalate items) := by
  induction h with
  | nil => exact absurd rfl htexts
  | @cons text tokens texts items hfirst hothers ih =>
      cases hothers with
      | nil => simpa [joinComma] using hfirst
      | @cons next nextTokens texts items hnext hothers =>
          have hrest := ih (by simp)
          have htext : joinComma (text :: next :: texts) =
              text ++ (", ".toList ++ joinComma (next :: texts)) := by
            simp [joinComma, List.intercalate_cons_cons]
          have htokens : [commaToken].intercalate (tokens :: nextTokens :: items) =
              tokens ++ ([commaToken] ++ [commaToken].intercalate (nextTokens :: items)) := by
            simp [List.intercalate_cons_cons]
          rw [htext, htokens]
          constructor
          · intro rest hends
            refine (hfirst.adds _ (endsItem_comma _)).append hfirst.endsIs ?_
            exact adds_comma.append rfl (hrest.adds rest hends)
          · exact endsIs_append hfirst.endsIs (endsIs_append rfl hrest.endsIs)

theorem itemReads_parens {text : Text} {tokens : List Token}
    (h : ItemReads normalizeNfc text tokens) (rest : Text) :
    Adds normalizeNfc ('(' :: (text ++ [')'])) (leftParen :: (tokens ++ [rightParen])) rest := by
  have hitem : Adds normalizeNfc text tokens ([')'] ++ rest) := h.adds _ (endsItem_rightParen _)
  have hleft : Adds normalizeNfc ['('] [leftParen] ((text ++ [')']) ++ rest) := adds_leftParen
  exact hleft.append rfl (hitem.append h.endsIs adds_rightParen)

/-! ## Types -/

/-- The words of a type, with its sizes in parentheses after some of them. -/
structure TypePhrase where
  first : String
  words : List String := []
  sizes : List Nat := []
  others : List String := []

namespace TypePhrase

def text (p : TypePhrase) : Text :=
  p.first.toList ++ (wordsText p.words ++
    ((if p.sizes = [] then [] else '(' :: (joinComma (p.sizes.map (natDigits · |>.text)) ++ [')']))
      ++ wordsText p.others))

def tokens (p : TypePhrase) : List Token :=
  keyword p.first :: (p.words.map keyword ++
    ((if p.sizes = [] then []
      else leftParen :: ([commaToken].intercalate (p.sizes.map fun n => [(natDigits n).token])
        ++ [rightParen])) ++ p.others.map keyword))

end TypePhrase

def DataType.phrase (t : DataType) : TypePhrase :=
  match t.typ with
  | .bigint => { first := "BIGINT" }
  | .boolean => { first := "BOOLEAN" }
  | .character => { first := "CHARACTER", sizes := if t.size > 0 then [t.size] else [] }
  | .doublePrecision => { first := "DOUBLE", words := ["PRECISION"] }
  | .integer => { first := "INTEGER" }
  | .real => { first := "REAL" }
  | .smallint => { first := "SMALLINT" }
  | .varchar =>
      { first := "CHARACTER", words := ["VARYING"], sizes := if t.size > 0 then [t.size] else [] }
  | .date => { first := "DATE" }
  | .timeWithoutTimeZone =>
      { first := "TIME", sizes := [t.size], others := ["WITHOUT", "TIME", "ZONE"] }
  | .timeWithTimeZone =>
      { first := "TIME", sizes := [t.size], others := ["WITH", "TIME", "ZONE"] }
  | .timestampWithoutTimeZone =>
      { first := "TIMESTAMP", sizes := [t.size], others := ["WITHOUT", "TIME", "ZONE"] }
  | .timestampWithTimeZone =>
      { first := "TIMESTAMP", sizes := [t.size], others := ["WITH", "TIME", "ZONE"] }
  | .decimal | .numeric =>
      { first := t.typ.str
        sizes := if t.size = 0 then [] else if t.scale = 0 then [t.size] else [t.size, t.scale] }

theorem DataType.str_toList {t : DataType} (h : t.notNull = false) :
    t.str.toList = t.phrase.text := by
  obtain ⟨typ, size, scale, notNull⟩ := t
  subst h
  have hstr : ∀ s : String, toString s = s := fun _ => rfl
  by_cases hsize : size = 0
  · subst hsize
    cases typ <;>
      simp [DataType.str, DataType.phrase, TypePhrase.text, wordsText, SqlType.str, natDigits,
        joinComma, hstr]
  · have hpos : 0 < size := by omega
    by_cases hscale : scale = 0 <;> cases typ <;>
      simp [DataType.str, DataType.phrase, TypePhrase.text, wordsText, SqlType.str, natDigits,
        joinComma, hstr, hsize, hpos, hscale, List.intercalate_cons_cons]

def TypePhrase.IsRead (p : TypePhrase) : Prop :=
  isKeyword p.first ∧ (∀ word ∈ p.words, isKeyword word) ∧ ∀ word ∈ p.others, isKeyword word

/-- The key words of an INSERT of rows. -/
def importWords : List String := [
  "AS", "BIGINT", "BOOLEAN", "CAST", "CHARACTER", "DATE", "DECIMAL", "DEFAULT", "DOUBLE", "FALSE",
  "INSERT", "INTEGER", "INTO", "NULL", "NUMERIC", "PRECISION", "REAL", "SMALLINT", "TIME",
  "TIMESTAMP", "TRUE", "UNKNOWN", "VALUES", "VARYING", "WITH", "WITHOUT", "ZONE"]

theorem isKeyword_importWords : ∀ word ∈ importWords, isKeyword word := by
  decide +kernel

theorem isKeyword_of_mem {word : String} (h : importWords.contains word) : isKeyword word :=
  isKeyword_importWords word (by simpa using h)

theorem DataType.phrase_isRead (t : DataType) : t.phrase.IsRead := by
  obtain ⟨typ, size, scale, notNull⟩ := t
  have hwords : ∀ words : List String, words.all importWords.contains →
      ∀ word ∈ words, isKeyword word := fun words h word hword =>
    isKeyword_of_mem (List.all_eq_true.mp h word hword)
  unfold TypePhrase.IsRead
  cases typ <;> exact ⟨isKeyword_of_mem rfl, hwords _ rfl, hwords _ rfl⟩

theorem itemReads_digits (d : Digits) : ItemReads normalizeNfc d.text [d.token] where
  adds _ hrest := (hrest.endsNumber.pushes_digits d).adds
  endsIs := rfl

theorem itemReads_sizes {sizes : List Nat} (h : sizes ≠ []) :
    ItemReads normalizeNfc (joinComma (sizes.map (natDigits · |>.text)))
      ([commaToken].intercalate (sizes.map fun n => [(natDigits n).token])) := by
  refine itemReads_joinComma ?_ (by simpa using h)
  rw [List.forall₂_map_left_iff, List.forall₂_map_right_iff]
  exact List.forall₂_same.mpr fun n _ => itemReads_digits _

theorem breaks_leftParen (rest : Text) : Breaks ('(' :: rest) := by
  rintro c ⟨⟩
  decide

theorem endsIs_parens (tokens : List Token) :
    endsIs (leftParen :: (tokens ++ [rightParen])) = false :=
  endsIs_append (show endsIs [leftParen] = false from rfl) (by simp [endsIs, rightParen])

theorem TypePhrase.IsRead.itemReads {p : TypePhrase} (h : p.IsRead) :
    ItemReads normalizeNfc p.text p.tokens := by
  obtain ⟨hfirst, hwords, hothers⟩ := h
  have hkeywords : ∀ {rest}, Breaks rest → Adds normalizeNfc (p.first.toList ++ wordsText p.words)
      ([keyword p.first] ++ p.words.map keyword) rest := fun hrest =>
    (adds_keyword hfirst (breaks_wordsText hrest)).append (endsIs_keyword hfirst)
      (adds_words hwords hrest)
  have hkeywordsEnd : endsIs ([keyword p.first] ++ p.words.map keyword) = false :=
    endsIs_append (endsIs_keyword hfirst) (endsIs_keywords hwords)
  by_cases hsizes : p.sizes = []
  · constructor
    · intro rest hrest
      have hall := (hkeywords (breaks_wordsText hrest.breaks)).append hkeywordsEnd
        (adds_words hothers hrest.breaks)
      simpa [TypePhrase.text, TypePhrase.tokens, hsizes] using hall
    · have hall := endsIs_append hkeywordsEnd (endsIs_keywords hothers)
      simpa [TypePhrase.tokens, hsizes] using hall
  · constructor
    · intro rest hrest
      have hlast : Adds normalizeNfc (wordsText p.others) _ rest :=
        adds_words hothers hrest.breaks
      have hmiddle := (itemReads_parens (itemReads_sizes hsizes) _).append (endsIs_parens _) hlast
      have hall := (hkeywords (breaks_leftParen _)).append hkeywordsEnd hmiddle
      simpa [TypePhrase.text, TypePhrase.tokens, hsizes] using hall
    · have hall := endsIs_append (endsIs_append hkeywordsEnd (endsIs_parens
        ([commaToken].intercalate (p.sizes.map fun n => [(natDigits n).token]))))
        (endsIs_keywords hothers)
      simpa [TypePhrase.tokens, hsizes] using hall

/-! ## Cells -/

def castTokens (normalizeNfc : Text → Text) (typ : DataType) (value : Text) : List Token :=
  keyword "CAST" :: leftParen :: stringToken normalizeNfc value :: keyword "AS" ::
    (typ.phrase.tokens ++ [rightParen])

/-- One literal, or one CAST of a string, that denotes a value of the type. -/
inductive CellTokens (normalizeNfc : Text → Text) (typ : DataType) (value : Text) :
    List Token → Prop
  | string (h : typ.typ.isString) :
    CellTokens normalizeNfc typ value [stringToken normalizeNfc value]
  | number (h : typ.typ.isNumber) (n : NumericLiteral) (hn : n.text = value) :
      CellTokens normalizeNfc typ value n.tokens
  | truth (h : typ.typ = .boolean) (word : String) (hword : word ∈ ["TRUE", "FALSE", "UNKNOWN"])
      (hvalue : value.toUpper.str = word) : CellTokens normalizeNfc typ value [keyword word]
  | cast (h : ¬typ.typ.isString) : CellTokens normalizeNfc typ value
      (castTokens normalizeNfc typ
        (if typ.typ.isDatetime then castableDatetime value else value))

/-- The text has no noncharacters, and if it is only made of the characters of numbers it is
a number. -/
def Importable (typ : DataType) (value : Text) : Prop :=
  value.any isNoncharacter = false ∧
    (typ.typ.isNumber → value ≠ [] → value.all isNumberChar → ∃ n : NumericLiteral, n.text = value)

theorem itemReads_quoteString {value : Text} (h : value.any isNoncharacter = false) :
    ItemReads normalizeNfc (quoteString value) [stringToken normalizeNfc value] where
  adds _ hrest := (pushes_string h hrest.endsString).adds
  endsIs := by simp [endsIs, stringToken]

theorem endsString_as (rest : Text) : EndsString (" AS ".toList ++ rest) := by
  refine ⟨by simp, false, 'A' :: ('S' :: ' ' :: rest), ?_, rfl⟩
  have hspace : isWhiteSpace 'A' = false := by decide
  simp [skipSeparators, skipSeparatorsFrom, isComment, hspace]
  decide

theorem castLiteral_eq (typ : DataType) (value : Text) :
    castLiteral typ value = ("CAST".toList ++ ['(']) ++ (quoteString value ++
      (([' '] ++ ("AS".toList ++ [' '])) ++ (typ.phrase.text ++ [')']))) := by
  have htype := DataType.str_toList (t := { typ with notNull := false }) rfl
  rw [castLiteral, htype]
  simp
  rfl

theorem castTokens_eq (typ : DataType) (value : Text) :
    castTokens normalizeNfc typ value = [keyword "CAST", leftParen] ++
      ([stringToken normalizeNfc value] ++ ([keyword "AS"] ++
        (typ.phrase.tokens ++ [rightParen]))) := rfl

theorem itemReads_castLiteral {typ : DataType} {value : Text}
    (h : value.any isNoncharacter = false) :
    ItemReads normalizeNfc (castLiteral typ value) (castTokens normalizeNfc typ value) := by
  have htype : ItemReads normalizeNfc typ.phrase.text _ := typ.phrase_isRead.itemReads
  rw [castLiteral_eq, castTokens_eq]
  constructor
  · intro rest _
    have hcast : ∀ {rest}, Adds normalizeNfc ("CAST".toList ++ ['(']) [keyword "CAST", leftParen]
        rest :=
      (adds_keyword (isKeyword_of_mem rfl) (breaks_leftParen _)).append rfl adds_leftParen
    have has : ∀ {rest}, Adds normalizeNfc ([' '] ++ ("AS".toList ++ [' '])) [keyword "AS"] rest :=
      adds_blank.append rfl ((adds_keyword (isKeyword_of_mem rfl) (breaks_blank _)).append
        rfl adds_blank)
    have htyped := (htype.adds ([')'] ++ rest) (endsItem_rightParen _)).append htype.endsIs
      adds_rightParen
    have hstring : Adds normalizeNfc (quoteString value) _ _ :=
      (pushes_string h (endsString_as (typ.phrase.text ++ [')'] ++ rest))).adds
    exact hcast.append rfl (Adds.append hstring rfl (has.append rfl htyped))
  · exact endsIs_append rfl (endsIs_append rfl (endsIs_append rfl
      (endsIs_append htype.endsIs rfl)))

theorem isNoncharacter_replaceDatetimeT (offset : Nat) (s : Text) :
    (replaceDatetimeT offset s).any isNoncharacter = s.any isNoncharacter := by
  induction s generalizing offset with
  | nil => rfl
  | cons c s ih =>
      rw [replaceDatetimeT]
      split
      · next h =>
          have hT : isNoncharacter 'T' = false := by decide
          have hspace : isNoncharacter ' ' = false := by decide
          simp [h.2, hT, hspace]
      · simp [ih]

theorem isNoncharacter_separateOffset (t : Text) :
    (separateOffset t).any isNoncharacter = t.any isNoncharacter := by
  have hcolon : isNoncharacter ':' = false := by decide
  unfold separateOffset
  split
  · next d c b a sign first others hreverse =>
      have ht : t = (d :: c :: b :: a :: sign :: first :: others).reverse := by
        rw [← hreverse, List.reverse_reverse]
      split
      · rw [ht]
        simp [List.any_append, hcolon]
      · rfl
  · rfl

theorem isNoncharacter_castableDatetime (s : Text) :
    (castableDatetime s).any isNoncharacter = s.any isNoncharacter := by
  rw [castableDatetime, isNoncharacter_separateOffset, isNoncharacter_replaceDatetimeT]

theorem itemReads_number (n : NumericLiteral) : ItemReads normalizeNfc n.text n.tokens where
  adds _ hrest := (pushes_number n hrest.endsNumber).adds
  endsIs := by
    obtain ⟨sign, number, e⟩ := n
    refine endsIs_append (endsIs_signTokens sign) ?_
    cases e with
    | none => cases number <;> rfl
    | some e =>
        have he : endsIs e.tokens = false := by
          obtain ⟨isUpper, _ | _ | _, digits⟩ := e <;> rfl
        refine endsIs_append ?_ he
        cases number <;> rfl

theorem itemReads_keyword {word : String} (h : importWords.contains word) :
    ItemReads normalizeNfc word.toList [keyword word] where
  adds _ hrest := adds_keyword (isKeyword_of_mem h) hrest.breaks
  endsIs := endsIs_keyword (isKeyword_of_mem h)

/-- Every literal that is written is read as one. -/
theorem itemReads_sqlLiteral {typ : DataType} {value : Text} (h : Importable typ value) :
    ∃ tokens, CellTokens normalizeNfc typ value tokens ∧
      ItemReads normalizeNfc (sqlLiteral typ value) tokens := by
  obtain ⟨hchars, hnumber⟩ := h
  have hcast : ∀ {text}, ¬typ.typ.isString →
      (if typ.typ.isDatetime then castableDatetime value else value) = text →
      text.any isNoncharacter = false →
      ∃ tokens, CellTokens normalizeNfc typ value tokens ∧
        ItemReads normalizeNfc (castLiteral typ text) tokens := by
    rintro text hstring rfl htext
    exact ⟨_, .cast hstring, itemReads_castLiteral htext⟩
  unfold sqlLiteral
  split
  case h_1 htyp | h_2 htyp =>
    exact ⟨_, .string (by rw [htyp]; rfl), itemReads_quoteString hchars⟩
  case h_3 htyp | h_4 htyp | h_5 htyp | h_6 htyp | h_7 htyp | h_8 htyp | h_9 htyp =>
    have hisNumber : typ.typ.isNumber := by rw [htyp]; rfl
    split
    · next hvalue =>
        obtain ⟨n, rfl⟩ := hnumber hisNumber hvalue.1 hvalue.2
        exact ⟨_, .number hisNumber n rfl, itemReads_number n⟩
    · exact hcast (by rw [htyp]; decide) (by rw [htyp]; rfl) hchars
  case h_10 htyp =>
    split
    · next hword =>
        have htext : value.toUpper = value.toUpper.str.toList := by simp [Text.str]
        have hmem : importWords.contains value.toUpper.str := by
          simp only [List.contains_cons, List.contains_nil, Bool.or_false, Bool.or_eq_true,
            beq_iff_eq] at hword
          obtain h | h | h := hword <;> rw [h] <;> rfl
        refine ⟨_, .truth htyp value.toUpper.str (by simpa using hword) rfl, ?_⟩
        rw [htext]
        simpa [Text.str] using itemReads_keyword hmem
    · exact hcast (by rw [htyp]; decide) (by rw [htyp]; rfl) hchars
  case h_11 htyp | h_12 htyp | h_13 htyp | h_14 htyp | h_15 htyp =>
    refine hcast (by rw [htyp]; decide) (by rw [htyp]; rfl) ?_
    rw [isNoncharacter_castableDatetime, hchars]

end Vsql
