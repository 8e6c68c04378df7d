import Mathlib.Data.List.Forall2
import Vsql.Lexer.PrintedNames
import Vsql.Lexer.Statements
import Vsql.Sequences.Definition
import Vsql.Sequences.Issued

/-!
# Reading a stored sequence

The definition and the value are read as they were written.  Only the implicit limits are
inferred, from the values that the sequence has.
-/

namespace Vsql

open Foundation Lexer Identifier Rows Reader

variable {normalizeNfc : Text → Text}

/-! ## Numbers -/

def i64Sign (x : Int64) : Option Sign := if x.toInt < 0 then some .minus else none

def i64Tokens (x : Int64) : List Token :=
  signTokens (i64Sign x) ++ [(natDigits x.toInt.natAbs).token]

theorem i64Text_eq (x : Int64) :
    i64Text x = Lexer.signText (i64Sign x) ++ (natDigits x.toInt.natAbs).text := by
  unfold i64Text i64Sign natDigits
  cases x.toInt with
  | ofNat n => rfl
  | negSucc n =>
      have hneg : Int.negSucc n < 0 := Int.negSucc_lt_zero n
      rw [if_pos hneg]
      simp [Lexer.signText, Sign.char, Int.repr]

theorem length_natDigits {n k : Nat} (hk : 0 < k) (h : n < 10 ^ k) :
    (natDigits n).text.length ≤ k := by
  simpa [natDigits, Nat.toString_eq_repr, Nat.toList_repr] using
    (Nat.length_toDigits_le_iff (by decide) hk).2 h

theorem ofDigitChars_natDigits (n : Nat) : Nat.ofDigitChars 10 (natDigits n).text 0 = n := by
  simp [natDigits, Nat.toString_eq_repr, Nat.toList_repr, Nat.ofDigitChars_ten_toDigits]

theorem ofContent_int (typ : SqlType) {n : Int} (htyp : typ.isInteger)
    (hlow : -2 ^ (typ.intBits - 1) ≤ n) (hhigh : n < 2 ^ (typ.intBits - 1)) :
    ∃ v, Value.ofContent { typ := typ } (.int n) = .ok v ∧ v.asExactNumeric.numerator = n ∧
      v.asInt = .ofInt n := by
  have hfits : (Content.int n).Fits { typ := typ } := ⟨htyp, hlow, hhigh⟩
  have hdecimal : typ.isExactDecimal = false := by
    cases typ <;> first | rfl | cases htyp
  refine ⟨_, dif_pos hfits, ?_, ?_⟩
  · simp [Value.asExactNumeric, hdecimal, Value.intValue, Numeric.ofInt]
  · simp [Value.asInt, usesInt, hdecimal, htyp, Value.intValue]

/-- The digits of a number that may be one too large for its type, before it has its sign. -/
theorem numericLiteral_digits (negative : Bool) {n : Nat} (hn : n < 10 ^ 20) {m : Int}
    (hm : m = if negative then -(n : Int) else n) :
    ∃ v, numericLiteral negative (natDigits n).text = .ok v ∧ v.asExactNumeric.numerator = m ∧
      (-2 ^ 63 ≤ m → m < 2 ^ 63 → v.asInt = .ofInt m) := by
  have hlength : ¬ maxNumericPrecision < ((natDigits n).text.dropWhile (· == '0')).length := by
    have h := length_natDigits (by decide) hn
    have hdrop := (List.dropWhile_suffix (· == '0') (l := (natDigits n).text)).length_le
    rw [maxNumericPrecision]
    omega
  unfold numericLiteral
  simp only [if_neg hlength, ofDigitChars_natDigits, ← hm]
  split
  · next h =>
      obtain ⟨v, hv, hnumerator, hint⟩ := ofContent_int .smallint rfl h.1 h.2
      exact ⟨v, hv, hnumerator, fun _ _ => hint⟩
  · split
    · next h =>
        obtain ⟨v, hv, hnumerator, hint⟩ := ofContent_int .integer rfl h.1 h.2
        exact ⟨v, hv, hnumerator, fun _ _ => hint⟩
    · split
      · next h =>
          obtain ⟨v, hv, hnumerator, hint⟩ := ofContent_int .bigint rfl h.1 h.2
          exact ⟨v, hv, hnumerator, fun _ _ => hint⟩
      · next h =>
          have hbound : (m.natAbs : Int) < 10 ^ maxNumericPrecision * 1 := by
            have hpow : (10 : Int) ^ 20 ≤ 10 ^ maxNumericPrecision := by
              rw [maxNumericPrecision]
              exact pow_le_pow_right₀ (by decide) (by decide)
            split at hm <;> omega
          refine ⟨_, dif_pos ⟨rfl, ⟨rfl, Nat.zero_le _⟩, ⟨Int.one_pos, by norm_num⟩, hbound⟩, rfl,
            ?_⟩
          intro hlow hhigh
          exact absurd ⟨hlow, hhigh⟩ h

theorem parseSignedNumber_i64 (x : Int64) :
    ∃ v, v.asInt = x ∧
      ∀ rest, parseSignedNumber (i64Tokens x ++ rest) = some (.ok v, rest) := by
  have hlow := x.le_toInt
  have hhigh := x.toInt_lt
  unfold i64Tokens i64Sign
  split
  · next hneg =>
      obtain ⟨v, hv, hnumerator, -⟩ :=
        numericLiteral_digits false (n := x.toInt.natAbs) (by omega) rfl
      obtain ⟨w, hw, -, hint⟩ :=
        numericLiteral_digits true (n := x.toInt.natAbs) (m := x.toInt) (by omega)
          (by rw [if_pos rfl]; omega)
      refine ⟨w, ?_, fun rest => ?_⟩
      · rw [hint hlow hhigh, Int64.ofInt_toInt]
      · have hsigned : signedNumericLiteral true v = .ok w := by
          rw [← hw, signedNumericLiteral, hnumerator]
          rfl
        have hbind : (numericLiteral false (natDigits x.toInt.natAbs).text >>=
            signedNumericLiteral true) = .ok w := by
          rw [hv]
          exact hsigned
        rw [← hbind]
        rfl
  · next hpos =>
      obtain ⟨v, hv, -, hint⟩ :=
        numericLiteral_digits false (n := x.toInt.natAbs) (m := x.toInt) (by omega)
          (by rw [if_neg (by decide)]; omega)
      refine ⟨v, ?_, fun rest => ?_⟩
      · rw [hint hlow hhigh, Int64.ofInt_toInt]
      · rw [← hv]
        rfl

/-! ## Lines -/

def EndsLine (rest : Text) : Prop := ∀ c ∈ rest.head?, c = '\n'

theorem EndsLine.endsNumber {rest : Text} (h : EndsLine rest) : EndsNumber rest := by
  intro c hc
  rw [h c hc]
  decide

theorem EndsLine.ends {rest : Text} (h : EndsLine rest) : Ends rest := by
  constructor
  · intro c hc
    rw [h c hc]
    decide
  · intro hquote
    exact absurd (h '"' hquote) (by decide)

structure LineReads (normalizeNfc : Text → Text) (line : Text) (tokens : List Token) : Prop where
  adds : ∀ rest, EndsLine rest → Adds normalizeNfc line tokens rest
  endsIs : endsIs tokens = false
  words : Words tokens
  last : ∃ c, line.getLast? = some c ∧ c ≠ ';'

theorem lineReads_keyword {word : String} (h : isKeyword word)
    (hlast : ∃ c, word.toList.getLast? = some c ∧ c ≠ ';') :
    LineReads normalizeNfc word.toList [keyword word] where
  adds _ hrest := adds_keyword h hrest.ends.1
  endsIs := endsIs_keyword h
  words := by simpa using @words_keywords [word] (by simpa using h)
  last := hlast

theorem getLast?_i64Text (x : Int64) : ∃ c, (i64Text x).getLast? = some c ∧ c ≠ ';' := by
  rw [i64Text_eq]
  obtain ⟨others, d, htext⟩ :=
    (List.eq_nil_or_concat' (natDigits x.toInt.natAbs).text).resolve_left (natDigits _).ne
  have hdigit : isDigit d = true := (natDigits x.toInt.natAbs).all d (by simp [htext])
  refine ⟨d, by simp [htext], ?_⟩
  rintro rfl
  exact absurd hdigit (by decide)

theorem lineReads_value {first : String} {others : List String}
    (h : ∀ word ∈ first :: others, isKeyword word) (x : Int64) :
    LineReads normalizeNfc (first.toList ++ (wordsText others ++ ' ' :: i64Text x))
      ((first :: others).map keyword ++ i64Tokens x) where
  adds rest hrest := by
    have hfirst := h first (by simp)
    have hothers : ∀ word ∈ others, isKeyword word := fun word hword => h word (by simp [hword])
    have hnumber : Adds normalizeNfc (i64Text x) (i64Tokens x) rest := by
      rw [i64Text_eq]
      exact (pushes_signedDigits hrest.endsNumber).adds
    have hblank : Adds normalizeNfc ([' '] ++ i64Text x) ([] ++ i64Tokens x) rest :=
      adds_blank.append rfl hnumber
    have hwords :=
      Adds.append (adds_words hothers (breaks_blank _)) (endsIs_keywords hothers) hblank
    have hbreaks : Breaks ((wordsText others ++ ' ' :: i64Text x) ++ rest) := by
      rw [List.append_assoc]
      exact breaks_wordsText (breaks_blank _)
    have hall := (adds_keyword hfirst hbreaks).append (endsIs_keyword hfirst) hwords
    simpa using hall
  endsIs := by
    rw [i64Tokens, ← List.append_assoc]
    exact endsIs_digits _ _
  words := by
    rw [words_append, i64Tokens, words_append]
    refine ⟨words_keywords h, ?_, by simp [Words, Digits.token, isPlaceWord, isName]⟩
    unfold i64Sign
    split <;> decide
  last := by
    obtain ⟨c, hc, hne⟩ := getLast?_i64Text x
    exact ⟨c, by simp [List.getLast?_append, List.getLast?_cons, hc], hne⟩

theorem adds_lines {lines : List Text} {items : List (List Token)}
    (h : List.Forall₂ (LineReads normalizeNfc) lines items) (hlines : lines ≠ []) :
    Adds normalizeNfc ("\n  ".toList.intercalate lines) items.flatten [] := by
  induction h with
  | nil => exact absurd rfl hlines
  | @cons line tokens lines items hfirst hothers ih =>
      cases hothers with
      | nil => simpa using hfirst.adds [] (by simp [EndsLine])
      | @cons next nextTokens lines items hnext hothers =>
          have hbreak : Adds normalizeNfc (['\n'] ++ ([' '] ++ [' '])) ([] ++ ([] ++ []))
              ("\n  ".toList.intercalate (next :: lines) ++ []) :=
            (pushes_whiteSpace (by decide)).adds.append rfl (adds_blank.append rfl adds_blank)
          have hrest := hbreak.append rfl (ih (by simp))
          have hall := (hfirst.adds _ (by simp [EndsLine])).append hfirst.endsIs hrest
          simpa [List.intercalate_cons_cons] using hall

theorem getLast?_lines {lines : List Text} {items : List (List Token)}
    (h : List.Forall₂ (LineReads normalizeNfc) lines items) (hlines : lines ≠ []) :
    ∃ c, ("\n  ".toList.intercalate lines).getLast? = some c ∧ c ≠ ';' := by
  induction h with
  | nil => exact absurd rfl hlines
  | @cons line tokens lines items hfirst hothers ih =>
      cases hothers with
      | nil => simpa using hfirst.last
      | @cons next nextTokens lines items hnext hothers =>
          obtain ⟨c, hc, hne⟩ := ih (by simp)
          refine ⟨c, ?_, hne⟩
          rw [List.intercalate_cons_cons, List.getLast?_append, List.getLast?_append, hc]
          rfl

theorem words_lines {lines : List Text} {items : List (List Token)}
    (h : List.Forall₂ (LineReads normalizeNfc) lines items) : Words items.flatten := by
  induction h with
  | nil => simp [Words]
  | cons hline _ ih => exact words_append.2 ⟨hline.words, ih⟩

/-! ## Options -/

/-- A line that is read as an option with this effect. -/
structure OptionReads (normalizeNfc : Text → Text) (line : Text) (tokens : List Token)
    (option : SequenceGeneratorOption) : Prop extends LineReads normalizeNfc line tokens where
  parses : ∀ rest, parseSequenceOption (tokens ++ rest) = some (.ok option, rest)

/-- What an option does when the sequence is made. -/
abbrev OptionEffect := Sequence × Bool → Sequence × Bool

def OptionIs (normalizeNfc : Text → Text) (line : Text) (effect : OptionEffect) : Prop :=
  ∃ tokens option, OptionReads normalizeNfc line tokens option ∧
    ∀ p, defineOption p option = effect p

theorem optionIs_value (first : String) (others : List String) (x : Int64) {line : Text}
    {option : Value → SequenceGeneratorOption} {effect : OptionEffect}
    (hline : line = first.toList ++ (wordsText others ++ ' ' :: i64Text x))
    (hwords : ∀ word ∈ first :: others, isKeyword word)
    (hparse : ∀ rest, parseSequenceOption ((first :: others).map keyword ++ rest) =
      parseOptionValue option rest)
    (heffect : ∀ v, v.asInt = x → ∀ p, defineOption p (option v) = effect p) :
    OptionIs normalizeNfc line effect := by
  obtain ⟨v, hv, hreads⟩ := parseSignedNumber_i64 x
  subst hline
  refine ⟨_, option v, ⟨lineReads_value hwords x, fun rest => ?_⟩, heffect v hv⟩
  rw [List.append_assoc, hparse, parseOptionValue, hreads]
  rfl

/-- The options of a definition that are after its name. -/
def Sequence.optionLines (s : Sequence) : List Text :=
  ["START WITH ".toList ++ i64Text s.startValue, "INCREMENT BY ".toList ++ i64Text s.incrementBy] ++
    ((if s.hasMinValue then ["MINVALUE ".toList ++ i64Text s.minValue] else []) ++
      ((if s.hasMaxValue then ["MAXVALUE ".toList ++ i64Text s.maxValue] else []) ++
        if s.cycle then ["CYCLE".toList] else []))

def Sequence.optionEffects (s : Sequence) : List OptionEffect :=
  [fun p => ({ p.1 with startValue := s.startValue }, true),
    fun p => ({ p.1 with incrementBy := s.incrementBy }, p.2)] ++
    ((if s.hasMinValue then
        [fun p => ({ p.1 with minValue := s.minValue, hasMinValue := true }, p.2)] else []) ++
      ((if s.hasMaxValue then
          [fun p => ({ p.1 with maxValue := s.maxValue, hasMaxValue := true }, p.2)] else []) ++
        if s.cycle then [fun p => ({ p.1 with cycle := true }, p.2)] else []))

theorem Sequence.definitionBytes_eq (s : Sequence) :
    s.definitionBytes = "\n  ".toList.intercalate
      (("CREATE SEQUENCE ".toList ++ s.name.storageSql) :: s.optionLines) := by
  unfold definitionBytes optionLines
  cases s.hasMinValue <;> cases s.hasMaxValue <;> cases s.cycle <;> rfl

theorem forall₂_if {α β : Type} {R : α → β → Prop} {b : Bool} {x : α} {y : β} (h : R x y) :
    List.Forall₂ R (if b then [x] else []) (if b then [y] else []) := by
  cases b with
  | true => exact .cons h .nil
  | false => exact .nil

theorem optionIs_optionLines (normalizeNfc : Text → Text) (s : Sequence) :
    List.Forall₂ (OptionIs normalizeNfc) s.optionLines s.optionEffects := by
  have hstart : ∀ word ∈ ["START", "WITH"], isKeyword word := by decide +kernel
  have hincrement : ∀ word ∈ ["INCREMENT", "BY"], isKeyword word := by decide +kernel
  have hmin : ∀ word ∈ ["MINVALUE"], isKeyword word := by decide +kernel
  have hmax : ∀ word ∈ ["MAXVALUE"], isKeyword word := by decide +kernel
  have hcycle : isKeyword "CYCLE" := by decide +kernel
  unfold Sequence.optionLines Sequence.optionEffects
  refine List.rel_append ?_ (List.rel_append (forall₂_if ?_)
    (List.rel_append (forall₂_if ?_) (forall₂_if ?_)))
  · refine .cons ?_ (.cons ?_ .nil)
    · refine optionIs_value "START" ["WITH"] s.startValue rfl hstart (fun _ => rfl) ?_
      intro v hv p
      rw [← hv]
      rfl
    · refine optionIs_value "INCREMENT" ["BY"] s.incrementBy rfl hincrement (fun _ => rfl) ?_
      intro v hv p
      rw [← hv]
      rfl
  · refine optionIs_value "MINVALUE" [] s.minValue rfl hmin (fun _ => rfl) ?_
    intro v hv p
    rw [← hv]
    rfl
  · refine optionIs_value "MAXVALUE" [] s.maxValue rfl hmax (fun _ => rfl) ?_
    intro v hv p
    rw [← hv]
    rfl
  · have hline : LineReads normalizeNfc "CYCLE".toList _ :=
      lineReads_keyword hcycle ⟨'E', rfl, by decide⟩
    exact ⟨_, .cycle true, ⟨hline, fun _ => rfl⟩, fun _ => rfl⟩

theorem OptionReads.ne_nil {line : Text} {tokens : List Token} {option : SequenceGeneratorOption}
    (h : OptionReads normalizeNfc line tokens option) : tokens ≠ [] := by
  rintro rfl
  cases h.parses []

theorem OptionReads.parseSequenceOptions {line : Text} {tokens rest : List Token}
    {option : SequenceGeneratorOption} {options : List SequenceGeneratorOption} {fuel : Nat}
    (h : OptionReads normalizeNfc line tokens option)
    (hrest : parseSequenceOptions fuel rest = some (.ok options)) :
    Vsql.parseSequenceOptions (fuel + 1) (tokens ++ rest) = some (.ok (option :: options)) := by
  have hparses := h.parses rest
  cases tokens with
  | nil => exact absurd rfl h.ne_nil
  | cons token others =>
      rw [List.cons_append] at hparses ⊢
      simp only [Vsql.parseSequenceOptions, hparses, Option.bind_eq_bind, Option.bind_some, hrest]
      rfl

theorem OptionReads.head?_ne_period {line : Text} {tokens rest : List Token}
    {option : SequenceGeneratorOption}
    (h : OptionReads normalizeNfc line tokens option) :
    ∀ token ∈ (tokens ++ rest).head?, token.token ≠ "OPERATOR_PERIOD" := by
  have hparses := h.parses rest
  cases htokens : tokens ++ rest with
  | nil => simp
  | cons token others =>
      rintro _ ⟨⟩ hperiod
      obtain ⟨name, v⟩ := token
      subst hperiod
      rw [htokens] at hparses
      simp [parseSequenceOption] at hparses

/-- The options are parsed, and together they have the effect of all of their lines. -/
theorem parseSequenceOptions_lines {lines : List Text} {effects : List OptionEffect}
    (h : List.Forall₂ (OptionIs normalizeNfc) lines effects) :
    ∃ items options, List.Forall₂ (LineReads normalizeNfc) lines items ∧
      (∀ fuel, items.flatten.length ≤ fuel →
        parseSequenceOptions fuel items.flatten = some (.ok options)) ∧
      (∀ token ∈ items.flatten.head?, token.token ≠ "OPERATOR_PERIOD") ∧
      ∀ p, options.foldl defineOption p = effects.foldl (fun p effect => effect p) p := by
  induction h with
  | nil =>
      refine ⟨[], [], .nil, fun fuel _ => ?_, by simp, fun _ => rfl⟩
      cases fuel <;> rfl
  | cons hline _ ih =>
      obtain ⟨tokens, option, hreads, heffect⟩ := hline
      obtain ⟨items, options, hitems, hparse, -, heffects⟩ := ih
      refine ⟨tokens :: items, option :: options, .cons hreads.toLineReads hitems, ?_,
        hreads.head?_ne_period, ?_⟩
      · intro fuel hfuel
        have hlength := List.length_pos_iff.2 hreads.ne_nil
        rw [List.flatten_cons, List.length_append] at hfuel
        obtain ⟨fuel, rfl⟩ : ∃ n, fuel = n + 1 := ⟨fuel - 1, by omega⟩
        exact hreads.parseSequenceOptions (hparse fuel (by omega))
      · intro p
        rw [List.foldl_cons, List.foldl_cons, heffect, heffects]

/-! ## The definition -/

/-- A sequence is in a schema, and its name is one that a CREATE SEQUENCE can give it. -/
structure SequenceName (e : Identifier) : Prop where
  schema : e.schemaName ≠ [] ∧ e.schemaName.length ≤ maxIdentifierLength
  entity : e.entityName ≠ [] ∧ e.entityName.length ≤ maxIdentifierLength
  notDefinitionSchema : e.schemaName ≠ "DEFINITION_SCHEMA".toList
  subEntity : e.subEntityName = []

def delimitedToken (part : Text) : Token :=
  ⟨"LITERAL_IDENTIFIER", .chain (delimitIdentifier part)⟩

def sequenceNameTokens (e : Identifier) : List Token :=
  [delimitedToken e.schemaName, period, delimitedToken e.entityName]

theorem SequenceName.storageParts {e : Identifier} (h : SequenceName e) :
    e.storageParts = [e.schemaName, e.entityName] := by
  simp [Identifier.storageParts, h.schema.1, h.entity.1, h.subEntity]

theorem SequenceName.lineReads {e : Identifier} (h : SequenceName e) :
    LineReads normalizeNfc ("CREATE SEQUENCE ".toList ++ e.storageSql)
      ([keyword "CREATE", keyword "SEQUENCE"] ++ sequenceNameTokens e) where
  adds rest hrest := by
    have hcreate : isKeyword "CREATE" := by decide +kernel
    have hsequence : isKeyword "SEQUENCE" := by decide +kernel
    have hname : Adds normalizeNfc e.storageSql (sequenceNameTokens e) rest := by
      intro tokens _
      rw [Identifier.storageSql, h.storageParts]
      have hreads : ∀ name ∈ [e.schemaName, e.entityName], ∀ tokens rest, Ends rest →
          Lexer.Reads normalizeNfc (delimitIdentifier name) tokens (tokens ++ [delimitedToken name])
            rest := by
        intro name hname tokens rest hends
        refine reads_delimitIdentifier ?_ hends
        obtain rfl | rfl : name = e.schemaName ∨ name = e.entityName := by simpa using hname
        · exact h.schema.1
        · exact h.entity.1
      exact reads_intercalate (by simp) hreads hrest.ends
    have hwords : Adds normalizeNfc ("CREATE".toList ++ ([' '] ++ ("SEQUENCE".toList ++ [' '])))
        ([keyword "CREATE"] ++ ([] ++ ([keyword "SEQUENCE"] ++ []))) (e.storageSql ++ rest) :=
      (adds_keyword hcreate (breaks_blank _)).append rfl
        (adds_blank.append rfl ((adds_keyword hsequence (breaks_blank _)).append rfl adds_blank))
    exact hwords.append rfl hname
  endsIs := rfl
  words := by
    have hplace (part : Text) : isPlaceWord (delimitedToken part) = false :=
      isPlaceWord_delimitIdentifier part
    rw [words_append]
    refine ⟨by decide, ?_⟩
    simp only [sequenceNameTokens, words_cons, hplace, true_and]
    decide
  last := by
    rw [Identifier.storageSql, h.storageParts]
    exact ⟨'"', by simp [List.intercalate, delimitIdentifier, List.getLast?_cons], by decide⟩

theorem newTableIdentifier_storageSql {e : Identifier} (h : SequenceName e) :
    newTableIdentifier e.storageSql =
      .ok { schemaName := e.schemaName, entityName := e.entityName } := by
  have hsplit : splitIdentifierParts e.storageSql = .ok [e.schemaName, e.entityName] := by
    rw [Identifier.storageSql, h.storageParts]
    refine splitIdentifierParts_intercalate (fun part _ => writes_delimitIdentifier part) (by simp)
      ?_ ?_
    · simpa using ⟨h.schema.1, h.entity.1⟩
    · simpa using ⟨h.schema.2, h.entity.2⟩
  rw [newTableIdentifier, hsplit]
  show (checkSchemaName e.schemaName >>= fun _ => _) = _
  rw [checkSchemaName, if_neg h.notDefinitionSchema]
  rfl

theorem parseSchemaQualifiedName_name (e : Identifier) {rest : List Token}
    (hrest : ∀ token ∈ rest.head?, token.token ≠ "OPERATOR_PERIOD") :
    parseSchemaQualifiedName 2 (sequenceNameTokens e ++ rest) =
      some (delimitIdentifier e.schemaName ++ '.' :: delimitIdentifier e.entityName, rest) := by
  have hentity : parseSchemaQualifiedName 1 (delimitedToken e.entityName :: rest) =
      some (delimitIdentifier e.entityName, rest) := by
    cases rest with
    | nil => rfl
    | cons token others =>
        have htoken : token.token ≠ "OPERATOR_PERIOD" := hrest token rfl
        obtain ⟨name, v⟩ := token
        rw [parseSchemaQualifiedName]
        · rfl
        · rintro _ _ _ - ⟨⟩
          exact htoken rfl
  have hschema : identifierText (delimitedToken e.schemaName) =
      some (delimitIdentifier e.schemaName) := rfl
  simp only [sequenceNameTokens, List.cons_append, List.nil_append, period,
    parseSchemaQualifiedName, hentity, hschema, Option.bind_eq_bind, Option.bind_some]

/-- What the parser makes of the definition. -/
theorem parseDefinition_definitionBytes (normalizeNfc : Text → Text) {s : Sequence}
    (h : SequenceName s.name) :
    ∃ tokens stmt, tokenize normalizeNfc s.definitionBytes = .ok tokens ∧
      parseSequenceDefinition tokens = some (.ok stmt) ∧
      stmt.name = { schemaName := s.name.schemaName, entityName := s.name.entityName } ∧
      ∀ p, stmt.options.foldl defineOption p =
        s.optionEffects.foldl (fun p effect => effect p) p := by
  obtain ⟨items, options, hitems, hparse, hhead, heffects⟩ :=
    parseSequenceOptions_lines (optionIs_optionLines normalizeNfc s)
  have hlines := List.Forall₂.cons h.lineReads hitems
  obtain ⟨c, hlast, hc⟩ := getLast?_lines hlines (by simp)
  refine ⟨(([keyword "CREATE", keyword "SEQUENCE"] ++ sequenceNameTokens s.name) :: items).flatten,
    ⟨_, options, false⟩, ?_, ?_, rfl, heffects⟩
  · rw [s.definitionBytes_eq]
    refine tokenize_of_adds (adds_lines hlines (by simp)) ?_ ?_ ((words_lines hlines).stays [])
    · cases hoptions : s.optionLines <;> simp [List.intercalate_cons_cons]
    · rw [hlast]
      simpa using hc
  · rw [List.flatten_cons]
    show parseSequenceNameAndOptions false (sequenceNameTokens s.name ++ items.flatten) = _
    have htext : s.name.storageSql =
        delimitIdentifier s.name.schemaName ++ '.' :: delimitIdentifier s.name.entityName := by
      simp [Identifier.storageSql, h.storageParts, List.intercalate]
    have hname := newTableIdentifier_storageSql h
    rw [htext] at hname
    rw [parseSequenceNameAndOptions, parseSchemaQualifiedName_name _ hhead]
    simp only [Option.bind_eq_bind, Option.bind_some, hparse _ le_rfl, hname]
    rfl

/-! ## The value -/

/-- Everything but the limits that are not used, the transaction and the catalog of the name. -/
structure SameSequence (s t : Sequence) : Prop where
  startValue : t.startValue = s.startValue
  currentValue : t.currentValue = s.currentValue
  exhausted : t.exhausted = s.exhausted
  unused : t.unused = s.unused
  incrementBy : t.incrementBy = s.incrementBy
  cycle : t.cycle = s.cycle
  hasMinValue : t.hasMinValue = s.hasMinValue
  min : t.min = s.min
  hasMaxValue : t.hasMaxValue = s.hasMaxValue
  max : t.max = s.max

theorem withValue_valueBytes (s t : Sequence) :
    t.withValue.run s.valueBytes = .ok (t.withValueOf s, []) := by
  have hlow := s.currentValue.le_toInt
  have hhigh := s.currentValue.toInt_lt
  have hread : Reads (readInt 8) (writeInt 8 s.currentValue.toInt) s.currentValue.toInt :=
    reads_readInt (by omega) (by omega)
  have hrun (data : Bytes) : t.withValue.run data =
      (readInt 8 data >>= fun p => readFlag p.2 >>= fun q => readFlag q.2 >>= fun r =>
        .ok ({ t with currentValue := .ofInt p.1, exhausted := q.1, unused := r.1 }, r.2)) := rfl
  rw [hrun, Sequence.valueBytes, hread, Sequence.withValueOf]
  simp only [bind, Except.bind, Int64.ofInt_toInt]
  cases s.exhausted <;> cases s.unused <;> rfl

theorem sequence_stored {s : Sequence} {stmt : SequenceGeneratorDefinition} (name : Identifier)
    (h : ∀ p, stmt.options.foldl defineOption p =
      s.optionEffects.foldl (fun p effect => effect p) p) (tid : Nat) :
    SameSequence s (Sequence.withValueOf { stmt.sequence name with tid := tid } s) := by
  have hsequence : stmt.sequence name = { newSequence name with
      startValue := s.startValue
      currentValue := s.startValue - s.incrementBy
      incrementBy := s.incrementBy
      cycle := s.cycle
      hasMinValue := s.hasMinValue
      minValue := if s.hasMinValue then s.minValue else 0
      hasMaxValue := s.hasMaxValue
      maxValue := if s.hasMaxValue then s.maxValue else 0 } := by
    rw [SequenceGeneratorDefinition.sequence, h, Sequence.optionEffects]
    cases s.hasMinValue <;> cases s.hasMaxValue <;> cases s.cycle <;> rfl
  rw [hsequence]
  refine ⟨rfl, rfl, rfl, rfl, rfl, rfl, rfl, ?_, rfl, ?_⟩
  · simp only [Sequence.withValueOf, Sequence.min]
    cases s.hasMinValue <;> rfl
  · simp only [Sequence.withValueOf, Sequence.max]
    cases s.hasMaxValue <;> rfl

/-! ## Implicit limits -/

namespace Sequence

variable {s t : Sequence} {v : Int64}

theorem min_keepOldLimits : (s.keepOldLimits t v).min =
    if t.hasMinValue = false ∧ v < s.min then Int64.minValue else t.min := by
  unfold keepOldLimits
  dsimp only
  cases hmin : t.hasMinValue <;> by_cases hlow : v < s.min <;> simp [hlow] <;> split <;>
    simp [min, hmin]

theorem hasMinValue_keepOldLimits :
    (s.keepOldLimits t v).hasMinValue = (t.hasMinValue || decide (v < s.min)) := by
  unfold keepOldLimits
  dsimp only
  cases hmin : t.hasMinValue <;> by_cases hlow : v < s.min <;> simp [hlow] <;> split <;>
    simp [hmin]

theorem max_keepOldLimits : (s.keepOldLimits t v).max =
    if t.hasMaxValue = false ∧ s.max < v then Int64.maxValue else t.max := by
  unfold keepOldLimits
  dsimp only
  generalize s.max = limit
  split <;> cases hmax : t.hasMaxValue <;> by_cases hhigh : limit < v <;> simp [hhigh, max, hmax]

theorem hasMaxValue_keepOldLimits :
    (s.keepOldLimits t v).hasMaxValue = (t.hasMaxValue || decide (s.max < v)) := by
  unfold keepOldLimits
  dsimp only
  generalize s.max = limit
  split <;> cases hmax : t.hasMaxValue <;> by_cases hhigh : limit < v <;> simp [hhigh, hmax]

/-- A value of the sequence is below its minimum. -/
def Below (s : Sequence) : Prop :=
  s.startValue < s.min ∨ s.unused = false ∧ s.currentValue < s.min

def Above (s : Sequence) : Prop :=
  s.max < s.startValue ∨ s.unused = false ∧ s.max < s.currentValue

theorem min_withOldImplicitLimits : s.withOldImplicitLimits.min = s.min ↔
    (s.hasMinValue = false → ¬ s.Below) := by
  have hlowest (v : Int64) (h : v < s.min) : Int64.minValue ≠ s.min :=
    Int64.ne_of_lt (Int64.lt_of_le_of_lt (Int64.minValue_le v) h)
  unfold withOldImplicitLimits Below
  by_cases hstart : s.startValue < s.min
  · cases hmin : s.hasMinValue <;> cases s.unused <;>
      simp [min_keepOldLimits, hasMinValue_keepOldLimits, hmin, hstart, hlowest _ hstart]
  · cases hunused : s.unused with
    | true => simp [min_keepOldLimits, hstart]
    | false =>
        by_cases hcurrent : s.currentValue < s.min
        · cases hmin : s.hasMinValue <;>
            simp [min_keepOldLimits, hasMinValue_keepOldLimits, hmin, hstart, hcurrent,
              hlowest _ hcurrent]
        · simp [min_keepOldLimits, hstart, hcurrent]

theorem max_withOldImplicitLimits : s.withOldImplicitLimits.max = s.max ↔
    (s.hasMaxValue = false → ¬ s.Above) := by
  have hhighest (v : Int64) (h : s.max < v) : Int64.maxValue ≠ s.max :=
    (Int64.ne_of_lt (Int64.lt_of_lt_of_le h (Int64.le_maxValue v))).symm
  unfold withOldImplicitLimits Above
  by_cases hstart : s.max < s.startValue
  · cases hmax : s.hasMaxValue <;> cases s.unused <;>
      simp [max_keepOldLimits, hasMaxValue_keepOldLimits, hmax, hstart, hhighest _ hstart]
  · cases hunused : s.unused with
    | true => simp [max_keepOldLimits, hstart]
    | false =>
        by_cases hcurrent : s.max < s.currentValue
        · cases hmax : s.hasMaxValue <;>
            simp [max_keepOldLimits, hasMaxValue_keepOldLimits, hmax, hstart, hcurrent,
              hhighest _ hcurrent]
        · simp [max_keepOldLimits, hstart, hcurrent]

/-! ## The same sequence -/

/-- What is issued by the next calls, none for an error. -/
def nextValues : Nat → Sequence → List (Option Int64)
  | 0, _ => []
  | n + 1, s =>
      s.next.toOption.map (·.currentValue) :: nextValues n (s.next.toOption.getD s)

/-- The fields that decide what comes next. -/
structure IssuesAlike (s t : Sequence) : Prop where
  currentValue : t.currentValue = s.currentValue
  exhausted : t.exhausted = s.exhausted
  incrementBy : t.incrementBy = s.incrementBy
  cycle : t.cycle = s.cycle
  min : t.min = s.min
  max : t.max = s.max

theorem IssuesAlike.nextValue (h : s.IssuesAlike t) : t.nextValue = s.nextValue := by
  rw [Sequence.nextValue, Sequence.nextValue, h.currentValue, h.exhausted, h.incrementBy, h.min,
    h.max]

theorem IssuesAlike.reset (h : s.IssuesAlike t) : t.reset = s.reset := by
  rw [Sequence.reset, Sequence.reset, h.incrementBy, h.min, h.max]

theorem IssuesAlike.issue (h : s.IssuesAlike t) (v : Int64) :
    (s.issue v).IssuesAlike (t.issue v) := by
  refine ⟨rfl, ?_, h.incrementBy, h.cycle, h.min, h.max⟩
  rw [Sequence.issue, Sequence.issue, h.incrementBy]

theorem IssuesAlike.nextValues (h : s.IssuesAlike t) (n : Nat) :
    t.nextValues n = s.nextValues n := by
  induction n generalizing s t with
  | zero => rfl
  | succ n ih =>
      rw [Sequence.nextValues, Sequence.nextValues, next, next, h.nextValue, h.cycle, h.reset]
      cases s.nextValue with
      | some v => exact congrArg _ (ih (h.issue v))
      | none =>
          cases s.cycle with
          | true => exact congrArg _ (ih (h.issue _))
          | false => exact congrArg _ (ih h)

end Sequence

theorem newSequenceFromBytes_stored (normalizeNfc : Text → Text) {s : Sequence}
    (h : SequenceName s.name) (tid : Nat) :
    ∃ t, SameSequence s t ∧ newSequenceFromBytes normalizeNfc s.definitionBytes s.valueBytes tid =
      .ok t.withOldImplicitLimits := by
  obtain ⟨tokens, stmt, htokens, hparse, hname, heffects⟩ :=
    parseDefinition_definitionBytes normalizeNfc h
  refine ⟨_, sequence_stored ⟨[], stmt.name.schemaName, stmt.name.entityName, [], []⟩ heffects tid,
    ?_⟩
  simp only [newSequenceFromBytes, htokens, hparse, bind, Except.bind, withValue_valueBytes]
  rfl

/-- The limits that are read are those of the sequence exactly when it has no value outside of an
implicit limit. -/
theorem newSequenceFromBytes_same_iff (normalizeNfc : Text → Text) {s : Sequence}
    (h : SequenceName s.name) (tid : Nat) :
    ∃ t, newSequenceFromBytes normalizeNfc s.definitionBytes s.valueBytes tid = .ok t ∧
      ((t.min = s.min ∧ t.max = s.max ∧ t.incrementBy = s.incrementBy ∧ t.cycle = s.cycle ∧
          ∀ n, t.nextValues n = s.nextValues n) ↔
        (s.hasMinValue = false → ¬ s.Below) ∧ (s.hasMaxValue = false → ¬ s.Above)) := by
  obtain ⟨u, hsame, hread⟩ := newSequenceFromBytes_stored normalizeNfc h tid
  refine ⟨_, hread, ?_⟩
  have hbelow : u.Below ↔ s.Below := by
    simp only [Sequence.Below, hsame.startValue, hsame.unused, hsame.currentValue, hsame.min]
  have habove : u.Above ↔ s.Above := by
    simp only [Sequence.Above, hsame.startValue, hsame.unused, hsame.currentValue, hsame.max]
  have hmin := u.min_withOldImplicitLimits
  have hmax := u.max_withOldImplicitLimits
  rw [hsame.min, hsame.hasMinValue, hbelow] at hmin
  rw [hsame.max, hsame.hasMaxValue, habove] at hmax
  constructor
  · rintro ⟨htmin, htmax, -⟩
    exact ⟨hmin.1 htmin, hmax.1 htmax⟩
  · rintro ⟨hlow, hhigh⟩
    have halike : s.IssuesAlike u.withOldImplicitLimits := by
      have hwidens := u.widens_withOldImplicitLimits.same
      refine ⟨?_, ?_, ?_, ?_, hmin.2 hlow, hmax.2 hhigh⟩
      · rw [hwidens, ← hsame.currentValue]
      · rw [hwidens, ← hsame.exhausted]
      · rw [hwidens, ← hsame.incrementBy]
      · rw [hwidens, ← hsame.cycle]
    exact ⟨halike.min, halike.max, halike.incrementBy, halike.cycle, halike.nextValues⟩

def publicSequence : Identifier where
  schemaName := "PUBLIC".toList
  entityName := ['S']

/-- CREATE SEQUENCE S START WITH -5 MINVALUE -10 MAXVALUE 10 CYCLE -/
def explicitMinValue : Sequence where
  exhausted := false
  unused := true
  name := publicSequence
  startValue := -5
  currentValue := -6
  incrementBy := 1
  cycle := true
  hasMinValue := true
  minValue := -10
  hasMaxValue := true
  maxValue := 10

/-- ALTER SEQUENCE S RESTART WITH 5 NO MINVALUE -/
def noMinValue : Sequence := { explicitMinValue with currentValue := 4, hasMinValue := false }

theorem sequenceName_publicSequence : SequenceName publicSequence := by
  constructor <;> decide

theorem newSequenceFromBytes_same_iff_explicitMinValue :
    ∃ t, newSequenceFromBytes id explicitMinValue.definitionBytes explicitMinValue.valueBytes 1 =
        .ok t ∧
      ((t.min = explicitMinValue.min ∧ t.max = explicitMinValue.max ∧
          t.incrementBy = explicitMinValue.incrementBy ∧ t.cycle = explicitMinValue.cycle ∧
          ∀ n, t.nextValues n = explicitMinValue.nextValues n) ↔
        (explicitMinValue.hasMinValue = false → ¬ explicitMinValue.Below) ∧
          (explicitMinValue.hasMaxValue = false → ¬ explicitMinValue.Above)) :=
  newSequenceFromBytes_same_iff id sequenceName_publicSequence 1

/-- After the largest value the next cycle starts at 1, but not if the sequence was read. -/
theorem not_newSequenceFromBytes_same_noMinValue :
    SequenceOwner.external.Reachable SequenceOwner.exactFormats noMinValue ∧
      noMinValue.nextValues 7 =
        [some 5, some 6, some 7, some 8, some 9, some 10, some 1] ∧
      (newSequenceFromBytes id noMinValue.definitionBytes noMinValue.valueBytes 1).map
          (·.nextValues 7) =
        .ok [some 5, some 6, some 7, some 8, some 9, some 10, some Int64.minValue] := by
  refine ⟨⟨publicSequence, [.startWith (newBigintValue (-5)),
    .minvalue (some (newBigintValue (-10))), .maxvalue (some (newBigintValue 10)), .cycle true],
    explicitMinValue, [.alter [.restart (some (newBigintValue 5)), .minvalue none]], ?_, ?_⟩,
    ?_, ?_⟩
  · decide +kernel
  · decide +kernel
  · decide +kernel
  · decide +kernel

end Vsql
