import Vsql.Dump.Reading

/-!
# The tokens of a dump without schemas

The output of a definition is read as the tokens of the definition without the schema and its
period before each column of the table.
-/

namespace Vsql.Dump

open Foundation Lexer Identifier

variable {normalizeNfc : Text → Text} {name : Identifier}

/-! ## Tokens without the schema -/

def isPeriod (token : Token) : Bool := token.token == "OPERATOR_PERIOD"

/-- A column of the table starts here that is qualified with the schema. -/
def isSchema (name : Identifier) (previous : Option Token) (token : Token)
    (after : List Token) : Bool :=
  match after with
  | period :: table :: period' :: column :: _ =>
      !previous.any isPeriod && tokenName token == some name.schemaName && isPeriod period &&
        tokenName table == some name.entityName && isPeriod period' &&
        column.token != "LITERAL_NUMBER"
  | _ => false

/-- The schema is left out with the period after it. -/
def withoutSchema (name : Identifier) : (previous : Option Token) → List Token → List Token
  | _, [] => []
  | _, [token] => [token]
  | previous, token :: period :: after =>
      if isSchema name previous token (period :: after) then
        withoutSchema name (some period) after
      else token :: withoutSchema name (some token) (period :: after)

theorem withoutSchema_keep {previous : Option Token} {token : Token} {after : List Token}
    (h : isSchema name previous token after = false) :
    withoutSchema name previous (token :: after) =
      token :: withoutSchema name (some token) after := by
  cases after with
  | nil => rfl
  | cons period after => rw [withoutSchema, h, if_neg Bool.false_ne_true]

theorem isSchema_after_period {token : Token} {after : List Token} :
    isSchema name (some period) token after = false := by
  unfold isSchema
  split <;> rfl

theorem isSchema_of_no_name {previous : Option Token} {token : Token} {after : List Token}
    (h : tokenName token = none) : isSchema name previous token after = false := by
  unfold isSchema
  split
  · simp [h]
  · rfl

theorem tokenName_eq_none {token : Token} (h : token.token ∈ otherWords) :
    tokenName token = none := by
  cases hname : tokenName token with
  | none => rfl
  | some value => exact absurd rfl ((isName_of_tokenName hname).ne h)

/-- The parts of a name after a period stay. -/
theorem withoutSchema_parts (qualifier : List NamePart) (last : Token) (rest : List Token) :
    withoutSchema name (some period) (qualifierTokens qualifier ++ last :: rest) =
      qualifierTokens qualifier ++ last :: withoutSchema name (some last) rest := by
  induction qualifier with
  | nil => exact withoutSchema_keep isSchema_after_period
  | cons part qualifier ih =>
      rw [qualifierTokens_cons, List.cons_append, List.cons_append,
        withoutSchema_keep isSchema_after_period,
        withoutSchema_keep (isSchema_of_no_name (tokenName_eq_none (by decide))), ih]
      rfl

/-- Only a number starts with a period. -/
theorem exists_digits {segments : List Segment} (hvalid : ∀ segment ∈ segments, segment.Valid)
    {token : Token} {after : List Token} (h : tokensOf segments = token :: after)
    (hperiod : isPeriod token) : ∃ (digits : Digits) (rest : List Token),
      after = digits.token :: rest := by
  have hne : token.token = "OPERATOR_PERIOD" := beq_iff_eq.1 hperiod
  cases segments with
  | nil => cases h
  | cons segment segments =>
      have hsegment := hvalid segment (List.mem_cons_self ..)
      rw [tokensOf_cons] at h
      cases segment with
      | word qualifier last =>
          cases qualifier with
          | nil =>
              obtain ⟨rfl, -⟩ := List.cons.inj (show last :: tokensOf segments = _ from h)
              exact absurd hne hsegment.1
          | cons part qualifier =>
              obtain ⟨rfl, -⟩ := List.cons.inj (show part.token :: _ = token :: after from h)
              exact absurd hne part.token_ne_period
      | fraction digits =>
          obtain ⟨rfl, rfl⟩ :=
            List.cons.inj (show period :: digits.token :: tokensOf segments = _ from h)
          exact ⟨digits, tokensOf segments, rfl⟩

theorem isSchema_last {segments : List Segment} (hvalid : ∀ segment ∈ segments, segment.Valid)
    (previous : Option Token) (last : Token) :
    isSchema name previous last (tokensOf segments) = false := by
  unfold isSchema
  split
  · next dot table dot' column after heq =>
      by_contra h
      simp only [Bool.not_eq_false, Bool.and_eq_true, beq_iff_eq] at h
      obtain ⟨digits, rest, hdigits⟩ := exists_digits hvalid heq h.1.1.1.2
      obtain ⟨rfl, -⟩ := List.cons.inj hdigits
      have hother : digits.token.token ∈ otherWords := show "LITERAL_NUMBER" ∈ otherWords by decide
      have hnone : tokenName digits.token = none := tokenName_eq_none hother
      rw [hnone] at h
      cases h.1.1.2
  · rfl

theorem isSchema_part {segments : List Segment} (hvalid : ∀ segment ∈ segments, segment.Valid)
    (previous : Option Token) (token last : Token) :
    isSchema name previous token (period :: last :: tokensOf segments) = false := by
  unfold isSchema
  split
  · next dot table dot' column after heq =>
      by_contra h
      simp only [Bool.not_eq_false, Bool.and_eq_true, beq_iff_eq, bne_iff_ne] at h
      have htokens : tokensOf segments = dot' :: column :: after :=
        (List.cons.inj (List.cons.inj heq).2).2
      obtain ⟨digits, rest, hdigits⟩ := exists_digits hvalid htokens h.1.2
      obtain ⟨rfl, -⟩ := List.cons.inj hdigits
      exact h.2 rfl
  · rfl

/-- The parts of a name say whether it is qualified with the schema. -/
theorem isSchema_qualifier {previous : Option Token} {part table : NamePart}
    {qualifier : List NamePart} {last : Token} {rest : List Token}
    (hprevious : previous.any isPeriod = false)
    (hvalid : (Segment.word (part :: table :: qualifier) last).Valid) :
    isSchema name previous part.token
        (period :: (qualifierTokens (table :: qualifier) ++ last :: rest)) =
      isQualified name (part :: table :: qualifier) := by
  obtain ⟨-, hparts, hcolumn⟩ := hvalid
  have hpart : tokenName part.token = some part.value := hparts part (by simp)
  have htable : tokenName table.token = some table.value := hparts table (by simp)
  have hnext : ∃ column after, qualifierTokens qualifier ++ last :: rest = column :: after ∧
      (column.token != "LITERAL_NUMBER") = true := by
    simp only [bne_iff_ne]
    cases qualifier with
    | nil => exact ⟨last, rest, rfl, (hcolumn (by simp)).ne (by decide)⟩
    | cons column qualifier =>
        have hname := isName_of_tokenName (hparts column (by simp))
        exact ⟨column.token, _, rfl, hname.ne (by decide)⟩
  obtain ⟨column, after, hafter, hnumber⟩ := hnext
  have htokens : qualifierTokens (table :: qualifier) ++ last :: rest =
      table.token :: period :: (qualifierTokens qualifier ++ last :: rest) := rfl
  rw [htokens, hafter]
  simp [isSchema, isQualified, hprevious, hpart, htable, hnumber, isPeriod, period,
    Bool.beq_eq_decide_eq]

theorem withoutSchema_word {previous : Option Token} {qualifier : List NamePart} {last : Token}
    {segments : List Segment} (hprevious : previous.any isPeriod = false)
    (hvalid : ∀ segment ∈ Segment.word qualifier last :: segments, segment.Valid) :
    withoutSchema name previous (qualifierTokens qualifier ++ last :: tokensOf segments) =
      qualifierTokens (dropQualifier name qualifier) ++
        last :: withoutSchema name (some last) (tokensOf segments) := by
  rw [List.forall_mem_cons] at hvalid
  have hkeep : ∀ part qualifier,
      isSchema name previous part (period :: (qualifierTokens qualifier ++
        last :: tokensOf segments)) = false →
      withoutSchema name previous (part :: period :: (qualifierTokens qualifier ++
        last :: tokensOf segments)) = part :: period :: (qualifierTokens qualifier ++
          last :: withoutSchema name (some last) (tokensOf segments)) := by
    intro part qualifier hpart
    rw [withoutSchema_keep hpart,
      withoutSchema_keep (isSchema_of_no_name (tokenName_eq_none (by decide))),
      withoutSchema_parts]
  match qualifier with
  | [] => exact withoutSchema_keep (isSchema_last hvalid.2 previous last)
  | [part] => exact hkeep part.token [] (isSchema_part hvalid.2 previous part.token last)
  | part :: table :: qualifier =>
      have hschema : isSchema name previous part.token (period ::
          (qualifierTokens (table :: qualifier) ++ last :: tokensOf segments)) =
            isQualified name (part :: table :: qualifier) :=
        isSchema_qualifier hprevious hvalid.1
      rw [qualifierTokens_cons, List.cons_append, List.cons_append, dropQualifier]
      split
      · next hname =>
          rw [withoutSchema, hschema, if_pos hname, withoutSchema_parts]
          rfl
      · next hname =>
          apply hkeep part.token (table :: qualifier)
          rw [hschema]
          exact Bool.eq_false_iff.2 hname

theorem withoutSchema_tokensOf {previous : Option Token} {segments : List Segment}
    (hprevious : previous.any isPeriod = false)
    (hvalid : ∀ segment ∈ segments, segment.Valid) :
    withoutSchema name previous (tokensOf segments) =
      tokensOf (segments.map (Segment.map (dropQualifier name))) := by
  induction segments generalizing previous with
  | nil => rfl
  | cons segment segments ih =>
      have hsegment := hvalid segment (List.mem_cons_self ..)
      have hsegments := fun s hs => hvalid s (List.mem_cons_of_mem segment hs)
      rw [List.map_cons, tokensOf_cons, tokensOf_cons]
      cases segment with
      | word qualifier last =>
          have hlast : (some last).any isPeriod = false := by simpa [isPeriod] using hsegment.1
          have hword : withoutSchema name previous
              (qualifierTokens qualifier ++ last :: tokensOf segments) = _ :=
            withoutSchema_word hprevious hvalid
          rw [ih hlast hsegments] at hword
          simpa [Segment.tokens, Segment.map] using hword
      | fraction digits =>
          have hkeep : withoutSchema name previous (period :: digits.token :: tokensOf segments) =
              period :: digits.token :: withoutSchema name (some digits.token)
                (tokensOf segments) := by
            rw [withoutSchema_keep (isSchema_of_no_name (tokenName_eq_none (by decide))),
              withoutSchema_keep isSchema_after_period]
          rw [ih rfl hsegments] at hkeep
          exact hkeep

/-! ## Reading the output -/

theorem keepsLast_dropQualifier (name : Identifier) : KeepsLast (dropQualifier name) where
  last := by
    intro qualifier
    rw [dropQualifier]
    split
    · next hname =>
        obtain ⟨schema, table, others, rfl, -⟩ := isQualified_elim hname
        rw [List.tail_cons, List.getLast?_cons_cons]
    · rfl
  mem := fun _ _ hpart => mem_dropQualifier hpart

theorem bare_dropSchema (name : Identifier) (pieces : List Piece) :
    bare (pieces.map (dropSchema name)) = (bare pieces).map (dropSchema name) := by
  have hsemicolon : (fun piece => !piece.isSemicolon) ∘ dropSchema name =
      fun piece => !piece.isSemicolon := by
    funext piece
    cases piece <;> rfl
  rw [bare, bare, List.filter_map, hsemicolon]

theorem segmentsOf_dropSchema (name : Identifier) (pieces : List Piece) :
    segmentsOf normalizeNfc (pieces.map (dropSchema name)) =
      (segmentsOf normalizeNfc pieces).map (Segment.map (dropQualifier name)) := by
  have hwords : ∀ tokens : List Token, (tokens.map (Segment.word [])).map
      (Segment.map (dropQualifier name)) = tokens.map (Segment.word []) := by
    intro tokens
    rw [List.map_map]
    exact List.map_congr_left fun token _ => rfl
  rw [segmentsOf, segmentsOf, List.map_flatMap, List.flatMap_map]
  apply List.flatMap_congr
  intro piece _
  cases piece with
  | number value exponent =>
      rw [Piece.segments, List.map_append, hwords]
      cases value <;> rfl
  | operator c =>
      have hsame : dropSchema name (.operator c) = .operator c := rfl
      rw [hsame, Piece.segments]
      cases singleOperator c <;> rfl
  | operators c d =>
      have hsame : dropSchema name (.operators c d) = .operators c d := rfl
      rw [hsame, Piece.segments]
      cases multiOperator [c, d] <;> rfl
  | _ => rfl

theorem tokenize_dropSchema {pieces : List Piece} (h : Printed none pieces) :
    tokenize normalizeNfc (textOf (pieces.map (dropSchema name))) =
      (tokenize normalizeNfc (textOf pieces)).map (withoutSchema name none) := by
  have hkeeps := keepsLast_dropQualifier name
  have hvalid : ∀ segment ∈ segmentsOf normalizeNfc (bare pieces), segment.Valid :=
    valid_segmentsOf (printed_bare h)
  obtain ⟨segments, hsegments, htokens, htokens'⟩ :=
    (inStep_nil.foldl_tokensOf hkeeps hvalid).finishTokens hkeeps
  rw [tokenize_textOf (printed_dropSchema h), tokenize_textOf h, bare_dropSchema,
    segmentsOf_dropSchema, htokens, htokens']
  exact congrArg Except.ok (withoutSchema_tokensOf rfl hsegments).symm

/-- The output is the definition without the schemas of the columns, and is read so. -/
structure OnlyDropsSchema (normalizeNfc : Text → Text) (name : Identifier)
    (pieces : List Piece) : Prop where
  text : outputDefinition true (textOf pieces) name = textOf (pieces.map (dropSchema name))
  tokens : tokenize normalizeNfc (outputDefinition true (textOf pieces) name) =
    (tokenize normalizeNfc (textOf pieces)).map (withoutSchema name none)

theorem onlyDropsSchema_iff {pieces : List Piece} (h : Printed none pieces) :
    OnlyDropsSchema normalizeNfc name pieces ↔ Told name false none pieces := by
  rw [← outputDefinition_eq_iff h]
  constructor
  · exact OnlyDropsSchema.text
  · intro htext
    refine ⟨htext, ?_⟩
    rw [htext]
    exact tokenize_dropSchema h

def publicT : Identifier := { schemaName := "PUBLIC".toList, entityName := "T".toList }

/-- Two columns that are qualified with the schema, and a string with the prefix in it. -/
def qualifiedCheck : List Piece := [
  .name [] (.regular "CHECK".toList), .space '\n', .operator '(',
  .name [.regular "PUBLIC".toList, .regular "T".toList] (.regular "A".toList), .space ' ',
  .operator '>', .space ' ',
  .number (.decimal ⟨['1'], by decide, by simp [isDigit]⟩ ⟨['5'], by decide, by simp [isDigit]⟩)
    (some ⟨false, none, ⟨['0'], by decide, by simp [isDigit]⟩⟩),
  .space ' ', .name [] (.regular "AND".toList), .space ' ',
  .name [.delimited "PUBLIC".toList, .regular "T".toList] (.delimited "O.K".toList),
  .operators '<' '>', .literal "PUBLIC.T.".toList, .operator ')', .operator ';']

theorem onlyDropsSchema_qualifiedCheck :
    textOf qualifiedCheck =
        "CHECK\n(PUBLIC.T.A > 1.5e0 AND \"PUBLIC\".T.\"O.K\"<>'PUBLIC.T.');".toList ∧
      outputDefinition true (textOf qualifiedCheck) publicT =
        "CHECK\n(T.A > 1.5e0 AND T.\"O.K\"<>'PUBLIC.T.');".toList ∧
      OnlyDropsSchema id publicT qualifiedCheck := by
  have hprinted : Printed none qualifiedCheck := by decide +kernel
  have htold : Told publicT false none qualifiedCheck := by decide +kernel
  refine ⟨by decide +kernel, by decide +kernel, ?_⟩
  exact (onlyDropsSchema_iff hprinted).2 htold

/-- `"O'X">PUBLIC.T.A` -/
def apostropheCheck : List Piece := [
  .name [] (.delimited "O'X".toList), .operator '>',
  .name [.regular "PUBLIC".toList, .regular "T".toList] (.regular "A".toList)]

/-- The rest of the definition counts as a string, so the column keeps the schema. -/
theorem not_onlyDropsSchema_apostropheCheck :
    ¬∀ (normalizeNfc : Text → Text) (name : Identifier) (pieces : List Piece),
      Printed none pieces →
        tokenize normalizeNfc (outputDefinition true (textOf pieces) name) =
          (tokenize normalizeNfc (textOf pieces)).map (withoutSchema name none) := by
  intro h
  have hprinted : Printed none apostropheCheck := by decide +kernel
  have hkept : outputDefinition true (textOf apostropheCheck) publicT =
      textOf apostropheCheck := by decide +kernel
  have hsame := h id publicT apostropheCheck hprinted
  rw [hkept] at hsame
  have hlength := congrArg (fun tokens => tokens.toOption.map List.length) hsame
  exact absurd hlength (by decide +kernel)

end Vsql.Dump
