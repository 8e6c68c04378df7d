import Vsql.Dump.Definition
import Vsql.Lexer.PrintedNames

/-!
# The tokens of a definition

The tokens come in segments, each of which ends with a word.  Before the word are the other parts
of a name, with their periods.  What the lexer makes of the words does not depend on how many
parts there are.
-/

namespace Vsql.Dump

open Foundation Lexer Identifier

/-! ## Names -/

/-- The name that a token is. -/
def tokenName (token : Token) : Option Text :=
  (identifierText token).bind fun text =>
    match text with
    | '"' :: rest => (quoted '"' rest).map (·.1)
    | word => some (Text.toUpper word)

def NamePart.token : NamePart → Token
  | .regular word => wordToken word
  | .delimited value => ⟨"LITERAL_IDENTIFIER", .chain (delimitIdentifier value)⟩

theorem tokenName_token {part : NamePart} (hprinted : part.Printed) (h : part.Unreserved) :
    tokenName part.token = some part.value := by
  match part with
  | .regular [] => exact hprinted.elim
  | .regular (c :: rest) =>
      have hplain : Plain (c :: rest) := h
      have hdollar : (c :: rest).head? ≠ some '$' := by
        rintro ⟨⟩
        exact absurd hprinted.1 (by decide)
      have hquote : c ≠ '"' := ne_of_isIdentifierChar hprinted.1 (by decide)
      have htext := identifierText_partToken (c :: rest) hdollar
      rw [partToken, if_pos hplain, requoteIdentifier_of_plain hplain] at htext
      rw [NamePart.token, tokenName, htext, Option.bind_some]
      split
      · next heq => exact absurd (List.cons.inj heq).1 hquote
      · exact congrArg some hplain.1
  | .delimited value =>
      have hquoted : quoted '"' (doubled '"' value ++ ['"']) = some (value, []) :=
        quoted_doubled (by simp) value
      change (quoted '"' (doubled '"' value ++ ['"'])).map (·.1) = some value
      rw [hquoted]
      rfl

/-- The token can be a part of a name. -/
def IsName (token : Token) : Prop := (identifierText token).isSome

theorem isName_of_tokenName {token : Token} {value : Text} (h : tokenName token = some value) :
    IsName token := by
  unfold tokenName at h
  unfold IsName
  cases htext : identifierText token with
  | none =>
      rw [htext] at h
      cases h
  | some text => rfl

/-- The words that are no names. -/
def otherWords : List String := [
  "OPERATOR_PERIOD", "OPERATOR_LEFT_PAREN", "OPERATOR_RIGHT_PAREN", "OPERATOR_ASTERISK",
  "OPERATOR_PLUS", "OPERATOR_MINUS", "LITERAL_NUMBER", "LITERAL_STRING", "IS", "NOT", "TRUE",
  "FALSE", "UNKNOWN", "DATE", "TIME", "TIMESTAMP"]

theorem otherWords_reserved (word : String) (h : word ∈ otherWords) :
    ((tokenNumber word).map isNonReserved).getD false = false ∧ word ≠ "LITERAL_IDENTIFIER" := by
  revert word
  decide +kernel

theorem IsName.ne {token : Token} (h : IsName token) {word : String} (hword : word ∈ otherWords) :
    token.token ≠ word := by
  obtain ⟨text, htext⟩ := Option.isSome_iff_exists.1 h
  obtain ⟨hreserved, hliteral⟩ := otherWords_reserved word hword
  exact ne_of_identifierText htext hreserved hliteral

theorem isNonReserved_le {tokNumber : Nat} (h : isNonReserved tokNumber) : tokNumber ≤ 286 := by
  have hfirst : tokenNumber "A" = some 3 := by decide +kernel
  have hlast : tokenNumber "ZONE" = some 286 := by decide +kernel
  unfold isNonReserved at h
  rw [hfirst, hlast] at h
  dsimp only at h
  rw [Bool.and_eq_true] at h
  exact of_decide_eq_true h.2

theorem mem_take_of_idxOf? {words : List String} {word : String} {i n : Nat}
    (h : words.idxOf? word = some i) (hi : i ≤ n) : word ∈ words.take (n + 1) := by
  obtain ⟨hlength, hword, -⟩ := List.idxOf?_eq_some_iff.1 h
  exact List.mem_take_iff_getElem.2 ⟨i, lt_min (Nat.lt_succ_of_le hi) hlength, hword⟩

theorem words_no_operator : (yyToknames.take (286 + 1)).all
    (fun word => !"OPERATOR_".toList.isPrefixOf word.toList) = true := by
  decide +kernel

/-- No word that is not reserved is the name of an operator. -/
theorem nonReserved_no_operator {word : String} {tokNumber : Nat}
    (hnumber : tokenNumber word = some tokNumber) (h : isNonReserved tokNumber) :
    "OPERATOR_".toList.isPrefixOf word.toList = false := by
  have hmem := mem_take_of_idxOf? hnumber (isNonReserved_le h)
  have hword := List.all_eq_true.1 words_no_operator word hmem
  rwa [Bool.not_eq_true'] at hword

theorem IsName.startsValue {token : Token} (h : IsName token) : startsValue token = true := by
  have hvalue : ∀ {word : String}, "OPERATOR_".toList.isPrefixOf word.toList = false →
      isReserved word = false → ∀ v, Lexer.startsValue ⟨word, v⟩ = true := by
    intro word hoperator hreserved v
    simp only [Lexer.startsValue, hoperator, hreserved]
    rfl
  obtain ⟨word, v⟩ := token
  unfold IsName identifierText at h
  split at h
  · split at h
    · next hliteral =>
        obtain rfl : word = "LITERAL_IDENTIFIER" := hliteral
        exact hvalue (by decide) (by decide +kernel) v
    · cases h
  · split at h
    · next tokNumber hnumber =>
        split at h
        · next hnonReserved =>
            have hreserved : isReserved word = false := by
              simp only [isReserved, hnumber, hnonReserved, Bool.not_true, Bool.and_false]
            exact hvalue (nonReserved_no_operator hnumber hnonReserved) hreserved v
        · cases h
    · cases h
  · cases h

/-! ## Tokens that are alike -/

/-- The same token, or two parts of names. -/
def Alike (token token' : Token) : Prop := token = token' ∨ IsName token ∧ IsName token'

theorem Alike.token_eq {token token' : Token} (h : Alike token token') {word : String}
    (hword : word ∈ otherWords) : token.token = word ↔ token'.token = word := by
  obtain rfl | ⟨hname, hname'⟩ := h
  · exact Iff.rfl
  · exact iff_of_false (hname.ne hword) (hname'.ne hword)

theorem Alike.startsValue_eq {token token' : Token} (h : Alike token token') :
    startsValue token = startsValue token' := by
  obtain rfl | ⟨hname, hname'⟩ := h
  · rfl
  · rw [hname.startsValue, hname'.startsValue]

/-- The next two tokens are alike. -/
def AlikeNext (after after' : List Token) : Prop :=
  List.Forall₂ Alike (after.take 2) (after'.take 2)

theorem AlikeNext.cases {after after' : List Token} (h : AlikeNext after after') :
    (after = [] ∧ after' = []) ∨
      ∃ next next' rest rest', after = next :: rest ∧ after' = next' :: rest' ∧
        Alike next next' ∧ List.Forall₂ Alike (rest.take 1) (rest'.take 1) := by
  unfold AlikeNext at h
  rcases after with _ | ⟨next, rest⟩ <;> rcases after' with _ | ⟨next', rest'⟩
  · exact .inl ⟨rfl, rfl⟩
  · cases h
  · cases h
  · rw [List.take_succ_cons, List.take_succ_cons, List.forall₂_cons] at h
    exact .inr ⟨next, next', rest, rest', rfl, rfl, h⟩

theorem AlikeNext.second {rest rest' : List Token}
    (h : List.Forall₂ Alike (rest.take 1) (rest'.take 1)) :
    (rest = [] ∧ rest' = []) ∨
      ∃ next next' more more', rest = next :: more ∧ rest' = next' :: more' ∧
        Alike next next' := by
  rcases rest with _ | ⟨next, more⟩ <;> rcases rest' with _ | ⟨next', more'⟩
  · exact .inl ⟨rfl, rfl⟩
  · cases h
  · cases h
  · rw [List.take_succ_cons, List.take_succ_cons, List.forall₂_cons] at h
    exact .inr ⟨next, next', more, more', rfl, rfl, h.1⟩

theorem startsCall_congr {after after' : List Token} (h : AlikeNext after after') :
    startsCall after = startsCall after' := by
  obtain ⟨rfl, rfl⟩ | ⟨next, next', rest, rest', rfl, rfl, hnext, hrest⟩ := h.cases
  · rfl
  · obtain ⟨rfl, rfl⟩ | ⟨second, second', more, more', rfl, rfl, hsecond⟩ :=
      AlikeNext.second hrest
    · rfl
    · have hleft : next.token = "OPERATOR_LEFT_PAREN" ↔ _ := hnext.token_eq (by decide)
      have hright : second.token = "OPERATOR_RIGHT_PAREN" ↔ _ := hsecond.token_eq (by decide)
      rw [Bool.eq_iff_iff]
      simp only [startsCall, Bool.and_eq_true, beq_iff_eq, hleft, hright]

theorem isIlikeOperator_congr {before before' after after' : List Token}
    (hbefore : before.take 2 = before'.take 2) (hafter : AlikeNext after after') :
    isIlikeOperator before after = isIlikeOperator before' after' := by
  rcases before with _ | ⟨last, others⟩ <;> rcases before' with _ | ⟨last', others'⟩
  · rfl
  · cases hbefore
  · cases hbefore
  · rw [List.take_succ_cons, List.take_succ_cons] at hbefore
    obtain ⟨rfl, hothers⟩ := List.cons.inj hbefore
    have hhead : others.headD last = others'.headD last := by
      rcases others with _ | ⟨a, others⟩ <;> rcases others' with _ | ⟨a', others'⟩ <;>
        first | rfl | (cases hothers; rfl) | cases hothers
    obtain ⟨rfl, rfl⟩ | ⟨next, next', rest, rest', rfl, rfl, hnext, -⟩ := hafter.cases
    · rfl
    · simp only [isIlikeOperator, hhead, hnext.startsValue_eq]

theorem isLimitClause_congr {before before' after after' : List Token} {token : Token}
    (hbefore : before.take 2 = before'.take 2) (hafter : AlikeNext after after') :
    isLimitClause before token after = isLimitClause before' token after' := by
  obtain ⟨rfl, rfl⟩ | ⟨next, next', rest, rest', rfl, rfl, hnext, hrest⟩ := hafter.cases
  · rfl
  · have hsecond : ∀ word ∈ otherWords, (rest.head?.map (·.token)).getD "$end" = word ↔
        (rest'.head?.map (·.token)).getD "$end" = word := by
      intro word hword
      obtain ⟨rfl, rfl⟩ | ⟨second, second', more, more', rfl, rfl, h⟩ := AlikeNext.second hrest
      · exact Iff.rfl
      · exact h.token_eq hword
    have hnextWord : ∀ word ∈ otherWords, next.token = word ↔ next'.token = word :=
      fun word hword => hnext.token_eq hword
    have hlast : before.head? = before'.head? := by
      have hhead := congrArg List.head? hbefore
      rwa [List.head?_take, List.head?_take] at hhead
    have hbeq : ∀ {a b : String}, (∀ word ∈ otherWords, a = word ↔ b = word) →
        ∀ word ∈ otherWords, (a == word) = (b == word) := by
      intro a b h word hword
      rw [Bool.eq_iff_iff, beq_iff_eq, beq_iff_eq]
      exact h word hword
    have hnextBeq := hbeq hnextWord
    have hsecondBeq := hbeq hsecond
    simp only [otherWords, List.forall_mem_cons] at hnextWord hnextBeq hsecondBeq
    rcases before with _ | ⟨last, others⟩ <;> rcases before' with _ | ⟨last', others'⟩
    · simp only [isLimitClause, hnextWord, List.contains_cons, List.contains_nil, hnextBeq,
        hsecondBeq]
    · cases hlast
    · cases hlast
    · obtain rfl : last = last' := Option.some.inj hlast
      simp only [isLimitClause, hnextWord, List.contains_cons, List.contains_nil, hnextBeq,
        hsecondBeq]

/-! ## Segments -/

inductive Segment where
  | word (qualifier : List NamePart) (last : Token)
  | fraction (digits : Digits)

def qualifierTokens (qualifier : List NamePart) : List Token :=
  qualifier.flatMap fun part => [part.token, period]

theorem qualifierTokens_cons (part : NamePart) (qualifier : List NamePart) :
    qualifierTokens (part :: qualifier) = part.token :: period :: qualifierTokens qualifier := rfl

theorem qualifierTokens_concat (qualifier : List NamePart) (part : NamePart) :
    qualifierTokens (qualifier ++ [part]) = qualifierTokens qualifier ++ [part.token, period] := by
  simp [qualifierTokens]

namespace Segment

def tokens : Segment → List Token
  | .word qualifier last => qualifierTokens qualifier ++ [last]
  | .fraction digits => [period, digits.token]

/-- A segment with other parts before its word. -/
def map (f : List NamePart → List NamePart) : Segment → Segment
  | .word qualifier last => .word (f qualifier) last
  | .fraction digits => .fraction digits

end Segment

def tokensOf (segments : List Segment) : List Token := segments.flatMap Segment.tokens

theorem tokensOf_cons (segment : Segment) (segments : List Segment) :
    tokensOf (segment :: segments) = segment.tokens ++ tokensOf segments := List.flatMap_cons

theorem tokensOf_append (segments others : List Segment) :
    tokensOf (segments ++ others) = tokensOf segments ++ tokensOf others := List.flatMap_append

theorem tokensOf_words (tokens : List Token) :
    tokensOf (tokens.map (Segment.word [])) = tokens := by
  induction tokens with
  | nil => rfl
  | cons token tokens ih => exact congrArg (token :: ·) ih

/-- The last part of a name, which becomes a key word when a row count comes after it. -/
def IsColumn (token : Token) : Prop := IsName token ∨ token.token = "LIMIT"

theorem IsColumn.ne {token : Token} (h : IsColumn token) {word : String}
    (hword : word ∈ otherWords) : token.token ≠ word := by
  obtain hname | hlimit := h
  · exact hname.ne hword
  · rw [hlimit]
    rintro rfl
    exact absurd hword (by decide)

/-- The periods are those of names and of numbers. -/
def Segment.Valid : Segment → Prop
  | .word qualifier last => last.token ≠ "OPERATOR_PERIOD" ∧
      (∀ part ∈ qualifier, tokenName part.token = some part.value) ∧
      (qualifier ≠ [] → IsColumn last)
  | .fraction _ => True

theorem valid_word {token : Token} (h : token.token ≠ "OPERATOR_PERIOD") :
    (Segment.word [] token).Valid :=
  ⟨h, by simp, fun hne => absurd rfl hne⟩

/-- The last part stays, and no other parts come in. -/
structure KeepsLast (f : List NamePart → List NamePart) : Prop where
  last : ∀ qualifier, (f qualifier).getLast? = qualifier.getLast?
  mem : ∀ qualifier, ∀ part ∈ f qualifier, part ∈ qualifier

section

variable {f : List NamePart → List NamePart} (hf : KeepsLast f)

include hf

theorem KeepsLast.nil : f [] = [] := by
  rw [← List.getLast?_eq_none_iff, hf.last]
  rfl

theorem KeepsLast.ne_nil {qualifier : List NamePart} (h : qualifier ≠ []) : f qualifier ≠ [] := by
  rw [Ne, ← List.getLast?_eq_none_iff, hf.last, List.getLast?_eq_none_iff]
  exact h

theorem Segment.Valid.map {segment : Segment} (h : segment.Valid) : (segment.map f).Valid := by
  cases segment with
  | word qualifier last =>
      obtain ⟨hperiod, hparts, hcolumn⟩ := h
      refine ⟨hperiod, fun part hpart => hparts part (hf.mem _ part hpart), ?_⟩
      intro hne
      apply hcolumn
      rintro rfl
      exact hne hf.nil
  | fraction digits => trivial

/-! ## The tokens around a word -/

/-- The last two tokens stay the same. -/
theorem take_reverse_qualifier (qualifier : List NamePart) {before before' : List Token}
    (h : before.take 2 = before'.take 2) :
    ((qualifierTokens (f qualifier)).reverse ++ before').take 2 =
      ((qualifierTokens qualifier).reverse ++ before).take 2 := by
  obtain rfl | ⟨front, part, rfl⟩ := List.eq_nil_or_concat' qualifier
  · rw [hf.nil]
    exact h.symm
  · have hlast := hf.last (front ++ [part])
    rw [List.getLast?_concat, List.getLast?_eq_some_iff] at hlast
    obtain ⟨front', hfront'⟩ := hlast
    rw [hfront', qualifierTokens_concat, qualifierTokens_concat]
    simp

theorem take_reverse_segment (segment : Segment) {before before' : List Token}
    (h : before.take 2 = before'.take 2) :
    ((segment.map f).tokens.reverse ++ before').take 2 =
      (segment.tokens.reverse ++ before).take 2 := by
  cases segment with
  | word qualifier last =>
      have hqualifier := take_reverse_qualifier hf qualifier h
      have hone := congrArg (List.take 1) hqualifier
      rw [List.take_take, List.take_take] at hone
      simpa [Segment.tokens, Segment.map] using hone
  | fraction digits => rfl

theorem take_reverse_tokensOf (segments : List Segment) {before before' : List Token}
    (h : before.take 2 = before'.take 2) :
    ((tokensOf (segments.map (Segment.map f))).reverse ++ before').take 2 =
      ((tokensOf segments).reverse ++ before).take 2 := by
  induction segments generalizing before before' with
  | nil => exact h.symm
  | cons segment segments ih =>
      rw [List.map_cons, tokensOf_cons, tokensOf_cons, List.reverse_append, List.reverse_append,
        List.append_assoc, List.append_assoc]
      exact ih (take_reverse_segment hf segment h).symm

theorem alikeNext_tokensOf {segments : List Segment} (h : ∀ segment ∈ segments, segment.Valid) :
    AlikeNext (tokensOf segments) (tokensOf (segments.map (Segment.map f))) := by
  induction segments with
  | nil => exact .nil
  | cons segment segments ih =>
      rw [List.forall_mem_cons] at h
      have hrest := ih h.2
      unfold AlikeNext at hrest ⊢
      rw [List.map_cons, tokensOf_cons, tokensOf_cons]
      have hone := List.forall₂_take 1 hrest
      rw [List.take_take, List.take_take] at hone
      cases segment with
      | word qualifier last =>
          cases qualifier with
          | nil =>
              rw [Segment.map, hf.nil]
              exact .cons (.inl rfl) hone
          | cons part qualifier =>
              have hparts := h.1.2.1
              rw [Segment.map]
              obtain ⟨part', qualifier', heq⟩ :=
                List.exists_cons_of_ne_nil (hf.ne_nil (List.cons_ne_nil part qualifier))
              have hmem : part' ∈ part :: qualifier :=
                hf.mem _ part' (by rw [heq]; exact List.mem_cons_self ..)
              rw [heq]
              have hname := isName_of_tokenName (hparts part (List.mem_cons_self ..))
              have hname' := isName_of_tokenName (hparts part' hmem)
              exact .cons (.inr ⟨hname, hname'⟩) (.cons (.inl rfl) .nil)
      | fraction digits => exact .cons (.inl rfl) (.cons (.inl rfl) .nil)

theorem min_length_tokensOf (segments : List Segment) :
    min (tokensOf (segments.map (Segment.map f))).length 3 =
      min (tokensOf segments).length 3 := by
  induction segments with
  | nil => rfl
  | cons segment segments ih =>
      have hsegment : min (segment.map f).tokens.length 3 = min segment.tokens.length 3 := by
        cases segment with
        | word qualifier last =>
            have hlength : ∀ qualifier, (qualifierTokens qualifier).length = 2 * qualifier.length :=
              fun qualifier => by simp [qualifierTokens, Nat.mul_comm]
            cases qualifier with
            | nil => rw [Segment.map, hf.nil]
            | cons part qualifier =>
                have hpos := List.length_pos_of_ne_nil
                  (hf.ne_nil (List.cons_ne_nil part qualifier))
                simp only [Segment.map, Segment.tokens, List.length_append, hlength,
                  List.length_cons, List.length_nil]
                omega
        | fraction digits => rfl
      rw [List.map_cons, tokensOf_cons, tokensOf_cons, List.length_append, List.length_append]
      omega

end

end Vsql.Dump
