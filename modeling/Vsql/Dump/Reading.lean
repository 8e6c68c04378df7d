import Vsql.Dump.NoSchema
import Vsql.Dump.Rewriting

/-!
# Reading a definition

The lexer reads a definition that is printed piece by piece.
-/

namespace Vsql.Dump

open Foundation Lexer Identifier

variable {normalizeNfc : Text → Text}

/-! ## The segments of a definition -/

def numberSegments : ExactNumber → List Segment
  | .integer whole => [.word [] whole.token]
  | .period whole => [.word [] whole.token, .word [] period]
  | .decimal whole others => [.word [] whole.token, .fraction others]
  | .fraction digits => [.fraction digits]

def Piece.segments (normalizeNfc : Text → Text) : Piece → List Segment
  | .literal value => [.word [] (stringToken normalizeNfc value)]
  | .name qualifier last => [.word qualifier last.token]
  | .number value exponent =>
      numberSegments value ++ ((exponent.map Exponent.tokens).getD []).map (Segment.word [])
  | .space _ => []
  | .operator c => ((singleOperator c).map fun op => Segment.word [] ⟨op, .text [c]⟩).toList
  | .operators c d =>
      ((multiOperator [c, d]).map fun op => Segment.word [] ⟨op, .text [c, d]⟩).toList

def segmentsOf (normalizeNfc : Text → Text) (pieces : List Piece) : List Segment :=
  pieces.flatMap (Piece.segments normalizeNfc)

theorem tokensOf_number (value : ExactNumber) (exponent : Option Exponent) :
    tokensOf (Piece.segments normalizeNfc (.number value exponent)) =
      NumericLiteral.tokens ⟨none, value, exponent⟩ := by
  rw [Piece.segments, tokensOf_append, tokensOf_words]
  cases value <;> rfl

theorem isName_token {part : NamePart} (hprinted : part.Printed) (h : part.Unreserved) :
    IsName part.token :=
  isName_of_tokenName (tokenName_token hprinted h)

theorem NamePart.token_ne_period (part : NamePart) : part.token.token ≠ "OPERATOR_PERIOD" := by
  cases part with
  | regular word =>
      rw [NamePart.token, wordToken]
      split
      · next hword =>
          simp only [Bool.and_eq_true, Bool.not_eq_true'] at hword
          intro hperiod
          rw [show (Text.toUpper word).str = "OPERATOR_PERIOD" from hperiod] at hword
          exact absurd hword.2 (by decide)
      · simp
  | delimited value => simp [NamePart.token]

theorem singleOperator_ne_period {c : Char} {op : String} (h : singleOperator c = some op)
    (hc : c ≠ '.') : op ≠ "OPERATOR_PERIOD" := by
  unfold singleOperator at h
  split at h <;>
    first
    | exact absurd rfl hc
    | (cases h; decide)
    | cases h

theorem multiOperator_ne_period {text : Text} {op : String} (h : multiOperator text = some op) :
    op ≠ "OPERATOR_PERIOD" := by
  unfold multiOperator at h
  split at h <;> first | (cases h; decide) | cases h

theorem valid_segments {piece : Piece} {prev next : Option Char} (h : piece.Printed prev next) :
    ∀ segment ∈ piece.segments normalizeNfc, segment.Valid := by
  cases piece with
  | literal value => simpa [Piece.segments] using valid_word (by simp [stringToken])
  | name qualifier last =>
      obtain ⟨-, hparts, hunreserved, -⟩ := h
      intro segment hsegment
      obtain rfl := List.mem_singleton.1 hsegment
      refine ⟨last.token_ne_period, fun part hpart => ?_, fun hne => ?_⟩
      · exact tokenName_token (hparts part (by simp [hpart]))
          (hunreserved (List.ne_nil_of_mem hpart) part (by simp [hpart]))
      · exact .inl (isName_token (hparts last (by simp)) (hunreserved hne last (by simp)))
  | number value exponent =>
      have hdigits : ∀ d : Digits, (Segment.word [] d.token).Valid := fun d =>
        valid_word (by simp [Digits.token])
      refine List.forall_mem_append.2 ⟨?_, ?_⟩
      · cases value with
        | integer whole => simpa [numberSegments] using hdigits whole
        | period whole => cases h.1
        | decimal whole others => simpa [numberSegments, Segment.Valid] using hdigits whole
        | fraction digits => simp [numberSegments, Segment.Valid]
      · intro segment hsegment
        obtain ⟨token, htoken, rfl⟩ := List.mem_map.1 hsegment
        apply valid_word
        cases exponent with
        | none => cases htoken
        | some e =>
            obtain ⟨isUpper, sign, digits⟩ := e
            rcases sign with _ | _ | _ <;>
              simp [Exponent.tokens, signTokens, Sign.token, Digits.token] at htoken <;>
                grind
  | space c => simp [Piece.segments]
  | operator c =>
      intro segment hsegment
      simp only [Piece.segments, Option.mem_toList, Option.map_eq_some_iff] at hsegment
      obtain ⟨op, hop, rfl⟩ := hsegment
      exact valid_word (singleOperator_ne_period hop h.2.1)
  | operators c d =>
      intro segment hsegment
      simp only [Piece.segments, Option.mem_toList, Option.map_eq_some_iff] at hsegment
      obtain ⟨op, hop, rfl⟩ := hsegment
      exact valid_word (multiOperator_ne_period hop)

theorem valid_segmentsOf {pieces : List Piece} {prev : Option Char} (h : Printed prev pieces) :
    ∀ segment ∈ segmentsOf normalizeNfc pieces, segment.Valid := by
  induction pieces generalizing prev with
  | nil => simp [segmentsOf]
  | cons piece pieces ih =>
      exact List.forall_mem_append.2 ⟨valid_segments h.1, ih h.2.2⟩

/-! ## Reading the pieces -/

theorem isComment_of_ne {c : Char} {rest : Text} (hminus : c ≠ '-') (hsolidus : c ≠ '/') :
    isComment (c :: rest) = false := by
  unfold isComment
  split
  · next heq => exact absurd (List.cons.inj heq).1 hminus
  · next heq => exact absurd (List.cons.inj heq).1 hsolidus
  · rfl

/-- A text that a string before it does not go on with. -/
def StandsApart (text : Text) : Prop :=
  ∃ c rest, text = c :: rest ∧ isComment (c :: rest) = false ∧ isWhiteSpace c = false ∧ c ≠ '\''

theorem standsApart_digits (d : Digits) (rest : Text) : StandsApart (d.text ++ rest) := by
  cases htext : d.text with
  | nil => exact absurd htext d.ne
  | cons c digits =>
      have hc : isDigit c = true := d.all c (by simp [htext])
      have hne : ∀ x, isDigit x = false → c ≠ x := by
        rintro x hx rfl
        rw [hc] at hx
        cases hx
      refine ⟨c, digits ++ rest, rfl, isComment_of_ne (hne _ (by decide)) (hne _ (by decide)), ?_,
        hne _ (by decide)⟩
      by_contra hspace
      rw [isDigit_of_isWhiteSpace (Bool.not_eq_false _ ▸ hspace)] at hc
      cases hc

theorem StartsName.standsApart {text : Text} (h : StartsName text.head?) : StandsApart text := by
  have hne : ∀ c, c ≠ '"' → isIdentifierChar c false = false → text.head? ≠ some c :=
    fun c hquote hc => h.ne hquote hc
  obtain ⟨c, hhead, hc⟩ := h
  obtain ⟨rest, rfl⟩ := List.head?_eq_some_iff.1 hhead
  have hchar : ∀ x, x ≠ '"' → isIdentifierChar x false = false → c ≠ x := by
    rintro x hquote hx rfl
    exact hne c hquote hx rfl
  refine ⟨c, rest, rfl, ?_, ?_, hchar _ (by decide) (by decide)⟩
  · exact isComment_of_ne (hchar _ (by decide) (by decide)) (hchar _ (by decide) (by decide))
  · by_contra hspace
    rw [Bool.not_eq_false] at hspace
    obtain rfl | hc := hc
    · exact absurd hspace (by decide)
    · rw [isIdentifierChar_of_isWhiteSpace hspace] at hc
      cases hc

theorem Piece.Printed.standsApart {piece : Piece} {prev : Option Char} {rest : Text}
    (h : piece.Printed prev rest.head?) (hliteral : piece.isLiteral = false)
    (hspace : ∀ c, piece ≠ .space c) : StandsApart (piece.text ++ rest) := by
  cases piece with
  | literal value => cases hliteral
  | name qualifier last => exact (startsName_name h.2.1 rest).standsApart
  | number value exponent =>
      have htext : Piece.text (.number value exponent) =
          value.text ++ (exponent.map Exponent.text).getD [] := rfl
      rw [htext, List.append_assoc]
      cases value with
      | integer whole => exact standsApart_digits whole _
      | period whole =>
          rw [ExactNumber.text, List.append_assoc]
          exact standsApart_digits whole _
      | decimal whole others =>
          rw [ExactNumber.text, List.append_assoc]
          exact standsApart_digits whole _
      | fraction digits => exact ⟨'.', _, rfl, by simp [isComment], by decide, by decide⟩
  | space c => exact absurd rfl (hspace c)
  | operator c =>
      obtain ⟨hop, -, -, hcomment, -⟩ := h
      have hother : isWhiteSpace c = false ∧ c ≠ '\'' := by
        unfold singleOperator at hop
        split at hop <;> first | decide | cases hop
      refine ⟨c, rest, rfl, ?_, hother⟩
      rwa [← isComment_congr (head?_toList rest.head?)]
  | operators c d =>
      have hmem : (c, d) ∈ _ := mem_of_multiOperator h
      have hother : isWhiteSpace c = false ∧ c ≠ '\'' ∧ c ≠ '-' ∧ c ≠ '/' := by
        simp only [List.mem_cons, Prod.mk.injEq, List.not_mem_nil, or_false] at hmem
        obtain ⟨rfl, -⟩ | ⟨rfl, -⟩ | ⟨rfl, -⟩ | ⟨rfl, -⟩ | ⟨rfl, -⟩ := hmem <;> decide
      exact ⟨c, d :: rest, rfl, isComment_of_ne hother.2.2.1 hother.2.2.2, hother.1, hother.2.1⟩

theorem StandsApart.skipSeparatorsFrom {text : Text} (h : StandsApart text) {fuel : Nat}
    (hfuel : text.length ≤ fuel) (hasNewline : Bool) :
    skipSeparatorsFrom fuel hasNewline text = .ok (hasNewline, text) ∧
      text.head? ≠ some '\'' := by
  obtain ⟨c, rest, rfl, hcomment, hspace, hquote⟩ := h
  obtain ⟨fuel, rfl⟩ := Nat.exists_eq_add_of_le' hfuel
  refine ⟨?_, by simpa using hquote⟩
  rw [List.length_cons, ← Nat.add_assoc, Lexer.skipSeparatorsFrom, hcomment,
    if_neg Bool.false_ne_true, hspace, if_neg Bool.false_ne_true]

/-- No string comes after the white space. -/
theorem skipSeparatorsFrom_textOf {pieces : List Piece} {prev : Option Char}
    (h : Printed prev pieces) (hstring : startsString pieces = false) {fuel : Nat}
    (hfuel : (textOf pieces).length ≤ fuel) (hasNewline : Bool) :
    ∃ found next, skipSeparatorsFrom fuel hasNewline (textOf pieces) = .ok (found, next) ∧
      next.head? ≠ some '\'' := by
  induction pieces generalizing prev fuel hasNewline with
  | nil =>
      refine ⟨hasNewline, [], ?_, by simp⟩
      cases fuel <;> rfl
  | cons piece pieces ih =>
      have hapart : StandsApart (textOf (piece :: pieces)) →
          ∃ found next, skipSeparatorsFrom fuel hasNewline (textOf (piece :: pieces)) =
            .ok (found, next) ∧ next.head? ≠ some '\'' :=
        fun hapart => ⟨_, _, hapart.skipSeparatorsFrom hfuel hasNewline⟩
      cases piece with
      | literal value => cases hstring
      | name qualifier last => exact hapart (h.1.standsApart rfl (by simp))
      | number value exponent => exact hapart (h.1.standsApart rfl (by simp))
      | space c =>
          have hc : isWhiteSpace c = true := h.1
          have htext : textOf (.space c :: pieces) = c :: textOf pieces := rfl
          rw [htext] at hfuel ⊢
          cases fuel with
          | zero => cases hfuel
          | succ fuel =>
              rw [skipSeparatorsFrom, isComment_of_isWhiteSpace hc, if_neg Bool.false_ne_true,
                if_pos hc]
              exact ih h.2.2 hstring (Nat.le_of_succ_le_succ hfuel) _
      | operator c => exact hapart (h.1.standsApart rfl (by simp))
      | operators c d => exact hapart (h.1.standsApart rfl (by simp))

theorem endsString_textOf {pieces : List Piece} {prev : Option Char} (h : Printed prev pieces)
    (hstring : startsString pieces = false) (hnext : (textOf pieces).head? ≠ some '\'') :
    EndsString (textOf pieces) := by
  obtain ⟨found, next, hskip, hquote⟩ :=
    skipSeparatorsFrom_textOf h hstring le_rfl false
  exact ⟨hnext, found, next, hskip, by simp [hquote]⟩

theorem EndsWord.breaks {rest : Text} (h : EndsWord rest.head?) : Breaks rest :=
  fun c hc => ⟨(h c hc).1, (h c hc).2.2.2⟩

theorem EndsWord.endsNumber {rest : Text} (h : EndsWord rest.head?) : EndsNumber rest := by
  intro c hc
  obtain ⟨hchar, hperiod, -, -⟩ := h c hc
  have hne : ∀ x, isIdentifierChar x true = true → c ≠ x := by
    rintro x hx rfl
    rw [hchar] at hx
    cases hx
  refine ⟨?_, hperiod, hne _ (by decide), hne _ (by decide)⟩
  simp only [isIdentifierChar, if_true, Bool.or_eq_false_iff] at hchar
  exact hchar.2

theorem NamePart.Printed.reads {part : NamePart} (h : part.Printed) {rest : Text}
    (hrest : Ends rest) (tokens : List Token) :
    Reads normalizeNfc part.text tokens (addToken tokens part.token) rest := by
  match part with
  | .regular [] => exact h.elim
  | .regular (c :: word) => exact Reads.of_pushed (scan_word h.1 h.2 hrest.1)
  | .delimited value => exact Reads.of_pushed (scan_delimited h hrest.2)

theorem reads_name {qualifier : List NamePart} {last : NamePart}
    (h : ∀ part ∈ qualifier ++ [last], part.Printed) {rest : Text} (hrest : Ends rest)
    (tokens : List Token) :
    Reads normalizeNfc (Piece.text (.name qualifier last)) tokens
      ((Segment.word qualifier last.token).tokens.foldl addToken tokens) rest := by
  induction qualifier generalizing tokens with
  | nil => exact (h last (by simp)).reads hrest tokens
  | cons part qualifier ih =>
      have htext : Piece.text (.name (part :: qualifier) last) =
          part.text ++ (['.'] ++ Piece.text (.name qualifier last)) := by
        rw [Piece.text, qualifierText_cons, List.append_assoc]
        rfl
      have hperiod : addToken (addToken tokens part.token) period =
          addToken tokens part.token ++ [period] := substituteTail_eq rfl
      have htokens : (Segment.word (part :: qualifier) last.token).tokens =
          part.token :: period :: (Segment.word qualifier last.token).tokens := rfl
      rw [htext, htokens, List.foldl_cons, List.foldl_cons, hperiod]
      refine ((h part (by simp)).reads ?_ tokens).append (reads_period.append ?_)
      · exact ends_period _
      · exact ih (fun part hpart => h part (List.mem_cons_of_mem _ hpart)) _

theorem endsSubstitution_number (value : ExactNumber) (exponent : Option Exponent) :
    ∀ token ∈ NumericLiteral.tokens ⟨none, value, exponent⟩, endsSubstitution token = false := by
  have hvalue : ∀ token ∈ value.tokens, endsSubstitution token = false := by
    cases value <;> simp [ExactNumber.tokens, Digits.token, periodToken, endsSubstitution]
  have hexponent : ∀ token ∈ (exponent.map Exponent.tokens).getD [],
      endsSubstitution token = false := by
    cases exponent with
    | none => simp
    | some e =>
        obtain ⟨isUpper, sign, digits⟩ := e
        rcases sign with _ | _ | _ <;>
          simp [Exponent.tokens, signTokens, Sign.token, Digits.token, endsSubstitution]
  intro token htoken
  obtain htoken | htoken := List.mem_append.1 (show token ∈ value.tokens ++ _ from htoken)
  · exact hvalue token htoken
  · exact hexponent token htoken

theorem Piece.Printed.reads {piece : Piece} {pieces : List Piece} {prev prev' : Option Char}
    (h : piece.Printed prev (textOf pieces).head?)
    (hstring : piece.isLiteral → startsString pieces = false) (hpieces : Dump.Printed prev' pieces)
    (tokens : List Token) :
    Reads normalizeNfc piece.text tokens
      ((tokensOf (piece.segments normalizeNfc)).foldl addToken tokens) (textOf pieces) := by
  have hpushes : ∀ {text : Text} {others : List Token},
      Pushes normalizeNfc text others (textOf pieces) →
      (∀ token ∈ others, endsSubstitution token = false) →
      Reads normalizeNfc text tokens (others.foldl addToken tokens) (textOf pieces) := by
    intro text others hothers hends
    rw [foldl_addToken hends]
    exact hothers tokens
  cases piece with
  | literal value =>
      have hrest := endsString_textOf hpieces (hstring rfl) h.2
      have hends : ∀ token ∈ [stringToken normalizeNfc value], endsSubstitution token = false := by
        simp [stringToken, endsSubstitution]
      exact hpushes (pushes_string h.1 hrest) hends
  | name qualifier last =>
      obtain ⟨-, hparts, -, hnext⟩ := h
      have hrest : Ends (textOf pieces) :=
        ⟨hnext.breaks, fun hquote => (hnext '"' hquote).2.2.1 rfl⟩
      rw [Piece.segments, tokensOf_cons]
      simpa [tokensOf] using reads_name hparts hrest tokens
  | number value exponent =>
      rw [tokensOf_number]
      refine hpushes (pushes_number ⟨none, value, exponent⟩ h.2.endsNumber) ?_
      exact endsSubstitution_number value exponent
  | space c =>
      have hspace : Pushes normalizeNfc [c] [] (textOf pieces) := pushes_whiteSpace h
      exact hpushes hspace (List.forall_mem_nil _)
  | operator c =>
      obtain ⟨hop, -, -, hcomment, hmulti⟩ := h
      obtain ⟨op, hop⟩ := Option.isSome_iff_exists.1 hop
      rw [isComment_congr (head?_toList _)] at hcomment
      rw [multiOperator_congr (head?_toList _)] at hmulti
      rw [Piece.segments, hop]
      exact Reads.of_pushed (scan_operator hop hcomment hmulti)
  | operators c d =>
      obtain ⟨op, hop⟩ := Option.isSome_iff_exists.1 h
      have hscan : multiOperator (c :: d :: textOf pieces) = some op :=
        (@multiOperator_congr c (d :: textOf pieces) [d] rfl).trans hop
      rw [Piece.segments, hop]
      exact Reads.of_pushed (scan_multiOperator hscan)

theorem read_textOf {pieces : List Piece} {prev : Option Char} (h : Printed prev pieces)
    (tokens : List Token) (parameters : Nat) :
    read normalizeNfc tokens parameters (textOf pieces) =
      .ok ((tokensOf (segmentsOf normalizeNfc pieces)).foldl addToken tokens) := by
  induction pieces generalizing prev tokens with
  | nil => exact read_nil tokens parameters
  | cons piece pieces ih =>
      obtain ⟨hpiece, hstring, hpieces⟩ := h
      have hsegments : segmentsOf normalizeNfc (piece :: pieces) =
          piece.segments normalizeNfc ++ segmentsOf normalizeNfc pieces := rfl
      rw [textOf_cons, hpiece.reads hstring hpieces tokens parameters, ih hpieces, hsegments,
        tokensOf_append, List.foldl_append]

theorem tokenize_textOf {pieces : List Piece} {prev : Option Char} (h : Printed prev pieces) :
    tokenize normalizeNfc (textOf pieces) = .ok (finishTokens
      ((tokensOf (segmentsOf normalizeNfc (bare pieces))).foldl addToken [])) := by
  have hread : read normalizeNfc [] 0 (textOf (bare pieces)) = _ :=
    read_textOf (printed_bare h) [] 0
  rw [tokenize, trimSemicolons_textOf h]
  change (read normalizeNfc [] 0 (textOf (bare pieces)) >>= fun tokens =>
    pure (finishTokens tokens)) = _
  rw [hread]
  rfl

end Vsql.Dump
