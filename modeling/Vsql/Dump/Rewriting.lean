import Mathlib.Data.List.Induction
import Vsql.Dump.Segments

/-!
# What becomes of the words

Words are joined with the tokens before them, and some of them become others in some places.  It
is the same with other parts of the names around them.
-/

namespace Vsql.Dump

open Foundation Lexer Identifier

variable {f : List NamePart → List NamePart}

/-! ## Words that are one token together -/

/-- The tokens before the last one that are joined with it. -/
theorem tailSubstitution_cases (tokens : List Token) (token : Token) :
    (tailSubstitution (tokens ++ [token])).1 = 0 ∨
      ∃ front joined new, tokens = front ++ joined ∧
        (∀ t ∈ joined, startsSubstitution t) ∧
        tailSubstitution (tokens ++ [token]) = (joined.length + 1, new) ∧
        new ≠ "OPERATOR_PERIOD" := by
  have hreverse : (tokens ++ [token]).reverse = token :: tokens.reverse := by simp
  unfold tailSubstitution
  rw [hreverse]
  generalize hback : tokens.reverse = back
  obtain rfl : tokens = back.reverse := by rw [← hback, List.reverse_reverse]
  rcases back with _ | ⟨a, _ | ⟨b, rest⟩⟩
  · simp only [List.map_cons, List.map_nil]
    split <;> simp_all
  · simp only [List.map_cons, List.map_nil]
    split <;> simp_all
  · have hone : ∀ new, new ≠ "OPERATOR_PERIOD" → startsSubstitution a →
        ∃ front joined new', (a :: b :: rest).reverse = front ++ joined ∧
          (∀ t ∈ joined, startsSubstitution t) ∧ (2, new) = (joined.length + 1, new') ∧
          new' ≠ "OPERATOR_PERIOD" :=
      fun new hnew ha => ⟨(b :: rest).reverse, [a], new, by simp, by simpa using ha, rfl, hnew⟩
    have htwo : ∀ new, new ≠ "OPERATOR_PERIOD" → startsSubstitution a → startsSubstitution b →
        ∃ front joined new', (a :: b :: rest).reverse = front ++ joined ∧
          (∀ t ∈ joined, startsSubstitution t) ∧ (3, new) = (joined.length + 1, new') ∧
          new' ≠ "OPERATOR_PERIOD" :=
      fun new hnew ha hb => ⟨rest.reverse, [b, a], new, by simp, by simpa using ⟨hb, ha⟩, rfl, hnew⟩
    simp only [List.map_cons]
    split <;>
      first
      | exact .inl rfl
      | next heq =>
          simp only [List.cons.injEq] at heq
          first
          | exact .inr (hone _ (by decide) (by simp [startsSubstitution, heq]))
          | exact .inr (htwo _ (by decide) (by simp [startsSubstitution, heq])
              (by simp [startsSubstitution, heq]))

/-- The token before the last three only has to be there. -/
theorem tailSubstitution_eq_of_ne {tokens tokens' : List Token} (token : Token)
    (hlast : tokens.reverse.take 2 = tokens'.reverse.take 2)
    (hlength : min tokens.length 3 = min tokens'.length 3)
    (hne : (tailSubstitution (tokens ++ [token])).1 ≠ 0) :
    tailSubstitution (tokens' ++ [token]) = tailSubstitution (tokens ++ [token]) := by
  have hreverse : ∀ tokens : List Token, (tokens ++ [token]).reverse = token :: tokens.reverse :=
    fun tokens => by simp
  unfold tailSubstitution at hne ⊢
  rw [hreverse] at hne ⊢
  rw [hreverse]
  rw [← List.length_reverse, ← @List.length_reverse _ tokens'] at hlength
  generalize tokens.reverse = back at hlast hlength hne ⊢
  generalize tokens'.reverse = back' at hlast hlength hne ⊢
  rcases back with _ | ⟨a, _ | ⟨b, _ | ⟨c, rest⟩⟩⟩ <;>
    rcases back' with _ | ⟨a', _ | ⟨b', _ | ⟨c', rest'⟩⟩⟩ <;>
      simp only [List.take_nil, List.take_succ_cons, List.take_zero, List.length_cons,
        List.length_nil, List.cons.injEq, reduceCtorEq, and_true, and_false] at hlast hlength
  · rfl
  · rw [hlast]
  · rw [hlast.1, hlast.2]
  · omega
  · omega
  · obtain ⟨rfl, rfl⟩ := hlast
    simp only [List.map_cons] at hne ⊢
    split at hne <;>
      first
      | exact absurd rfl hne
      | next heq =>
          simp only [List.cons.injEq] at heq
          simp only [heq]

theorem tailSubstitution_congr {tokens tokens' : List Token} (token : Token)
    (hlast : tokens.reverse.take 2 = tokens'.reverse.take 2)
    (hlength : min tokens.length 3 = min tokens'.length 3) :
    tailSubstitution (tokens ++ [token]) = tailSubstitution (tokens' ++ [token]) ∨
      (tailSubstitution (tokens ++ [token])).1 = 0 ∧
        (tailSubstitution (tokens' ++ [token])).1 = 0 := by
  by_cases hzero : (tailSubstitution (tokens ++ [token])).1 = 0
  · by_cases hzero' : (tailSubstitution (tokens' ++ [token])).1 = 0
    · exact .inr ⟨hzero, hzero'⟩
    · exact .inl (tailSubstitution_eq_of_ne token hlast.symm hlength.symm hzero')
  · exact .inl (tailSubstitution_eq_of_ne token hlast hlength hzero).symm

/-- A token is read after others. -/
def addToken (tokens : List Token) (token : Token) : List Token :=
  substituteTail (tokens ++ [token])

theorem addToken_of_joined {front joined : List Token} {token : Token} {new : String}
    (h : tailSubstitution (front ++ joined ++ [token]) = (joined.length + 1, new)) :
    addToken (front ++ joined) token = front ++ [⟨new, .none⟩] := by
  have hlength : (front ++ joined ++ [token]).length - (joined.length + 1) = front.length := by
    simp only [List.length_append, List.length_singleton]
    omega
  rw [addToken, substituteTail, h]
  dsimp only
  rw [if_pos (Nat.succ_pos _), hlength, List.append_assoc, List.take_left]

theorem addToken_of_apart {tokens : List Token} {token : Token}
    (h : (tailSubstitution (tokens ++ [token])).1 = 0) :
    addToken tokens token = tokens ++ [token] := by
  rw [addToken, substituteTail]
  dsimp only
  rw [h, if_neg (Nat.lt_irrefl 0)]

theorem mem_otherWords {token : Token} (h : startsSubstitution token) :
    token.token ∈ otherWords := by
  simp only [startsSubstitution, List.contains_cons, List.contains_nil, Bool.or_false,
    Bool.or_eq_true, beq_iff_eq] at h
  obtain h | h | h | h := h <;>
    · rw [h]
      decide

/-- The tokens that are joined are words by themselves. -/
theorem exists_words {segments : List Segment} (hvalid : ∀ segment ∈ segments, segment.Valid)
    {front joined : List Token} (h : tokensOf segments = front ++ joined)
    (hjoined : ∀ token ∈ joined, startsSubstitution token) :
    ∃ others, segments = others ++ joined.map (Segment.word []) ∧ tokensOf others = front := by
  induction joined using List.reverseRecOn generalizing segments with
  | nil => exact ⟨segments, by simp, by simpa using h⟩
  | append_singleton joined token ih =>
      obtain rfl | ⟨others, segment, rfl⟩ := List.eq_nil_or_concat' segments
      · have hlength := congrArg List.length h
        simp [tokensOf] at hlength
      · have hother := mem_otherWords (hjoined token (by simp))
        have hsegment := hvalid segment (by simp)
        rw [tokensOf_append, ← List.append_assoc] at h
        cases segment with
        | word qualifier last =>
            have htokens : tokensOf others ++ qualifierTokens qualifier ++ [last] =
                front ++ joined ++ [token] := by
              simpa [tokensOf, Segment.tokens] using h
            obtain ⟨hfront, hlast⟩ := List.append_inj' htokens rfl
            obtain rfl : last = token := by simpa using hlast
            obtain rfl : qualifier = [] := by
              by_contra hne
              exact (hsegment.2.2 hne).ne hother rfl
            have hothers : tokensOf others = front ++ joined := by
              simpa [qualifierTokens] using hfront
            obtain ⟨others', rfl, hfront'⟩ := ih (fun s hs => hvalid s (by simp [hs])) hothers
              fun t ht => hjoined t (by simp [ht])
            exact ⟨others', by simp, hfront'⟩
        | fraction digits =>
            have htokens : tokensOf others ++ [period] ++ [digits.token] =
                front ++ joined ++ [token] := by
              simpa [tokensOf, Segment.tokens] using h
            obtain ⟨-, hlast⟩ := List.append_inj' htokens rfl
            obtain rfl : digits.token = token := by simpa using hlast
            have hstarts := hjoined digits.token (by simp)
            cases hstarts

/-- The tokens of segments, and the ones with other parts of the names before each word. -/
def InStep (f : List NamePart → List NamePart) (tokens tokens' : List Token) : Prop :=
  ∃ segments, (∀ segment ∈ segments, segment.Valid) ∧ tokens = tokensOf segments ∧
    tokens' = tokensOf (segments.map (Segment.map f))

theorem inStep_tokensOf {segments : List Segment} (h : ∀ segment ∈ segments, segment.Valid) :
    InStep f (tokensOf segments) (tokensOf (segments.map (Segment.map f))) :=
  ⟨segments, h, rfl, rfl⟩

theorem inStep_nil : InStep f [] [] := inStep_tokensOf (List.forall_mem_nil _)

theorem InStep.append {a a' b b' : List Token} (ha : InStep f a a') (hb : InStep f b b') :
    InStep f (a ++ b) (a' ++ b') := by
  obtain ⟨segments, hvalid, rfl, rfl⟩ := ha
  obtain ⟨others, hothers, rfl, rfl⟩ := hb
  refine ⟨segments ++ others, List.forall_mem_append.2 ⟨hvalid, hothers⟩, ?_, ?_⟩
  · rw [tokensOf_append]
  · rw [List.map_append, tokensOf_append]

theorem inStep_segment {segment : Segment} (h : segment.Valid) :
    InStep f segment.tokens (segment.map f).tokens :=
  ⟨[segment], by simpa using h, by simp [tokensOf], by simp [tokensOf]⟩

theorem inStep_word (hf : KeepsLast f) {token : Token} (h : token.token ≠ "OPERATOR_PERIOD") :
    InStep f [token] [token] := by
  have hword := inStep_segment (f := f) (valid_word h)
  rwa [Segment.map, hf.nil] at hword

/-- What becomes of a word does not depend on the other parts of the names before it. -/
theorem InStep.addToken (hf : KeepsLast f) {tokens tokens' : List Token}
    (h : InStep f tokens tokens') {token : Token} (htoken : token.token ≠ "OPERATOR_PERIOD") :
    InStep f (addToken tokens token) (addToken tokens' token) := by
  have hkept := h.append (inStep_word hf htoken)
  obtain ⟨segments, hvalid, rfl, rfl⟩ := h
  have hlast : (tokensOf segments).reverse.take 2 =
      (tokensOf (segments.map (Segment.map f))).reverse.take 2 := by
    have htake := take_reverse_tokensOf hf segments
      (show ([] : List Token).take 2 = ([] : List Token).take 2 from rfl)
    simpa using htake.symm
  have hsame := tailSubstitution_congr token hlast (min_length_tokensOf hf segments).symm
  obtain hzero | ⟨front, joined, new, htokens, hjoined, hnew, hperiod⟩ :=
    tailSubstitution_cases (tokensOf segments) token
  · have hzero' : (tailSubstitution
        (tokensOf (segments.map (Segment.map f)) ++ [token])).1 = 0 := by
      obtain hsame | hsame := hsame
      · rwa [hsame] at hzero
      · exact hsame.2
    rwa [addToken_of_apart hzero, addToken_of_apart hzero']
  · obtain ⟨others, rfl, rfl⟩ := exists_words hvalid htokens hjoined
    have hothers : ∀ segment ∈ others, segment.Valid := fun s hs => hvalid s (by simp [hs])
    have hmap : tokensOf ((others ++ joined.map (Segment.word [])).map (Segment.map f)) =
        tokensOf (others.map (Segment.map f)) ++ joined := by
      have hwords : (joined.map (Segment.word [])).map (Segment.map f) =
          joined.map (Segment.word []) := by
        simp [Segment.map, hf.nil]
      rw [List.map_append, tokensOf_append, hwords, tokensOf_words]
    have hnew' : tailSubstitution (tokensOf (others.map (Segment.map f)) ++ joined ++ [token]) =
        (joined.length + 1, new) := by
      rw [← hmap, ← hnew]
      obtain hsame | hsame := hsame
      · exact hsame.symm
      · rw [hnew] at hsame
        exact absurd hsame.1 (Nat.succ_ne_zero _)
    rw [htokens] at hnew ⊢
    rw [hmap, addToken_of_joined hnew, addToken_of_joined hnew']
    exact (inStep_tokensOf hothers).append (inStep_word hf hperiod)

theorem foldl_addToken {tokens others : List Token}
    (h : ∀ token ∈ others, endsSubstitution token = false) :
    others.foldl addToken tokens = tokens ++ others := by
  induction others generalizing tokens with
  | nil => exact (List.append_nil tokens).symm
  | cons token others ih =>
      rw [List.forall_mem_cons] at h
      rw [List.foldl_cons, addToken, substituteTail_eq h.1, ih h.2, List.append_assoc]
      rfl

theorem endsSubstitution_eq_false {token : Token}
    (h : ∀ word ∈ otherWords, token.token ≠ word) : endsSubstitution token = false := by
  simp only [endsSubstitution, List.contains_cons, List.contains_nil, Bool.or_false,
    Bool.or_eq_false_iff, beq_eq_false_iff_ne]
  exact ⟨h _ (by decide), h _ (by decide), h _ (by decide), h _ (by decide)⟩

/-- The tokens of a longer name stay as they are. -/
theorem endsSubstitution_word {qualifier : List NamePart} {last : Token}
    (h : (Segment.word qualifier last).Valid) (hne : qualifier ≠ []) :
    ∀ token ∈ (Segment.word qualifier last).tokens, endsSubstitution token = false := by
  intro token htoken
  obtain ⟨-, hparts, hcolumn⟩ := h
  simp only [Segment.tokens, qualifierTokens, List.mem_append, List.mem_flatMap, List.mem_cons,
    List.not_mem_nil, or_false] at htoken
  obtain ⟨part, hpart, rfl | rfl⟩ | rfl := htoken
  · exact endsSubstitution_eq_false fun word hword =>
      (isName_of_tokenName (hparts part hpart)).ne hword
  · rfl
  · exact endsSubstitution_eq_false fun word hword => (hcolumn hne).ne hword

/-- A segment is read after others. -/
theorem InStep.foldl_segment (hf : KeepsLast f) {tokens tokens' : List Token}
    (h : InStep f tokens tokens') {segment : Segment} (hvalid : segment.Valid) :
    InStep f (segment.tokens.foldl Dump.addToken tokens)
      ((segment.map f).tokens.foldl Dump.addToken tokens') := by
  have hstays : (∀ token ∈ segment.tokens, endsSubstitution token = false) →
      (∀ token ∈ (segment.map f).tokens, endsSubstitution token = false) →
      InStep f (segment.tokens.foldl Dump.addToken tokens)
        ((segment.map f).tokens.foldl Dump.addToken tokens') := by
    intro htokens htokens'
    rw [foldl_addToken htokens, foldl_addToken htokens']
    exact h.append (inStep_segment hvalid)
  cases segment with
  | word qualifier last =>
      by_cases hne : qualifier = []
      · subst hne
        rw [Segment.map, hf.nil]
        exact h.addToken hf hvalid.1
      · exact hstays (endsSubstitution_word hvalid hne)
          (endsSubstitution_word (hvalid.map hf) (hf.ne_nil hne))
  | fraction digits =>
      have htokens : ∀ token ∈ (Segment.fraction digits).tokens,
          endsSubstitution token = false := by
        simp [Segment.tokens, endsSubstitution, period, Digits.token]
      exact hstays htokens htokens

theorem InStep.foldl_tokensOf (hf : KeepsLast f) {tokens tokens' : List Token}
    (h : InStep f tokens tokens') {segments : List Segment}
    (hvalid : ∀ segment ∈ segments, segment.Valid) :
    InStep f ((tokensOf segments).foldl Dump.addToken tokens)
      ((tokensOf (segments.map (Segment.map f))).foldl Dump.addToken tokens') := by
  induction segments generalizing tokens tokens' with
  | nil => exact h
  | cons segment segments ih =>
      rw [List.forall_mem_cons] at hvalid
      rw [List.map_cons, tokensOf_cons, tokensOf_cons, List.foldl_append, List.foldl_append]
      exact ih (h.foldl_segment hf hvalid.1) hvalid.2

/-! ## NOW -/

theorem replaceNowFunction_stays {previous : Option Token} {token : Token} {after : List Token}
    (h : isName token "NOW" = false ∨ startsCall after = false ∨
      previous.any (·.token == "OPERATOR_PERIOD") = true) :
    replaceNowFunction previous (token :: after) =
      token :: replaceNowFunction (some token) after := by
  obtain h | h | h := h
  · exact replaceNowFunction_cons (.inl h)
  · exact replaceNowFunction_cons (.inr h)
  · match after with
    | [] => rfl
    | [_] => rfl
    | left :: right :: rest =>
        rw [replaceNowFunction, if_neg]
        simp [h]

theorem replaceNowFunction_qualifier (previous : Option Token) (qualifier : List NamePart)
    (after : List Token) :
    replaceNowFunction previous (qualifierTokens qualifier ++ after) =
      qualifierTokens qualifier ++
        replaceNowFunction (if qualifier = [] then previous else some period) after := by
  induction qualifier generalizing previous with
  | nil => rfl
  | cons part qualifier ih =>
      have hcall : startsCall (period :: (qualifierTokens qualifier ++ after)) = false := by
        cases qualifierTokens qualifier ++ after <;> rfl
      have hperiod : isName period "NOW" = false := rfl
      rw [qualifierTokens_cons, List.cons_append, List.cons_append,
        replaceNowFunction_stays (.inr (.inl hcall)), replaceNowFunction_stays (.inl hperiod), ih]
      cases qualifier <;> rfl

theorem startsCall_elim {segments : List Segment} (hvalid : ∀ segment ∈ segments, segment.Valid)
    (h : startsCall (tokensOf segments)) : ∃ left right others,
      segments = .word [] left :: .word [] right :: others ∧
        left.token = "OPERATOR_LEFT_PAREN" ∧ right.token = "OPERATOR_RIGHT_PAREN" := by
  have hfirst : ∀ {segments : List Segment} {token : Token} {rest : List Token} {word : String},
      (∀ segment ∈ segments, segment.Valid) → tokensOf segments = token :: rest →
      token.token = word → word ∈ otherWords → word ≠ "OPERATOR_PERIOD" →
      ∃ others, segments = .word [] token :: others ∧ tokensOf others = rest := by
    intro segments token rest word hvalid htokens hword hother hperiod
    cases segments with
    | nil => cases htokens
    | cons segment others =>
        rw [tokensOf_cons] at htokens
        cases segment with
        | word qualifier last =>
            cases qualifier with
            | nil =>
                obtain ⟨rfl, hrest⟩ := List.cons.inj htokens
                exact ⟨others, rfl, hrest⟩
            | cons part qualifier =>
                obtain ⟨rfl, -⟩ := List.cons.inj htokens
                have hpart := (hvalid _ (List.mem_cons_self ..)).2.1 part (List.mem_cons_self ..)
                exact absurd hword ((isName_of_tokenName hpart).ne hother)
        | fraction digits =>
            obtain ⟨rfl, -⟩ := List.cons.inj htokens
            exact absurd hword.symm hperiod
  match htokens : tokensOf segments with
  | [] =>
      rw [htokens] at h
      cases h
  | [_] =>
      rw [htokens] at h
      cases h
  | left :: right :: rest =>
      rw [htokens, startsCall, Bool.and_eq_true, beq_iff_eq, beq_iff_eq] at h
      obtain ⟨others, rfl, hothers⟩ := hfirst hvalid htokens h.1 (by decide) (by decide)
      rw [List.forall_mem_cons] at hvalid
      obtain ⟨others', rfl, -⟩ := hfirst hvalid.2 hothers h.2 (by decide) (by decide)
      exact ⟨left, right, others', rfl, h⟩

theorem replaceNowFunction_fraction (previous : Option Token) (digits : Digits)
    (after : List Token) :
    replaceNowFunction previous ((Segment.fraction digits).tokens ++ after) =
      (Segment.fraction digits).tokens ++ replaceNowFunction (some digits.token) after := by
  have hperiod : isName period "NOW" = false := rfl
  have hdigits : isName digits.token "NOW" = false := rfl
  change replaceNowFunction previous (period :: digits.token :: after) = _
  rw [replaceNowFunction_stays (.inl hperiod), replaceNowFunction_stays (.inl hdigits)]
  rfl

/-- NOW is called here, after no other parts of a name. -/
def IsCall (previous : Option Token) (qualifier : List NamePart) (last : Token)
    (after : List Token) : Prop :=
  qualifier = [] ∧ isName last "NOW" ∧ startsCall after ∧
    previous.any (·.token == "OPERATOR_PERIOD") = false

theorem replaceNowFunction_word {previous : Option Token} {qualifier : List NamePart}
    {last : Token} {after : List Token} (h : ¬IsCall previous qualifier last after) :
    replaceNowFunction previous ((Segment.word qualifier last).tokens ++ after) =
      (Segment.word qualifier last).tokens ++ replaceNowFunction (some last) after := by
  rw [Segment.tokens, List.append_assoc, replaceNowFunction_qualifier, List.append_assoc]
  apply congrArg
  apply replaceNowFunction_stays
  by_contra hno
  simp only [not_or, Bool.not_eq_false] at hno
  obtain ⟨hnow, hstarts, hprevious⟩ := hno
  split at hprevious
  · next hqualifier => exact h ⟨hqualifier, hnow, hstarts, Bool.eq_false_iff.2 hprevious⟩
  · exact hprevious rfl

theorem IsCall.congr (hf : KeepsLast f) {previous : Option Token} {qualifier : List NamePart}
    {last : Token} {after after' : List Token} (hafter : AlikeNext after after') :
    IsCall previous (f qualifier) last after' ↔ IsCall previous qualifier last after := by
  have hnil : f qualifier = [] ↔ qualifier = [] :=
    ⟨fun h => by_contra fun hne => hf.ne_nil hne h, fun h => by rw [h, hf.nil]⟩
  rw [IsCall, IsCall, hnil, startsCall_congr hafter]

/-- A call of NOW is three tokens that become one. -/
theorem replaceNowFunction_call {previous : Option Token} {last left right : Token}
    (hcall : IsCall previous [] last [left, right]) (after : List Token) :
    replaceNowFunction previous (last :: left :: right :: after) =
      ⟨"CURRENT_TIMESTAMP", .text "CURRENT_TIMESTAMP".toList⟩ ::
        replaceNowFunction (some right) after := by
  obtain ⟨-, hnow, hstarts, hprevious⟩ := hcall
  rw [startsCall, Bool.and_eq_true, beq_iff_eq, beq_iff_eq] at hstarts
  rw [replaceNowFunction, if_pos]
  simp [hnow, hstarts, hprevious]

theorem inStep_replaceNowFunction (hf : KeepsLast f) {segments : List Segment}
    (previous : Option Token)
    (hvalid : ∀ segment ∈ segments, segment.Valid) :
    InStep f (replaceNowFunction previous (tokensOf segments))
      (replaceNowFunction previous (tokensOf (segments.map (Segment.map f)))) := by
  induction hn : segments.length using Nat.strong_induction_on generalizing segments previous with
  | _ n ih =>
      cases segments with
      | nil => exact inStep_nil
      | cons segment segments =>
          rw [List.forall_mem_cons] at hvalid
          rw [List.length_cons] at hn
          have hnext := fun previous => ih segments.length (by omega) previous hvalid.2 rfl
          rw [List.map_cons, tokensOf_cons, tokensOf_cons]
          cases segment with
          | fraction digits =>
              have hsegment : InStep f (Segment.fraction digits).tokens _ :=
                inStep_segment hvalid.1
              rw [Segment.map, replaceNowFunction_fraction, replaceNowFunction_fraction]
              exact hsegment.append (hnext _)
          | word qualifier last =>
              have hcongr := @IsCall.congr _ hf previous qualifier last _ _
                (alikeNext_tokensOf hf hvalid.2)
              by_cases hcall : IsCall previous qualifier last (tokensOf segments)
              · obtain ⟨rfl, hnow, hstarts, hprevious⟩ := hcall
                obtain ⟨left, right, others, rfl, hparens⟩ := startsCall_elim hvalid.2 hstarts
                have hothers : ∀ segment ∈ others, segment.Valid :=
                  fun s hs => hvalid.2 s (by simp [hs])
                have hcall : IsCall previous [] last [left, right] :=
                  ⟨rfl, hnow, hstarts, hprevious⟩
                have hword : InStep f
                    [⟨"CURRENT_TIMESTAMP", .text "CURRENT_TIMESTAMP".toList⟩] _ :=
                  inStep_word hf (by simp)
                have hrest := ih others.length (by simp at hn; omega) (some right) hothers rfl
                simp only [List.map_cons, Segment.map, hf.nil, tokensOf_cons]
                change InStep f (replaceNowFunction previous (last :: left :: right :: _))
                  (replaceNowFunction previous (last :: left :: right :: _))
                rw [replaceNowFunction_call hcall, replaceNowFunction_call hcall]
                exact hword.append hrest
              · have hword : InStep f (Segment.word qualifier last).tokens _ :=
                  inStep_segment hvalid.1
                rw [Segment.map, replaceNowFunction_word hcall,
                  replaceNowFunction_word (hcongr.not.2 hcall)]
                exact hword.append (hnext _)

/-! ## ILIKE and LIMIT -/

/-- A word may become another one, for the two tokens before it and the two after it. -/
structure Rewrites (rewrite : List Token → Token → List Token → Token) : Prop where
  stays : ∀ before token after, isPlaceWord token = false ∨ GoesOn after →
    rewrite before token after = token
  congr : ∀ {before before' : List Token} (token : Token) {after after' : List Token},
    before.take 2 = before'.take 2 → AlikeNext after after' →
      rewrite before token after = rewrite before' token after'
  column : ∀ before token after, IsColumn token →
    IsColumn (rewrite (period :: before) token after)
  period : ∀ before token after, token.token ≠ "OPERATOR_PERIOD" →
    (rewrite before token after).token ≠ "OPERATOR_PERIOD"

theorem rewrites_ilike : Rewrites rewriteIlike where
  stays _ _ _ h := rewriteIlike_name (h.imp_right .inr)
  congr token _ _ hbefore hafter := by
    rw [rewriteIlike, rewriteIlike, isIlikeOperator_congr hbefore hafter]
  column before token after h := by
    have hapart : Apart (Identifier.period :: before) after := by
      rintro last ⟨⟩ next -
      exact .inl (by decide)
    have hnone := isIlikeOperator_eq_false (.inl hapart)
    rw [rewriteIlike, hnone, if_neg (by simp)]
    exact h
  period before token after h := by
    rw [rewriteIlike]
    split
    · simp
    · exact h

theorem rewrites_limit : Rewrites rewriteLimit where
  stays _ _ _ h := rewriteLimit_name (h.imp_right .inr)
  congr token _ _ hbefore hafter := by
    rw [rewriteLimit, rewriteLimit, isLimitClause_congr hbefore hafter]
  column before token after h := by
    rw [rewriteLimit]
    split
    · exact .inr rfl
    · exact h
  period before token after h := by
    rw [rewriteLimit]
    split
    · simp
    · exact h

theorem rewriteTokens_qualifier {rewrite : List Token → Token → List Token → Token}
    (h : Rewrites rewrite) {qualifier : List NamePart}
    (hparts : ∀ part ∈ qualifier, IsName part.token) {next : Token}
    (hnext : next.token ≠ "LITERAL_NUMBER") (before after : List Token) :
    rewriteTokens rewrite before (qualifierTokens qualifier ++ next :: after) =
      qualifierTokens qualifier ++
        rewriteTokens rewrite ((qualifierTokens qualifier).reverse ++ before) (next :: after) := by
  induction qualifier generalizing before with
  | nil => rfl
  | cons part qualifier ih =>
      rw [List.forall_mem_cons] at hparts
      have hgoesOn : GoesOn (period :: (qualifierTokens qualifier ++ next :: after)) := by
        cases qualifier with
        | nil => exact ⟨next, after, rfl, hnext⟩
        | cons second qualifier =>
            exact ⟨second.token, _, rfl, (hparts.2 second (by simp)).ne (by decide)⟩
      have hperiod : isPlaceWord period = false := by decide
      rw [qualifierTokens_cons, List.cons_append, List.cons_append, rewriteTokens, rewriteTokens,
        h.stays _ _ _ (.inr hgoesOn), h.stays _ _ _ (.inl hperiod), ih hparts.2]
      simp

theorem rewriteTokens_word {rewrite : List Token → Token → List Token → Token}
    (h : Rewrites rewrite) {qualifier : List NamePart} {last : Token}
    (hvalid : (Segment.word qualifier last).Valid) (before after : List Token) :
    rewriteTokens rewrite before ((Segment.word qualifier last).tokens ++ after) =
      (Segment.word qualifier
        (rewrite ((qualifierTokens qualifier).reverse ++ before) last after)).tokens ++
          rewriteTokens rewrite
            (rewrite ((qualifierTokens qualifier).reverse ++ before) last after ::
            ((qualifierTokens qualifier).reverse ++ before)) after := by
  obtain ⟨-, hparts, hcolumn⟩ := hvalid
  rw [Segment.tokens, Segment.tokens, List.append_assoc, List.append_assoc]
  by_cases hne : qualifier = []
  · subst hne
    rfl
  · have hlast := (hcolumn hne).ne (show "LITERAL_NUMBER" ∈ otherWords by decide)
    exact rewriteTokens_qualifier h (fun part hpart => isName_of_tokenName (hparts part hpart))
      hlast before after

theorem Rewrites.valid_word {rewrite : List Token → Token → List Token → Token}
    (h : Rewrites rewrite) {qualifier : List NamePart} {last : Token}
    (hvalid : (Segment.word qualifier last).Valid) (before after : List Token) :
    (Segment.word qualifier
      (rewrite ((qualifierTokens qualifier).reverse ++ before) last after)).Valid := by
  obtain ⟨hperiod, hparts, hcolumn⟩ := hvalid
  refine ⟨h.period _ _ _ hperiod, hparts, fun hne => ?_⟩
  obtain ⟨front, part, rfl⟩ := (List.eq_nil_or_concat' qualifier).resolve_left hne
  rw [qualifierTokens_concat, List.reverse_append, List.append_assoc]
  exact h.column _ last after (hcolumn hne)

theorem rewriteTokens_fraction {rewrite : List Token → Token → List Token → Token}
    (h : Rewrites rewrite) (digits : Digits) (before after : List Token) :
    rewriteTokens rewrite before ((Segment.fraction digits).tokens ++ after) =
      (Segment.fraction digits).tokens ++
        rewriteTokens rewrite ((Segment.fraction digits).tokens.reverse ++ before) after := by
  have hperiod : isPlaceWord period = false := by decide
  have hdigits : isPlaceWord digits.token = false := by
    simp [isPlaceWord, isName, Digits.token]
  change rewriteTokens rewrite before (period :: digits.token :: after) = _
  rw [rewriteTokens, rewriteTokens, h.stays _ _ _ (.inl hperiod), h.stays _ _ _ (.inl hdigits)]
  rfl

theorem inStep_rewriteTokens (hf : KeepsLast f) {rewrite : List Token → Token → List Token → Token}
    (h : Rewrites rewrite) {segments : List Segment} {before before' : List Token}
    (hbefore : before.take 2 = before'.take 2) (hvalid : ∀ segment ∈ segments, segment.Valid) :
    InStep f (rewriteTokens rewrite before (tokensOf segments))
      (rewriteTokens rewrite before' (tokensOf (segments.map (Segment.map f)))) := by
  induction segments generalizing before before' with
  | nil => exact inStep_nil
  | cons segment segments ih =>
      rw [List.forall_mem_cons] at hvalid
      rw [List.map_cons, tokensOf_cons, tokensOf_cons]
      cases segment with
      | fraction digits =>
          have hnext := take_reverse_segment hf (.fraction digits) hbefore
          have hsegment : InStep f (Segment.fraction digits).tokens _ := inStep_segment hvalid.1
          rw [Segment.map, rewriteTokens_fraction h, rewriteTokens_fraction h]
          exact hsegment.append (ih hnext.symm hvalid.2)
      | word qualifier last =>
          have hqualifier := take_reverse_qualifier hf qualifier hbefore
          have hone := congrArg (List.take 1) hqualifier
          rw [List.take_take, List.take_take] at hone
          have hlast := h.congr last hqualifier.symm (alikeNext_tokensOf hf hvalid.2)
          have hvalidWord := h.valid_word hvalid.1 before (tokensOf segments)
          rw [rewriteTokens_word h hvalid.1, Segment.map, rewriteTokens_word h (hvalid.1.map hf),
            ← hlast]
          refine (inStep_segment hvalidWord).append (ih ?_ hvalid.2)
          exact congrArg (_ :: ·) hone.symm

/-- A definition becomes the same at the end, with other parts of the names before each word. -/
theorem InStep.finishTokens (hf : KeepsLast f) {tokens tokens' : List Token}
    (h : InStep f tokens tokens') :
    InStep f (finishTokens tokens) (finishTokens tokens') := by
  have hnone : ([] : List Token).take 2 = ([] : List Token).take 2 := rfl
  obtain ⟨segments, hvalid, rfl, rfl⟩ := h
  have hnow := inStep_replaceNowFunction hf none hvalid
  obtain ⟨replaced, hreplaced, htokens, htokens'⟩ := hnow
  have hilike := inStep_rewriteTokens hf rewrites_ilike hnone hreplaced
  rw [← htokens, ← htokens'] at hilike
  obtain ⟨rewritten, hrewritten, htokens, htokens'⟩ := hilike
  have hlimit := inStep_rewriteTokens hf rewrites_limit hnone hrewritten
  rwa [← htokens, ← htokens'] at hlimit

end Vsql.Dump
