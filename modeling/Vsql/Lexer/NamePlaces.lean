import Vsql.Lexer.Names

/-!
# Words that depend on the tokens around them

NOW, ILIKE and LIMIT are only key words in some places.  In the other places the tokens of
a name stay as they are, whatever becomes of the tokens around it.
-/

namespace Vsql.Identifier

open Lexer

/-- The words that are not always names. -/
def isPlaceWord (token : Token) : Bool :=
  token.token == "ILIKE" || isName token "LIMIT" || isName token "NOW"

def startsCall : List Token → Bool
  | left :: right :: _ =>
      left.token == "OPERATOR_LEFT_PAREN" && right.token == "OPERATOR_RIGHT_PAREN"
  | _ => false

def startsLiteral : List Token → Bool
  | [] => false
  | next :: others =>
      ["LITERAL_NUMBER", "LITERAL_STRING", "TRUE", "FALSE", "UNKNOWN"].contains next.token ||
        (["DATE", "TIME", "TIMESTAMP"].contains next.token &&
          others.head?.any (·.token == "LITERAL_STRING")) ||
        (next.token == "OPERATOR_PERIOD" && others.head?.any (·.token == "LITERAL_NUMBER"))

/-- A name here is not next to another value.  The tokens before it are in reverse order. -/
def Apart (before after : List Token) : Prop :=
  ∀ last ∈ before.head?, ∀ next ∈ after.head?,
    (last.token ≠ "NOT" ∧ endsValue last = false) ∨ startsValue next = false

/-- A name here is not followed by a row count. -/
def NoLimit (before after : List Token) : Prop :=
  startsLiteral after = false ∧ ∀ last ∈ before.head?, ∀ next ∈ after.head?,
    next.token = "OPERATOR_PLUS" ∨ next.token = "OPERATOR_MINUS" →
      beforeExpression.contains last.token

/-- A place where the grammar has a name. -/
structure Place (before after : List Token) : Prop where
  apart : Apart before after
  noLimit : NoLimit before after
  noCall : startsCall after = false

theorem Apart.period {before after : List Token} {token : Token} (_ : Apart before after) :
    Apart (period :: token :: before) after := by
  rintro last ⟨⟩ next -
  exact .inl (by decide)

theorem NoLimit.period {before after : List Token} {token : Token} (h : NoLimit before after) :
    NoLimit (period :: token :: before) after := by
  refine ⟨h.1, ?_⟩
  rintro last ⟨⟩ next - -
  decide

/-! ## NOW -/

theorem replaceNowFunction_cons {previous : Option Token} {token : Token} {after : List Token}
    (h : isName token "NOW" = false ∨ startsCall after = false) :
    replaceNowFunction previous (token :: after) =
      token :: replaceNowFunction (some token) after := by
  match after with
  | [] => rfl
  | [_] => rfl
  | left :: right :: rest =>
      rw [replaceNowFunction, if_neg]
      intro hcall
      simp only [Bool.and_eq_true] at hcall
      obtain ⟨⟨⟨hname, hleft⟩, hright⟩, -⟩ := hcall
      obtain h | h := h
      · rw [h] at hname
        cases hname
      · rw [startsCall, hleft, hright] at h
        cases h

/-- The tokens before a name are replaced on their own. -/
theorem replaceNowFunction_append {previous : Option Token} {before after : List Token}
    {token : Token}
    (htoken : token.token ≠ "OPERATOR_LEFT_PAREN" ∧ token.token ≠ "OPERATOR_RIGHT_PAREN") :
    ∃ previous', replaceNowFunction previous (before ++ token :: after) =
      replaceNowFunction previous before ++ replaceNowFunction previous' (token :: after) := by
  fun_induction replaceNowFunction previous before with
  | case1 previous now left right rest h ih =>
      obtain ⟨previous', ih⟩ := ih
      refine ⟨previous', ?_⟩
      simp only [List.cons_append] at ih ⊢
      rw [replaceNowFunction, if_pos h, ih]
  | case2 previous now left right rest h ih =>
      obtain ⟨previous', ih⟩ := ih
      refine ⟨previous', ?_⟩
      simp only [List.cons_append] at ih ⊢
      rw [replaceNowFunction, if_neg h, ih]
  | case3 previous before hshort =>
      match before with
      | [] => exact ⟨previous, rfl⟩
      | [a] =>
          refine ⟨some a, ?_⟩
          rw [List.singleton_append, replaceNowFunction_cons]
          · rfl
          · cases after <;> simp [startsCall, htoken.1]
      | [a, b] =>
          refine ⟨some b, ?_⟩
          have hb : startsCall (token :: after) = false := by
            cases after <;> simp [startsCall, htoken.1]
          have ha : startsCall (b :: token :: after) = false := by
            simp [startsCall, htoken.2]
          rw [List.cons_append, List.singleton_append, replaceNowFunction_cons (.inr ha),
            replaceNowFunction_cons (.inr hb)]
          rfl
      | a :: b :: c :: rest => exact absurd rfl (hshort a b c rest)

theorem getLast?_replaceNowFunction {previous : Option Token} {tokens : List Token} {last : Token}
    (h : tokens.getLast? = some last) (hlast : last.token ≠ "OPERATOR_RIGHT_PAREN") :
    (replaceNowFunction previous tokens).getLast? = some last := by
  fun_induction replaceNowFunction previous tokens with
  | case1 previous now left right rest hcall ih =>
      cases rest with
      | nil =>
          simp only [List.getLast?_cons_cons, List.getLast?_singleton, Option.some.injEq] at h
          subst h
          simp only [Bool.and_eq_true, beq_iff_eq] at hcall
          exact absurd hcall.1.2 hlast
      | cons next rest =>
          simp only [List.getLast?_cons_cons] at h ih
          simp [List.getLast?_cons, ih h]
  | case2 previous now left right rest hcall ih =>
      simp only [List.getLast?_cons_cons] at h ih
      simp [List.getLast?_cons, ih h]
  | case3 => exact h

/-! ## ILIKE and LIMIT -/

theorem rewriteTokens_append (rewrite : List Token → Token → List Token → Token)
    (before tokens after : List Token) :
    rewriteTokens rewrite before (tokens ++ after) =
      rewriteTokens (fun b t a => rewrite b t (a ++ after)) before tokens ++
        rewriteTokens rewrite ((rewriteTokens (fun b t a => rewrite b t (a ++ after)) before
          tokens).reverse ++ before) after := by
  induction tokens generalizing before with
  | nil => rfl
  | cons token tokens ih =>
      simp only [List.cons_append, rewriteTokens, ih]
      simp

@[simp] theorem length_rewriteTokens (rewrite : List Token → Token → List Token → Token)
    (before tokens : List Token) :
    (rewriteTokens rewrite before tokens).length = tokens.length := by
  induction tokens generalizing before with
  | nil => rfl
  | cons token tokens ih => simp [rewriteTokens, ih]

/-- A token that is always left as it is stays the last one. -/
theorem getLast?_rewriteTokens {rewrite : List Token → Token → List Token → Token}
    {before tokens : List Token} {last : Token} (h : tokens.getLast? = some last)
    (hlast : ∀ b a, rewrite b last a = last) :
    (rewriteTokens rewrite before tokens).getLast? = some last := by
  obtain ⟨tokens, rfl⟩ := List.getLast?_eq_some_iff.mp h
  rw [rewriteTokens_append]
  simp [rewriteTokens, hlast]

/-- What is after a part of a name that is not the last one. -/
def GoesOn (after : List Token) : Prop :=
  ∃ next others, after = period :: next :: others ∧ next.token ≠ "LITERAL_NUMBER"

theorem goesOn_intersperse {token : Text → Token} {next : Text} {names : List Text}
    {after : List Token} (hnext : (token next).token ≠ "LITERAL_NUMBER") :
    GoesOn (period :: (((next :: names).map token).intersperse period ++ after)) := by
  cases names with
  | nil => exact ⟨token next, after, by simp, hnext⟩
  | cons _ _ => exact ⟨token next, _, by simp; rfl, hnext⟩

theorem isIlikeOperator_eq_false {before after : List Token}
    (h : Apart before after ∨ GoesOn after) : isIlikeOperator before after = false := by
  have hperiod : startsValue period = false := by decide
  match before, after with
  | [], _ => rfl
  | _ :: _, [] => rfl
  | last :: others, next :: after =>
      obtain h | ⟨second, rest, heq, -⟩ := h
      · obtain ⟨hnot, hlast⟩ | hnext := h last rfl next rfl
        · simp [isIlikeOperator, hnot, hlast]
        · simp [isIlikeOperator, hnext]
      · obtain ⟨rfl, -⟩ := List.cons.inj heq
        simp [isIlikeOperator, hperiod]

theorem rewriteIlike_name {before after : List Token} {token : Token}
    (h : isPlaceWord token = false ∨ Apart before after ∨ GoesOn after) :
    rewriteIlike before token after = token := by
  rw [rewriteIlike, if_neg]
  rintro ⟨hilike, hoperator⟩
  obtain h | h := h
  · simp [isPlaceWord, hilike] at h
  · rw [isIlikeOperator_eq_false h] at hoperator
    cases hoperator

theorem isLimitClause_eq_false {before after : List Token} {token : Token}
    (h : NoLimit before after ∨ GoesOn after) : isLimitClause before token after = false := by
  match after with
  | [] => rfl
  | next :: others =>
      unfold isLimitClause
      dsimp only
      rw [Bool.and_eq_false_iff]
      refine .inr ?_
      obtain ⟨hliteral, hsigned⟩ | ⟨second, rest, heq, hsecond⟩ := h
      · simp only [startsLiteral, Bool.or_eq_false_iff, Bool.and_eq_false_iff] at hliteral
        obtain ⟨⟨hnext, hdate⟩, hperiod⟩ := hliteral
        split
        · next hsign =>
            match before with
            | [] => rfl
            | last :: _ =>
                have hcontains := hsigned last rfl next rfl hsign
                dsimp only
                rw [hcontains, Bool.not_true, Bool.and_false]
        · split
          · next hdatetime =>
              have hcontains : ["DATE", "TIME", "TIMESTAMP"].contains next.token = true := by
                obtain h | h | h := hdatetime <;> rw [h] <;> decide
              have hstring := hdate.resolve_left fun h => by rw [hcontains] at h; cases h
              cases others <;> simp_all
          · split
            · next hnextPeriod =>
                have hnumber := hperiod.resolve_left (by simp [hnextPeriod])
                cases others <;> simp_all
            · exact hnext
      · obtain ⟨rfl, rfl⟩ := List.cons.inj heq
        simpa [Identifier.period] using hsecond

theorem rewriteLimit_name {before after : List Token} {token : Token}
    (h : isPlaceWord token = false ∨ NoLimit before after ∨ GoesOn after) :
    rewriteLimit before token after = token := by
  rw [rewriteLimit, if_neg]
  intro hlimit
  obtain h | h := h
  · match after with
    | [] => cases hlimit
    | next :: others =>
        simp only [isPlaceWord, Bool.or_eq_false_iff] at h
        simp [isLimitClause, h.1.2] at hlimit
  · rw [isLimitClause_eq_false h] at hlimit
    cases hlimit

section

variable {token : Text → Token} {names : List Text}

/-- The parts of a name stay as they are, when each of them does. -/
theorem rewriteTokens_names {rewrite : List Token → Token → List Token → Token}
    {here : List Token → List Token → Prop}
    (hname : ∀ before token after, isPlaceWord token = false ∨ here before after ∨ GoesOn after →
      rewrite before token after = token)
    (hhere : ∀ {before after token}, here before after → here (period :: token :: before) after)
    (hnumber : ∀ name ∈ names, (token name).token ≠ "LITERAL_NUMBER")
    {before after : List Token}
    (h : (∀ name ∈ names, isPlaceWord (token name) = false) ∨ here before after) :
    rewriteTokens rewrite before ((names.map token).intersperse period ++ after) =
      (names.map token).intersperse period ++
        rewriteTokens rewrite (((names.map token).intersperse period).reverse ++ before) after := by
  induction names generalizing before with
  | nil => rfl
  | cons name names ih =>
      cases names with
      | nil =>
          have hlast : rewrite before (token name) after = token name :=
            hname _ _ _ (h.imp (fun h => h name (by simp)) .inl)
          simp [rewriteTokens, hlast]
      | cons next names =>
          have hgoesOn : GoesOn
              (period :: (((next :: names).map token).intersperse period ++ after)) :=
            goesOn_intersperse (hnumber next (by simp))
          have hfirst : rewrite before (token name) _ = _ := hname _ _ _ (.inr (.inr hgoesOn))
          have hperiod : rewrite (token name :: before) period
              (((next :: names).map token).intersperse period ++ after) = period :=
            hname _ _ _ (.inl (by decide))
          have hothers : rewriteTokens rewrite (period :: token name :: before) _ = _ :=
            ih (fun n hn => hnumber n (by simp [hn]))
              (h.imp (fun h n hn => h n (by simp [hn])) hhere)
          simp only [List.map_cons, List.intersperse_cons_cons, List.cons_append,
            rewriteTokens] at hfirst hperiod hothers ⊢
          rw [hfirst, hperiod, hothers]
          simp

theorem rewriteIlike_names (hnumber : ∀ name ∈ names, (token name).token ≠ "LITERAL_NUMBER")
    {before after : List Token}
    (h : (∀ name ∈ names, isPlaceWord (token name) = false) ∨ Apart before after) :
    rewriteTokens rewriteIlike before ((names.map token).intersperse period ++ after) =
      (names.map token).intersperse period ++ rewriteTokens rewriteIlike
        (((names.map token).intersperse period).reverse ++ before) after :=
  rewriteTokens_names (fun _ _ _ => rewriteIlike_name) Apart.period hnumber h

theorem rewriteLimit_names (hnumber : ∀ name ∈ names, (token name).token ≠ "LITERAL_NUMBER")
    {before after : List Token}
    (h : (∀ name ∈ names, isPlaceWord (token name) = false) ∨ NoLimit before after) :
    rewriteTokens rewriteLimit before ((names.map token).intersperse period ++ after) =
      (names.map token).intersperse period ++ rewriteTokens rewriteLimit
        (((names.map token).intersperse period).reverse ++ before) after :=
  rewriteTokens_names (fun _ _ _ => rewriteLimit_name) NoLimit.period hnumber h

theorem replaceNowFunction_names {previous : Option Token} {after : List Token}
    (h : (∀ name ∈ names, isPlaceWord (token name) = false) ∨ startsCall after = false) :
    ∃ previous', replaceNowFunction previous ((names.map token).intersperse period ++ after) =
      (names.map token).intersperse period ++ replaceNowFunction previous' after := by
  induction names generalizing previous with
  | nil => exact ⟨previous, rfl⟩
  | cons name names ih =>
      cases names with
      | nil =>
          have hlast : isName (token name) "NOW" = false ∨ startsCall after = false := by
            refine h.imp_left fun h => ?_
            have hword := h name (by simp)
            simp only [isPlaceWord, Bool.or_eq_false_iff] at hword
            exact hword.2
          refine ⟨some (token name), ?_⟩
          simp [replaceNowFunction_cons hlast]
      | cons next names =>
          obtain ⟨previous', hothers⟩ : ∃ previous', replaceNowFunction (some period) _ = _ ++
              replaceNowFunction previous' after :=
            ih (h.imp_left fun h n hn => h n (by simp [hn]))
          refine ⟨previous', ?_⟩
          have hcall : ∀ tokens, startsCall (period :: tokens) = false := by
            rintro (_ | ⟨second, tokens⟩)
            · rfl
            · simp [startsCall, period]
          simp only [List.map_cons, List.intersperse_cons_cons, List.cons_append] at hothers ⊢
          rw [replaceNowFunction_cons (.inr (hcall _)), replaceNowFunction_cons (.inl (by decide)),
            hothers]

end

/-! ## The places after each of the passes -/

/-- The first token is the same, or one that is no value. -/
theorem head_replaceNowFunction {previous : Option Token} {tokens : List Token} {next : Token}
    (h : next ∈ (replaceNowFunction previous tokens).head?) :
    ∃ first ∈ tokens.head?, next = first ∨ next.token = "CURRENT_TIMESTAMP" := by
  unfold replaceNowFunction at h
  split at h
  · split at h <;> cases h
    · exact ⟨_, rfl, .inr rfl⟩
    · exact ⟨_, rfl, .inl rfl⟩
  · exact ⟨next, h, .inl rfl⟩

theorem any_head_replaceNowFunction {previous : Option Token} {tokens : List Token} {name : String}
    (hname : name ≠ "CURRENT_TIMESTAMP") (h : tokens.head?.any (·.token == name) = false) :
    (replaceNowFunction previous tokens).head?.any (·.token == name) = false := by
  simp only [Option.any_eq_false, beq_eq_false_iff_ne] at h ⊢
  intro next hnext
  obtain ⟨first, hfirst, rfl | hcurrent⟩ := head_replaceNowFunction hnext
  · exact h _ hfirst
  · rw [hcurrent]
    exact hname.symm

theorem startsLiteral_replaceNowFunction {previous : Option Token} {tokens : List Token}
    (h : startsLiteral tokens = false) :
    startsLiteral (replaceNowFunction previous tokens) = false := by
  unfold replaceNowFunction
  split
  · next now left right rest =>
      split
      · rfl
      · simp only [startsLiteral, Bool.or_eq_false_iff, Bool.and_eq_false_iff] at h ⊢
        exact ⟨⟨h.1.1, h.1.2.imp_right (any_head_replaceNowFunction (by decide))⟩,
          h.2.imp_right (any_head_replaceNowFunction (by decide))⟩
  · exact h

theorem rewriteIlike_token (before after : List Token) (token : Token) :
    rewriteIlike before token after = token ∨
      (rewriteIlike before token after).token = "OPERATOR_ILIKE" := by
  unfold rewriteIlike
  split
  · exact .inr rfl
  · exact .inl rfl

theorem any_head_rewriteIlike {before tokens : List Token} {name : String}
    (hname : name ≠ "OPERATOR_ILIKE") (h : tokens.head?.any (·.token == name) = false) :
    (rewriteTokens rewriteIlike before tokens).head?.any (·.token == name) = false := by
  cases tokens with
  | nil => rfl
  | cons token tokens =>
      obtain heq | heq := rewriteIlike_token before tokens token
      · simpa [rewriteTokens, heq] using h
      · simpa [rewriteTokens, heq] using hname.symm

theorem startsLiteral_rewriteIlike {before tokens : List Token} (h : startsLiteral tokens = false) :
    startsLiteral (rewriteTokens rewriteIlike before tokens) = false := by
  cases tokens with
  | nil => rfl
  | cons token tokens =>
      simp only [rewriteTokens, startsLiteral, Bool.or_eq_false_iff, Bool.and_eq_false_iff] at h ⊢
      obtain heq | heq := rewriteIlike_token before tokens token
      · rw [heq]
        exact ⟨⟨h.1.1, h.1.2.imp_right (any_head_rewriteIlike (by decide))⟩,
          h.2.imp_right (any_head_rewriteIlike (by decide))⟩
      · rw [heq]
        exact ⟨⟨by decide, .inl (by decide)⟩, .inl (by decide)⟩

/-- A token that no value ends with is not the end of NOW(). -/
theorem getLast?_of_replaceNowFunction {tokens : List Token} {before last : Token}
    (hbefore : tokens.getLast? = some before) (hparen : before.token ≠ "OPERATOR_RIGHT_PAREN")
    (hlast : last ∈ (replaceNowFunction none tokens).reverse.head?) : last = before := by
  rw [List.head?_reverse, getLast?_replaceNowFunction hbefore hparen] at hlast
  exact (Option.some.inj hlast).symm

theorem getLast?_isSome_of_replaceNowFunction {tokens : List Token} {last : Token}
    (hlast : last ∈ (replaceNowFunction none tokens).reverse.head?) :
    ∃ before, tokens.getLast? = some before := by
  cases hbefore : tokens.getLast? with
  | none =>
      rw [List.getLast?_eq_none_iff] at hbefore
      subst hbefore
      cases hlast
  | some before => exact ⟨before, rfl⟩

theorem Apart.replaceNowFunction {previous : Option Token} {tokens rest : List Token}
    (h : Apart tokens.reverse rest) :
    Apart (Lexer.replaceNowFunction none tokens).reverse
      (Lexer.replaceNowFunction previous rest) := by
  intro last hlast next hnext
  obtain ⟨first, hfirst, heq⟩ := head_replaceNowFunction hnext
  obtain ⟨before, hbefore⟩ := getLast?_isSome_of_replaceNowFunction hlast
  obtain ⟨hnot, hvalue⟩ | hvalue := h before (by rwa [List.head?_reverse]) first hfirst
  · have hparen : before.token ≠ "OPERATOR_RIGHT_PAREN" := by
      intro heq
      rw [endsValue, heq] at hvalue
      exact absurd hvalue (by decide)
    rw [getLast?_of_replaceNowFunction hbefore hparen hlast]
    exact .inl ⟨hnot, hvalue⟩
  · obtain rfl | hcurrent := heq
    · exact .inr hvalue
    · refine .inr ?_
      rw [startsValue, hcurrent]
      decide +kernel

theorem NoLimit.replaceNowFunction {previous : Option Token} {tokens rest : List Token}
    (h : NoLimit tokens.reverse rest) :
    NoLimit (Lexer.replaceNowFunction none tokens).reverse
      (Lexer.replaceNowFunction previous rest) := by
  refine ⟨startsLiteral_replaceNowFunction h.1, ?_⟩
  intro last hlast next hnext hsign
  obtain ⟨first, hfirst, heq⟩ := head_replaceNowFunction hnext
  obtain ⟨before, hbefore⟩ := getLast?_isSome_of_replaceNowFunction hlast
  have hsame : next = first := heq.resolve_right fun hcurrent => by simp [hcurrent] at hsign
  subst hsame
  have hcontains := h.2 before (by rwa [List.head?_reverse]) next hfirst hsign
  have hparen : before.token ≠ "OPERATOR_RIGHT_PAREN" := by
    intro heq
    rw [heq] at hcontains
    exact absurd hcontains (by decide)
  rwa [getLast?_of_replaceNowFunction hbefore hparen hlast]

/-- Tokens of a kind that is left as it is stay the last ones. -/
theorem last_rewriteTokens {tokens : List Token} {last before : Token}
    {rewrite : List Token → Token → List Token → Token} (hbefore : tokens.getLast? = some before)
    (hrewrite : ∀ b a, rewrite b before a = before)
    (hlast : last ∈ (rewriteTokens rewrite [] tokens).reverse.head?) : last = before := by
  rw [List.head?_reverse, getLast?_rewriteTokens hbefore hrewrite] at hlast
  exact (Option.some.inj hlast).symm

theorem getLast?_isSome_of_rewriteTokens {tokens : List Token} {last : Token}
    {rewrite : List Token → Token → List Token → Token}
    (hlast : last ∈ (rewriteTokens rewrite [] tokens).reverse.head?) :
    ∃ before, tokens.getLast? = some before := by
  cases hbefore : tokens.getLast? with
  | none =>
      rw [List.getLast?_eq_none_iff] at hbefore
      subst hbefore
      cases hlast
  | some before => exact ⟨before, rfl⟩

theorem Apart.rewriteBefore {tokens rest : List Token}
    {rewrite : List Token → Token → List Token → Token}
    (hrewrite : ∀ b a t, endsValue t = false → rewrite b t a = t) (h : Apart tokens.reverse rest) :
    Apart (rewriteTokens rewrite [] tokens).reverse rest := by
  intro last hlast next hnext
  obtain ⟨before, hbefore⟩ := getLast?_isSome_of_rewriteTokens hlast
  obtain ⟨hnot, hvalue⟩ | hvalue := h before (by rwa [List.head?_reverse]) next hnext
  · rw [last_rewriteTokens hbefore (fun b a => hrewrite b a before hvalue) hlast]
    exact .inl ⟨hnot, hvalue⟩
  · exact .inr hvalue

theorem NoLimit.rewriteBefore {tokens rest : List Token}
    {rewrite : List Token → Token → List Token → Token}
    (hrewrite : ∀ b a t, beforeExpression.contains t.token → rewrite b t a = t)
    (h : NoLimit tokens.reverse rest) : NoLimit (rewriteTokens rewrite [] tokens).reverse rest := by
  refine ⟨h.1, ?_⟩
  intro last hlast next hnext hsign
  obtain ⟨before, hbefore⟩ := getLast?_isSome_of_rewriteTokens hlast
  have hcontains := h.2 before (by rwa [List.head?_reverse]) next hnext hsign
  rwa [last_rewriteTokens hbefore (fun b a => hrewrite b a before hcontains) hlast]

theorem NoLimit.rewriteAfter {before before' rest : List Token} (h : NoLimit before rest) :
    NoLimit before (rewriteTokens rewriteIlike before' rest) := by
  refine ⟨startsLiteral_rewriteIlike h.1, ?_⟩
  intro last hlast next hnext hsign
  cases rest with
  | nil => cases hnext
  | cons first rest =>
      cases hnext
      have hsame := (rewriteIlike_token before' rest first).resolve_right fun h => by
        simp [h] at hsign
      rw [hsame] at hsign
      exact h.2 last hlast first rfl hsign

theorem rewriteIlike_of_endsValue {before after : List Token} {token : Token}
    (h : endsValue token = false) : rewriteIlike before token after = token := by
  rw [rewriteIlike, if_neg]
  rintro ⟨hilike, -⟩
  rw [endsValue, hilike] at h
  exact absurd h (by decide +kernel)

theorem rewriteIlike_of_beforeExpression {before after : List Token} {token : Token}
    (h : beforeExpression.contains token.token) : rewriteIlike before token after = token := by
  rw [rewriteIlike, if_neg]
  rintro ⟨hilike, -⟩
  rw [hilike] at h
  exact absurd h (by decide)

theorem rewriteLimit_of_beforeExpression {before after : List Token} {token : Token}
    (h : beforeExpression.contains token.token) : rewriteLimit before token after = token := by
  have hname : isName token "LIMIT" = false := by
    rw [isName]
    split
    · rw [Bool.and_eq_false_iff, beq_eq_false_iff_ne]
      refine .inl fun hidentifier => ?_
      rw [hidentifier] at h
      exact absurd h (by decide)
    · rfl
  cases after <;> simp [rewriteLimit, isLimitClause, hname]

/-! ## All of the passes -/

section

variable {token : Text → Token} {names : List Text}

/-- The tokens of a name are the same once all of the tokens are known. -/
theorem finishTokens_names (hnames : names ≠ [])
    (htoken : ∀ name ∈ names, (token name).token ≠ "LITERAL_NUMBER" ∧
      (token name).token ≠ "OPERATOR_LEFT_PAREN" ∧ (token name).token ≠ "OPERATOR_RIGHT_PAREN")
    {tokens rest : List Token}
    (h : (∀ name ∈ names, isPlaceWord (token name) = false) ∨ Place tokens.reverse rest) :
    ∃ before after, finishTokens (tokens ++ (names.map token).intersperse period ++ rest) =
        before ++ (names.map token).intersperse period ++ after ∧
      before.length = (replaceNowFunction none tokens).length := by
  have hnumber : ∀ name ∈ names, (token name).token ≠ "LITERAL_NUMBER" := fun n hn =>
    (htoken n hn).1
  obtain ⟨first, others, hfirst, heq⟩ : ∃ first others, (first.token ≠ "OPERATOR_LEFT_PAREN" ∧
      first.token ≠ "OPERATOR_RIGHT_PAREN") ∧
        (names.map token).intersperse period = first :: others := by
    cases names with
    | nil => exact absurd rfl hnames
    | cons name names =>
        cases names with
        | nil => exact ⟨_, _, (htoken name (by simp)).2, rfl⟩
        | cons _ _ => exact ⟨_, _, (htoken name (by simp)).2, rfl⟩
  obtain ⟨previous, hbefore⟩ : ∃ previous, replaceNowFunction none
      (tokens ++ first :: (others ++ rest)) = replaceNowFunction none tokens ++
        replaceNowFunction previous (first :: (others ++ rest)) :=
    replaceNowFunction_append hfirst
  rw [← List.cons_append, ← heq] at hbefore
  obtain ⟨previous', hnow⟩ : ∃ previous', replaceNowFunction previous _ = _ ++
      replaceNowFunction previous' rest :=
    replaceNowFunction_names (h.imp_right (·.noCall))
  rw [hnow] at hbefore
  -- The last token before the name is the same in each of the passes, or does not matter.
  let ilike : List Token → Token → List Token → Token := fun b t a =>
    rewriteIlike b t (a ++ ((names.map token).intersperse period ++
      replaceNowFunction previous' rest))
  have hilike : _ ∨ Apart (rewriteTokens ilike [] (replaceNowFunction none tokens)).reverse
      (replaceNowFunction previous' rest) :=
    h.imp_right fun h => h.apart.replaceNowFunction.rewriteBefore fun _ _ _ =>
      rewriteIlike_of_endsValue
  have hlimit : _ ∨ NoLimit (rewriteTokens ilike [] (replaceNowFunction none tokens)).reverse
      (replaceNowFunction previous' rest) :=
    h.imp_right fun h => h.noLimit.replaceNowFunction.rewriteBefore fun _ _ _ =>
      rewriteIlike_of_beforeExpression
  rw [List.append_assoc, finishTokens, hbefore, rewriteTokens_append, List.append_nil,
    rewriteIlike_names hnumber hilike, rewriteTokens_append, List.append_nil,
    rewriteLimit_names hnumber (hlimit.imp_right fun h => NoLimit.rewriteBefore
      (fun _ _ _ => rewriteLimit_of_beforeExpression) h.rewriteAfter)]
  exact ⟨_, _, by rw [List.append_assoc], by simp⟩

end

/-! ## Statements where every word stays -/

/-- The tokens are the same after all of the passes.  Those before them are in reverse order. -/
def Stays : (before : List Token) → List Token → Prop
  | _, [] => True
  | before, token :: after =>
      (isPlaceWord token = false ∨ Place before after ∨ GoesOn after) ∧
        Stays (token :: before) after

theorem replaceNowFunction_of_stays {before tokens : List Token} {previous : Option Token}
    (h : Stays before tokens) : replaceNowFunction previous tokens = tokens := by
  induction tokens generalizing before previous with
  | nil => rfl
  | cons token after ih =>
      rw [replaceNowFunction_cons, ih h.2]
      obtain hword | hplace | ⟨next, others, rfl, -⟩ := h.1
      · simp only [isPlaceWord, Bool.or_eq_false_iff] at hword
        exact .inl hword.2
      · exact .inr hplace.noCall
      · exact .inr (by simp [startsCall, period])

theorem rewriteTokens_of_stays {rewrite : List Token → Token → List Token → Token}
    (hname : ∀ before token after, isPlaceWord token = false ∨ Place before after ∨ GoesOn after →
      rewrite before token after = token) {before tokens : List Token} (h : Stays before tokens) :
    rewriteTokens rewrite before tokens = tokens := by
  induction tokens generalizing before with
  | nil => rfl
  | cons token after ih =>
      simp only [rewriteTokens, hname _ _ _ h.1, ih h.2]

theorem finishTokens_of_stays {tokens : List Token} (h : Stays [] tokens) :
    finishTokens tokens = tokens := by
  rw [finishTokens, replaceNowFunction_of_stays h,
    rewriteTokens_of_stays (fun _ _ _ hword =>
      rewriteIlike_name (hword.imp_right (·.imp_left Place.apart))) h,
    rewriteTokens_of_stays (fun _ _ _ hword =>
      rewriteLimit_name (hword.imp_right (·.imp_left Place.noLimit))) h]

theorem Stays.append_of_words {before tokens after : List Token}
    (htokens : ∀ token ∈ tokens, isPlaceWord token = false)
    (h : Stays (tokens.reverse ++ before) after) : Stays before (tokens ++ after) := by
  induction tokens generalizing before with
  | nil => exact h
  | cons token tokens ih =>
      refine ⟨.inl (htokens token (by simp)), ih (fun t ht => htokens t (by simp [ht])) ?_⟩
      simpa using h

theorem Stays.append_of_names {token : Text → Token} {names : List Text}
    (hnumber : ∀ name ∈ names, (token name).token ≠ "LITERAL_NUMBER") {before after : List Token}
    (hplace : Place before after)
    (h : Stays (((names.map token).intersperse period).reverse ++ before) after) :
    Stays before ((names.map token).intersperse period ++ after) := by
  induction names generalizing before with
  | nil => exact h
  | cons name names ih =>
      cases names with
      | nil => exact ⟨.inr (.inl hplace), h⟩
      | cons next names =>
          have hgoesOn : GoesOn
              (period :: (((next :: names).map token).intersperse period ++ after)) :=
            goesOn_intersperse (hnumber next (by simp))
          refine ⟨.inr (.inr hgoesOn), .inl (by decide),
            ih (fun n hn => hnumber n (by simp [hn]))
              ⟨hplace.apart.period, hplace.noLimit.period, hplace.noCall⟩ ?_⟩
          simpa using h

end Vsql.Identifier
