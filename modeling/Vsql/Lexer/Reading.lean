import Mathlib.Data.List.TakeWhile
import Vsql.Lexer

/-!
# Reading a text piece by piece

Every step of the lexer uses a part of the text, so it always gets to the end.  What
is read of a piece of a text only depends on the piece, as long as the text after it
does not start with something that could be a part of it.
-/

namespace Vsql.Lexer

variable {normalizeNfc : Text → Text}

/-! ## Every step uses a part of the text -/

theorem length_skipBracketed {start cs rest : Text} {depth : Nat}
    (h : skipBracketed start depth cs = .ok rest) : rest.length < cs.length := by
  fun_induction skipBracketed start depth cs with
  | case1 depth cs ih =>
      have hlt := ih h
      simp only [List.length_cons]
      omega
  | case2 =>
      cases h
      simp only [List.length_cons]
      omega
  | case3 depth cs hdepth ih =>
      have hlt := ih h
      simp only [List.length_cons]
      omega
  | case4 depth c d cs _ _ ih =>
      have hlt := ih h
      simp only [List.length_cons] at hlt ⊢
      omega
  | case5 => cases h

theorem length_skipComment {cs rest : Text} (hcomment : isComment cs)
    (h : skipComment cs = .ok rest) : rest.length < cs.length := by
  unfold skipComment at h
  split at h
  · next cs =>
      cases h
      rw [List.dropWhile_cons_of_pos (by decide), List.length_cons]
      exact Nat.lt_succ_of_le (List.dropWhile_suffix _).length_le
  · exact length_skipBracketed h

theorem length_skipSeparatorsFrom {fuel : Nat} {hasNewline found : Bool} {cs rest : Text}
    (h : skipSeparatorsFrom fuel hasNewline cs = .ok (found, rest)) :
    rest.length ≤ cs.length := by
  induction fuel generalizing hasNewline cs with
  | zero =>
      cases cs <;> (cases h; simp)
  | succ fuel ih =>
      cases cs with
      | nil =>
          cases h
          simp
      | cons c cs =>
          rw [skipSeparatorsFrom] at h
          split at h
          · next hcomment =>
              obtain ⟨after, hskip, hrest⟩ := ok_of_bind h
              exact (ih hrest).trans (length_skipComment hcomment hskip).le
          · split at h
            · exact (ih h).trans (by simp)
            · cases h
              simp

theorem length_skipSeparators {cs rest : Text} {found : Bool}
    (h : skipSeparators cs = .ok (found, rest)) : rest.length ≤ cs.length :=
  length_skipSeparatorsFrom h

theorem length_quoted {quote : Char} {cs word rest : Text}
    (h : quoted quote cs = some (word, rest)) : rest.length < cs.length := by
  fun_induction quoted quote cs generalizing word rest with
  | case1 => cases h
  | case2 cs ih =>
      obtain ⟨⟨word', rest'⟩, hrest, heq⟩ := Option.map_eq_some_iff.mp h
      cases heq
      have hlt := ih hrest
      simp only [List.length_cons]
      omega
  | case3 d cs hd =>
      cases h
      simp
  | case4 =>
      cases h
      simp
  | case5 c cs hc ih =>
      obtain ⟨⟨word', rest'⟩, hrest, heq⟩ := Option.map_eq_some_iff.mp h
      cases heq
      have hlt := ih hrest
      simp only [List.length_cons]
      omega

theorem length_readStringLiteral {fuel : Nat} {cs word rest : Text}
    (h : readStringLiteral fuel cs = .ok (word, rest)) : rest.length < cs.length := by
  induction fuel generalizing cs word rest with
  | zero => cases h
  | succ fuel ih =>
      rw [readStringLiteral] at h
      split at h
      · cases h
      · next first after hquoted =>
          have hlt := length_quoted hquoted
          have htail : cs.tail.length ≤ cs.length := by simp
          obtain ⟨⟨hasNewline, next⟩, hskip, hrest⟩ := ok_of_bind h
          have hle := length_skipSeparators hskip
          simp only at hrest
          split at hrest
          · obtain ⟨⟨nextWord, after'⟩, hnext, heq⟩ := ok_of_bind hrest
            cases heq
            have hlt' := ih hnext
            dsimp only
            omega
          · cases hrest
            omega

theorem length_readUnicodeEscapeSpecifier {cs rest : Text} {escape : Char}
    (h : readUnicodeEscapeSpecifier cs = .ok (escape, rest)) : rest.length ≤ cs.length := by
  obtain ⟨⟨_, after⟩, hskip, hrest⟩ := ok_of_bind h
  have hle := length_skipSeparators hskip
  simp only at hrest
  split at hrest
  · cases hrest
    exact le_refl _
  · obtain ⟨⟨_, next⟩, hskip', hnext⟩ := ok_of_bind hrest
    have hle' := length_skipSeparators hskip'
    simp only [List.length_drop] at hle'
    simp only at hnext
    split at hnext
    · split at hnext
      · cases hnext
      · cases hnext
        simp only [List.length_cons] at hle'
        omega
    · cases hnext

theorem length_scanNumber (parameters : Nat) {c : Char} {rest : Text} (hc : isDigit c) :
    (scanNumber parameters (c :: rest)).rest.length ≤ rest.length := by
  have hdrop : ((c :: rest).dropWhile isDigit).length ≤ rest.length := by
    rw [List.dropWhile_cons_of_pos hc]
    exact (List.dropWhile_suffix _).length_le
  unfold scanNumber
  generalize (c :: rest).dropWhile isDigit = after at hdrop
  have htail : ∀ l : Text, l.tail.length ≤ l.length := fun l => by simp
  have hone := htail after
  have htwo := htail after.tail
  dsimp only
  split_ifs <;> dsimp only <;> omega

theorem length_scanString {parameters : Nat} {c : Char} {rest : Text} {scanned : Scanned}
    (h : scanString normalizeNfc parameters (c :: rest) = .ok scanned) :
    scanned.rest.length ≤ rest.length := by
  obtain ⟨⟨word, after⟩, hread, h⟩ := ok_of_bind h
  have hlt := length_readStringLiteral hread
  have hstart : (if isUnicodeString (c :: rest) then (c :: rest).drop 2 else c :: rest).length ≤
      rest.length + 1 := by
    split <;> simp
    omega
  dsimp only at h
  have hchecked : ∀ {word after : Text}, (do
      checkNoncharacters word
      pure ⟨[⟨"LITERAL_STRING", .value (normalizeNfc word)⟩], after, parameters, true⟩) =
        Except.ok scanned → scanned.rest = after := by
    intro word after h
    obtain ⟨-, -, h⟩ := ok_of_bind h
    cases h
    rfl
  split at h
  · obtain ⟨⟨escape, next⟩, hspecifier, h⟩ := ok_of_bind h
    obtain ⟨unescaped, -, h⟩ := ok_of_bind h
    have hle := length_readUnicodeEscapeSpecifier hspecifier
    rw [hchecked h]
    dsimp only
    omega
  · rw [hchecked h]
    dsimp only
    omega

theorem length_scanDelimited {parameters : Nat} {c : Char} {rest : Text} {scanned : Scanned}
    (h : scanDelimited parameters (c :: rest) = .ok scanned) :
    scanned.rest.length ≤ rest.length := by
  unfold scanDelimited at h
  split at h
  · cases h
  · next name after hquoted =>
      have hlt := length_quoted hquoted
      split at h
      · cases h
      · cases h
        simp only [List.tail_cons] at hlt
        exact hlt.le

theorem length_scanWord {parameters : Nat} {c : Char} {rest : Text} {scanned : Scanned}
    (h : scanWord parameters c rest = .ok scanned) : scanned.rest.length ≤ rest.length := by
  unfold scanWord at h
  dsimp only at h
  split at h
  · split at h
    · cases h
      exact le_refl _
    · cases h
  · cases h
    simp only [List.length_drop, List.length_cons]
    omega

theorem length_scan {parameters : Nat} {c : Char} {rest : Text} {scanned : Scanned}
    (h : scan normalizeNfc parameters c rest = .ok scanned) :
    scanned.rest.length ≤ rest.length := by
  unfold scan at h
  dsimp only at h
  split_ifs at h with hcomment hquestion hdigit hstring hquote
  · obtain ⟨after, hskip, h⟩ := ok_of_bind h
    cases h
    exact Nat.le_of_lt_succ (length_skipComment hcomment hskip)
  · cases h
    exact le_refl _
  · cases h
    exact length_scanNumber parameters hdigit
  · exact length_scanString h
  · exact length_scanDelimited h
  · split at h
    · cases h
      simp
    · cases h
      exact le_refl _
    · exact length_scanWord h

/-! ## Reading the whole text -/

theorem readTokens_fuel {fuel : Nat} {tokens : List Token} {parameters : Nat} {cs : Text}
    (h : cs.length ≤ fuel) :
    readTokens normalizeNfc fuel tokens parameters cs =
      readTokens normalizeNfc cs.length tokens parameters cs := by
  induction fuel using Nat.strong_induction_on generalizing tokens parameters cs with
  | _ fuel ih =>
      cases cs with
      | nil => simp [readTokens]
      | cons c cs =>
          cases fuel with
          | zero => simp at h
          | succ fuel =>
              simp only [List.length_cons] at h
              rw [List.length_cons, readTokens, readTokens]
              cases hscan : scan normalizeNfc parameters c cs with
              | error e => rfl
              | ok scanned =>
                  have hle := length_scan hscan
                  show readTokens _ _ _ _ _ = readTokens _ _ _ _ _
                  rw [ih fuel (by omega) (by omega)]
                  by_cases hlt : cs.length < fuel + 1
                  · rw [ih cs.length hlt hle]
                  · have heq : cs.length = fuel := by omega
                    rw [heq, ih fuel (by omega) (by omega)]

/-- The tokens of a text, after the tokens that have been read already. -/
def read (normalizeNfc : Text → Text) (tokens : List Token) (parameters : Nat) (cs : Text) :
    Except Failure (List Token) :=
  readTokens normalizeNfc cs.length tokens parameters cs

@[simp] theorem read_nil (tokens : List Token) (parameters : Nat) :
    read normalizeNfc tokens parameters [] = .ok tokens := by
  simp [read, readTokens]

theorem read_cons (tokens : List Token) (parameters : Nat) (c : Char) (cs : Text) :
    read normalizeNfc tokens parameters (c :: cs) = (do
      let scanned ← scan normalizeNfc parameters c cs
      let tokens := tokens ++ scanned.pushed
      read normalizeNfc (if scanned.next then substituteTail tokens else tokens)
        scanned.parameters scanned.rest) := by
  rw [read, List.length_cons, readTokens]
  cases hscan : scan normalizeNfc parameters c cs with
  | error e => rfl
  | ok scanned => exact readTokens_fuel (length_scan hscan)

/-! ## Semicolons -/

theorem dropWhile_semicolon {text : Text} (h : text.head? ≠ some ';') :
    text.dropWhile (· == ';') = text := by
  cases text with
  | nil => rfl
  | cons c text =>
      have hc : c ≠ ';' := fun heq => h (congrArg some heq)
      exact List.dropWhile_cons_of_neg (by simpa using hc)

/-- Only the semicolons at the end are taken off. -/
theorem trimSemicolons_append {text last : Text} (hstart : text.head? ≠ some ';')
    (hend : text.getLast? ≠ some ';') (hlast : ∀ c ∈ last, c = ';') :
    trimSemicolons (text ++ last) = text := by
  have hdrop : ∀ {semicolons : Text}, (∀ c ∈ semicolons, c = ';') → ∀ after : Text,
      (semicolons ++ after).dropWhile (· == ';') = after.dropWhile (· == ';') := by
    intro semicolons hsemicolons after
    exact List.dropWhile_append_of_pos fun c hc => by simpa using hsemicolons c hc
  unfold trimSemicolons
  cases text with
  | nil =>
      rw [List.nil_append, ← List.append_nil last, hdrop hlast]
      rfl
  | cons c rest =>
      have hfront : (c :: rest ++ last).dropWhile (· == ';') = c :: rest ++ last :=
        dropWhile_semicolon hstart
      rw [hfront, List.reverse_append, hdrop (by simpa using hlast),
        dropWhile_semicolon (by rwa [List.head?_reverse]), List.reverse_reverse]

/-! ## Reading a piece -/

/-- Reading a piece turns the tokens read before it into others. -/
def Reads (normalizeNfc : Text → Text) (piece : Text) (tokens tokens' : List Token)
    (rest : Text) : Prop :=
  ∀ parameters, read normalizeNfc tokens parameters (piece ++ rest) =
    read normalizeNfc tokens' parameters rest

theorem Reads.nil (tokens : List Token) (rest : Text) :
    Reads normalizeNfc [] tokens tokens rest := fun _ => rfl

theorem Reads.append {a b rest : Text} {tokens tokens' tokens'' : List Token}
    (h : Reads normalizeNfc a tokens tokens' (b ++ rest))
    (h' : Reads normalizeNfc b tokens' tokens'' rest) :
    Reads normalizeNfc (a ++ b) tokens tokens'' rest := by
  intro parameters
  rw [List.append_assoc, h, h']

/-- A piece that is read in one step. -/
theorem Reads.of_pushed {c : Char} {piece rest : Text} {tokens pushed : List Token}
    (h : ∀ parameters, scan normalizeNfc parameters c (piece ++ rest) =
      .ok ⟨pushed, rest, parameters, true⟩) :
    Reads normalizeNfc (c :: piece) tokens (substituteTail (tokens ++ pushed)) rest := by
  intro parameters
  rw [List.cons_append, read_cons, h]
  rfl

/-- A piece that is read in one step, which adds a token. -/
theorem Reads.of_scan {c : Char} {piece rest : Text} {tokens : List Token} {token : Token}
    (h : ∀ parameters, scan normalizeNfc parameters c (piece ++ rest) =
      .ok ⟨[token], rest, parameters, true⟩)
    (hsettled : substituteTail (tokens ++ [token]) = tokens ++ [token]) :
    Reads normalizeNfc (c :: piece) tokens (tokens ++ [token]) rest := by
  rw [← hsettled]
  exact Reads.of_pushed h

/-- The tokens that can be the last one of several that are one. -/
def endsSubstitution (token : Token) : Bool :=
  ["OPERATOR_ASTERISK", "TRUE", "FALSE", "UNKNOWN"].contains token.token

theorem substituteTail_eq {tokens : List Token} {token : Token}
    (h : endsSubstitution token = false) :
    substituteTail (tokens ++ [token]) = tokens ++ [token] := by
  have hnone : tailSubstitution (tokens ++ [token]) = (0, "") := by
    unfold tailSubstitution
    simp only [List.reverse_append, List.reverse_singleton, List.singleton_append, List.map_cons]
    split <;> simp_all [endsSubstitution]
  simp [substituteTail, hnone]

/-- After another token than IS and NOT, a truth value is a token of its own. -/
theorem substituteTail_eq_of_before {tokens : List Token} {before token : Token}
    (hbefore : ["IS", "NOT"].contains before.token = false)
    (htoken : ["TRUE", "FALSE", "UNKNOWN"].contains token.token) :
    substituteTail (tokens ++ [before] ++ [token]) = tokens ++ [before] ++ [token] := by
  have hnone : tailSubstitution (tokens ++ [before] ++ [token]) = (0, "") := by
    unfold tailSubstitution
    simp only [List.reverse_append, List.reverse_singleton, List.singleton_append, List.map_cons]
    split <;> simp_all
  simp only [substituteTail, hnone]
  rfl

/-! ## Words -/

theorem ne_of_isIdentifierChar {c d : Char} (h : isIdentifierChar c false)
    (hd : isIdentifierChar d false = false) : c ≠ d := by
  rintro rfl
  rw [h] at hd
  cases hd

theorem singleOperator_eq_none {c : Char} (h : isIdentifierChar c false) :
    singleOperator c = none := by
  unfold singleOperator
  split <;> first | rfl | exact absurd h (by decide)

theorem multiOperator_eq_none {c : Char} {rest : Text} (h : isIdentifierChar c false) :
    multiOperator (c :: rest) = none := by
  unfold multiOperator
  split <;> first | rfl | (next heq => cases heq; exact absurd h (by decide))

theorem isComment_eq_false {c : Char} {rest : Text} (h : isIdentifierChar c false) :
    isComment (c :: rest) = false := by
  unfold isComment
  split <;> first | rfl | (next heq => cases heq; exact absurd h (by decide))

theorem isDigit_eq_false {c : Char} (h : isIdentifierChar c false) : isDigit c = false := by
  by_contra hdigit
  simp only [isDigit, isIdentifierChar, Bool.not_eq_false, Bool.and_eq_true, Bool.or_eq_true,
    decide_eq_true_eq, beq_iff_eq, Bool.false_eq_true, if_false, Char.le_def,
    UInt32.le_iff_toNat_le] at hdigit h
  obtain (h | h) | rfl := h
  · have : ('a' : Char).val.toNat = 97 := rfl
    have : ('9' : Char).val.toNat = 57 := rfl
    omega
  · have : ('A' : Char).val.toNat = 65 := rfl
    have : ('9' : Char).val.toNat = 57 := rfl
    omega
  · exact absurd hdigit.2 (by decide)

/-- A word that is read before the text ends there. -/
def Breaks (rest : Text) : Prop :=
  ∀ c ∈ rest.head?, isIdentifierChar c true = false ∧ c ≠ '&'

theorem scan_word {c : Char} {word rest : Text} (hc : isIdentifierChar c false)
    (hword : ∀ d ∈ word, isIdentifierChar d true) (hrest : Breaks rest) (parameters : Nat) :
    scan normalizeNfc parameters c (word ++ rest) =
      .ok ⟨[wordToken (c :: word)], rest, parameters, true⟩ := by
  have hlength : wordLength (c :: (word ++ rest)) = 1 + word.length := by
    rw [wordLength, if_pos hc, List.takeWhile_append_of_pos hword]
    have hnil : rest.takeWhile (isIdentifierChar · true) = [] := by
      cases rest with
      | nil => rfl
      | cons d rest =>
          rw [List.takeWhile_cons_of_neg]
          simpa using (hrest d rfl).1
    rw [hnil, List.append_nil]
  have hunicode : isUnicodeString (c :: (word ++ rest)) = false := by
    unfold isUnicodeString
    split
    · next heq =>
        cases word with
        | nil =>
            obtain ⟨-, rfl⟩ := List.cons.inj heq
            exact absurd rfl (hrest '&' rfl).2
        | cons d word =>
            obtain ⟨-, heq⟩ := List.cons.inj heq
            obtain ⟨rfl, -⟩ := List.cons.inj heq
            exact absurd (hword '&' (by simp)) (by decide)
    · rfl
  have htake : (c :: (word ++ rest)).take (1 + word.length) = c :: word := by
    rw [Nat.add_comm, List.take_succ_cons, List.take_left]
  have hdrop : (c :: (word ++ rest)).drop (1 + word.length) = rest := by
    rw [Nat.add_comm, List.drop_succ_cons, List.drop_left]
  have hquestion : c ≠ '?' := ne_of_isIdentifierChar hc (by decide)
  have hstring : c ≠ '\'' := ne_of_isIdentifierChar hc (by decide)
  have hquote : c ≠ '"' := ne_of_isIdentifierChar hc (by decide)
  simp only [scan, isComment_eq_false hc, hquestion, isDigit_eq_false hc, hstring, hunicode, hquote,
    multiOperator_eq_none hc, singleOperator_eq_none hc, Bool.false_eq_true, if_false, scanWord,
    hlength, htake, hdrop, decide_false, Bool.or_self]
  have hne : 1 + word.length ≠ 0 := by omega
  rw [if_neg hne]

/-! ## Quotes -/

/-- The text with each quote doubled. -/
def doubled (quote : Char) : Text → Text
  | [] => []
  | c :: s => if c = quote then quote :: quote :: doubled quote s else c :: doubled quote s

theorem quoted_doubled {quote : Char} {rest : Text} (hrest : rest.head? ≠ some quote) (s : Text) :
    quoted quote (doubled quote s ++ quote :: rest) = some (s, rest) := by
  induction s with
  | nil =>
      cases rest with
      | nil => simp [doubled, quoted]
      | cons d rest =>
          have hd : d ≠ quote := fun h => hrest (by rw [h]; rfl)
          simp [doubled, quoted, hd]
  | cons c s ih =>
      by_cases hc : c = quote
      · simp [doubled, hc, quoted, ih]
      · rw [doubled, if_neg hc, List.cons_append, quoted.eq_def]
        simp [hc, ih]

theorem isUnicodeString_eq_false {c : Char} {rest : Text} (hupper : c ≠ 'U') (hlower : c ≠ 'u') :
    isUnicodeString (c :: rest) = false := by
  unfold isUnicodeString
  split
  · next heq =>
      obtain ⟨rfl, -⟩ := List.cons.inj heq
      simp [hupper, hlower]
  · rfl

theorem scan_delimited {s rest : Text} (hs : s ≠ []) (hrest : rest.head? ≠ some '"')
    (parameters : Nat) :
    scan normalizeNfc parameters '"' ((doubled '"' s ++ ['"']) ++ rest) =
      .ok ⟨[⟨"LITERAL_IDENTIFIER", .chain ('"' :: (doubled '"' s ++ ['"']))⟩], rest, parameters,
        true⟩ := by
  have hquoted : quoted '"' ((doubled '"' s ++ ['"']) ++ rest) = some (s, rest) := by
    rw [List.append_assoc]
    exact quoted_doubled hrest s
  have hlength : ('"' :: ((doubled '"' s ++ ['"']) ++ rest)).length - rest.length =
      ('"' :: (doubled '"' s ++ ['"'])).length := by
    simp only [List.length_cons, List.length_append]
    omega
  have hword : ('"' :: ((doubled '"' s ++ ['"']) ++ rest)).take
      ('"' :: (doubled '"' s ++ ['"'])).length = '"' :: (doubled '"' s ++ ['"']) := by
    show (('"' :: (doubled '"' s ++ ['"'])) ++ rest).take _ = _
    rw [List.take_left]
  generalize (doubled '"' s ++ ['"']) ++ rest = text at *
  have hscan : scan normalizeNfc parameters '"' text = scanDelimited parameters ('"' :: text) := by
    have hunicode : isUnicodeString ('"' :: text) = false :=
      isUnicodeString_eq_false (by decide) (by decide)
    simp [scan, isComment, hunicode, show isDigit '"' = false by decide]
  rw [hscan]
  simp only [scanDelimited, List.tail_cons, hquoted, hs, if_false, hlength, hword]

/-! ## Operators -/

theorem scan_operator {c : Char} {op : String} {rest : Text} (hop : singleOperator c = some op)
    (hcomment : isComment (c :: rest) = false) (hmulti : multiOperator (c :: rest) = none)
    (parameters : Nat) :
    scan normalizeNfc parameters c ([] ++ rest) =
      .ok ⟨[⟨op, .text [c]⟩], rest, parameters, true⟩ := by
  have hplain : c ≠ '?' ∧ isDigit c = false ∧ c ≠ '\'' ∧ c ≠ '"' ∧ c ≠ 'U' ∧ c ≠ 'u' := by
    unfold singleOperator at hop
    split at hop <;> first | decide | cases hop
  obtain ⟨hquestion, hdigit, hstring, hquote, hupper, hlower⟩ := hplain
  simp [scan, hcomment, hquestion, hdigit, hstring, isUnicodeString_eq_false hupper hlower, hquote,
    hmulti, hop]

theorem mem_of_multiOperator {c d : Char} {rest : Text}
    (h : (multiOperator (c :: d :: rest)).isSome) :
    (c, d) ∈ [('<', '>'), ('!', '='), ('>', '='), ('<', '='), ('|', '|')] := by
  unfold multiOperator at h
  split at h <;>
    first
    | next heq =>
        cases heq
        decide
    | cases h

theorem scan_multiOperator {c d : Char} {op : String} {rest : Text}
    (hop : multiOperator (c :: d :: rest) = some op) (parameters : Nat) :
    scan normalizeNfc parameters c ([d] ++ rest) =
      .ok ⟨[⟨op, .text [c, d]⟩], rest, parameters, true⟩ := by
  have hmem := mem_of_multiOperator (Option.isSome_iff_exists.2 ⟨op, hop⟩)
  have hplain : c ≠ '?' ∧ isDigit c = false ∧ c ≠ '\'' ∧ c ≠ '"' ∧ c ≠ 'U' ∧ c ≠ 'u' ∧
      c ≠ '-' ∧ c ≠ '/' := by
    simp only [List.mem_cons, Prod.mk.injEq, List.not_mem_nil, or_false] at hmem
    obtain ⟨rfl, -⟩ | ⟨rfl, -⟩ | ⟨rfl, -⟩ | ⟨rfl, -⟩ | ⟨rfl, -⟩ := hmem <;> decide
  obtain ⟨hquestion, hdigit, hstring, hquote, hupper, hlower, hminus, hsolidus⟩ := hplain
  simp [scan, isComment, hminus, hsolidus, hquestion, hdigit, hstring,
    isUnicodeString_eq_false hupper hlower, hquote, hop]

end Vsql.Lexer
