import Mathlib.Data.List.Basic
import Vsql.Lexer.Reading

/-!
# Literals and key words

What is read of a string in quotes, of a number and of key words, before any text that
they are not joined with.
-/

namespace Vsql.Lexer

variable {normalizeNfc : Text → Text}

/-! ## Adding tokens -/

/-- A truth value after one of these tokens is a part of an operator. -/
def endsIs (tokens : List Token) : Bool :=
  tokens.getLast?.any fun token => ["IS", "NOT"].contains token.token

/-- Reading a piece adds some tokens, whatever was read before it. -/
def Adds (normalizeNfc : Text → Text) (piece : Text) (added : List Token) (rest : Text) : Prop :=
  ∀ tokens, endsIs tokens = false → Reads normalizeNfc piece tokens (tokens ++ added) rest

/-- Reading a piece adds some tokens, even after IS or NOT. -/
def Pushes (normalizeNfc : Text → Text) (piece : Text) (added : List Token) (rest : Text) : Prop :=
  ∀ tokens, Reads normalizeNfc piece tokens (tokens ++ added) rest

theorem Pushes.adds {piece rest : Text} {added : List Token}
    (h : Pushes normalizeNfc piece added rest) : Adds normalizeNfc piece added rest :=
  fun tokens _ => h tokens

theorem Pushes.nil {rest : Text} : Pushes normalizeNfc [] [] rest := by
  intro tokens
  rw [List.append_nil]
  exact Reads.nil tokens rest

theorem Pushes.append {a b rest : Text} {added added' : List Token}
    (h : Pushes normalizeNfc a added (b ++ rest)) (h' : Pushes normalizeNfc b added' rest) :
    Pushes normalizeNfc (a ++ b) (added ++ added') rest := by
  intro tokens
  rw [← List.append_assoc]
  exact (h tokens).append (h' _)

theorem endsIs_append {tokens added : List Token} (htokens : endsIs tokens = false)
    (hadded : endsIs added = false) : endsIs (tokens ++ added) = false := by
  unfold endsIs at *
  rw [List.getLast?_append]
  cases hlast : added.getLast? with
  | none => simpa [hlast] using htokens
  | some token => simpa [hlast] using hadded

theorem Adds.append {a b rest : Text} {added added' : List Token}
    (h : Adds normalizeNfc a added (b ++ rest)) (hadded : endsIs added = false)
    (h' : Adds normalizeNfc b added' rest) : Adds normalizeNfc (a ++ b) (added ++ added') rest := by
  intro tokens htokens
  rw [← List.append_assoc]
  exact (h tokens htokens).append (h' _ (endsIs_append htokens hadded))

theorem Pushes.of_scan {c : Char} {piece rest : Text} {added : List Token}
    (h : ∀ parameters, scan normalizeNfc parameters c (piece ++ rest) =
      .ok ⟨added, rest, parameters, true⟩)
    (hends : ∀ token ∈ added.getLast?, endsSubstitution token = false) (hadded : added ≠ []) :
    Pushes normalizeNfc (c :: piece) added rest := by
  intro tokens parameters
  have hsettled : substituteTail (tokens ++ added) = tokens ++ added := by
    obtain ⟨others, last, rfl⟩ := (List.eq_nil_or_concat' added).resolve_left hadded
    rw [← List.append_assoc]
    exact substituteTail_eq (hends last (by simp))
  rw [List.cons_append, read_cons, h]
  show read normalizeNfc (substituteTail (tokens ++ added)) parameters rest = _
  rw [hsettled]

theorem pushes_operator {c : Char} {op : String} {rest : Text} (hop : singleOperator c = some op)
    (hends : endsSubstitution ⟨op, .text [c]⟩ = false) (hcomment : isComment (c :: rest) = false)
    (hmulti : multiOperator (c :: rest) = none) :
    Pushes normalizeNfc [c] [⟨op, .text [c]⟩] rest :=
  Pushes.of_scan (scan_operator hop hcomment hmulti) (by simpa using hends) (by simp)

theorem ne_of_isWhiteSpace {c d : Char} (h : isWhiteSpace c) (hd : isWhiteSpace d = false) :
    c ≠ d := by
  rintro rfl
  rw [h] at hd
  cases hd

theorem isDigit_of_isWhiteSpace {c : Char} (h : isWhiteSpace c) : isDigit c = false := by
  by_contra hdigit
  simp only [isDigit, Bool.not_eq_false, Bool.and_eq_true, decide_eq_true_eq, Char.le_def,
    UInt32.le_iff_toNat_le] at hdigit
  simp only [isWhiteSpace, Char.toNat, Bool.or_eq_true, Bool.and_eq_true, decide_eq_true_eq,
    beq_iff_eq] at h
  have hfirst : ('0' : Char).val.toNat = 48 := rfl
  have hlast : ('9' : Char).val.toNat = 57 := rfl
  omega

theorem isIdentifierChar_of_isWhiteSpace {c : Char} (h : isWhiteSpace c) :
    isIdentifierChar c false = false := by
  by_contra hchar
  simp only [isIdentifierChar, Bool.not_eq_false, Bool.and_eq_true, Bool.or_eq_true,
    decide_eq_true_eq, beq_iff_eq, Bool.false_eq_true, if_false, Char.le_def,
    UInt32.le_iff_toNat_le] at hchar
  obtain hletter | rfl := hchar
  · simp only [isWhiteSpace, Char.toNat, Bool.or_eq_true, Bool.and_eq_true, decide_eq_true_eq,
      beq_iff_eq] at h
    have ha : ('a' : Char).val.toNat = 97 := rfl
    have hz : ('z' : Char).val.toNat = 122 := rfl
    have hA : ('A' : Char).val.toNat = 65 := rfl
    have hZ : ('Z' : Char).val.toNat = 90 := rfl
    omega
  · exact absurd h (by decide)

theorem isComment_of_isWhiteSpace {c : Char} (h : isWhiteSpace c) (rest : Text) :
    isComment (c :: rest) = false := by
  unfold isComment
  split
  · next heq => exact absurd (List.cons.inj heq).1 (ne_of_isWhiteSpace h (by decide))
  · next heq => exact absurd (List.cons.inj heq).1 (ne_of_isWhiteSpace h (by decide))
  · rfl

theorem scan_whiteSpace {c : Char} (h : isWhiteSpace c) (parameters : Nat) (rest : Text) :
    scan normalizeNfc parameters c rest = .ok ⟨[], rest, parameters, false⟩ := by
  have hmulti : multiOperator (c :: rest) = none := by
    unfold multiOperator
    split <;>
      first | rfl | (next heq => cases heq; exact absurd h (by decide))
  have hsingle : singleOperator c = none := by
    unfold singleOperator
    split <;> first | rfl | exact absurd h (by decide)
  have hunicode : isUnicodeString (c :: rest) = false :=
    isUnicodeString_eq_false (ne_of_isWhiteSpace h (by decide)) (ne_of_isWhiteSpace h (by decide))
  have hquestion : c ≠ '?' := ne_of_isWhiteSpace h (by decide)
  have hstring : c ≠ '\'' := ne_of_isWhiteSpace h (by decide)
  have hquote : c ≠ '"' := ne_of_isWhiteSpace h (by decide)
  simp [scan, isComment_of_isWhiteSpace h, isDigit_of_isWhiteSpace h, hquestion, hstring, hquote,
    hunicode, hmulti, hsingle, scanWord, wordLength, isIdentifierChar_of_isWhiteSpace h, h]

theorem pushes_whiteSpace {c : Char} (h : isWhiteSpace c) {rest : Text} :
    Pushes normalizeNfc [c] [] rest := by
  intro tokens parameters
  rw [List.singleton_append, read_cons, scan_whiteSpace h]
  rfl

theorem adds_blank {rest : Text} : Adds normalizeNfc [' '] [] rest :=
  (pushes_whiteSpace (by decide)).adds

theorem substituteTail_eq_of_endsIs {tokens : List Token} {token : Token}
    (htokens : endsIs tokens = false) (htoken : token.token ≠ "OPERATOR_ASTERISK") :
    substituteTail (tokens ++ [token]) = tokens ++ [token] := by
  cases hends : endsSubstitution token with
  | false => exact substituteTail_eq hends
  | true =>
      have htruth : ["TRUE", "FALSE", "UNKNOWN"].contains token.token := by
        simpa [endsSubstitution, htoken] using hends
      obtain rfl | ⟨others, before, rfl⟩ := List.eq_nil_or_concat' tokens
      · simp [substituteTail, tailSubstitution]
      · exact substituteTail_eq_of_before (by simpa [endsIs] using htokens) htruth

theorem Adds.nil {rest : Text} : Adds normalizeNfc [] [] rest := Pushes.nil.adds

/-! ## Key words -/

def keyword (word : String) : Token := ⟨word, .text word.toList⟩

/-- A word that is always a key word by itself. -/
def isKeyword (word : String) : Bool :=
  (word.toList.take 1).all (isIdentifierChar · false) &&
    (word.toList.drop 1).all (isIdentifierChar · true) && word.toList != [] &&
    wordToken word.toList == keyword word && !(["ILIKE", "IS", "NOT"].contains word)

theorem adds_keyword {word : String} (hword : isKeyword word) {rest : Text} (hrest : Breaks rest) :
    Adds normalizeNfc word.toList [keyword word] rest := by
  have hasterisk : word ≠ "OPERATOR_ASTERISK" := by
    rintro rfl
    exact absurd hword (by decide +kernel)
  simp only [isKeyword, Bool.and_eq_true, bne_iff_ne, ne_eq, beq_iff_eq, List.all_eq_true,
    Bool.not_eq_true'] at hword
  obtain ⟨⟨⟨⟨hfirst, hothers⟩, hne⟩, htoken⟩, -⟩ := hword
  cases hcs : word.toList with
  | nil => exact absurd hcs hne
  | cons c cs =>
      rw [hcs] at hfirst hothers htoken
      have hscan : ∀ parameters, scan normalizeNfc parameters c (cs ++ rest) = _ :=
        scan_word (hfirst c (by simp)) (by simpa using hothers) hrest
      rw [htoken] at hscan
      intro tokens htokens parameters
      rw [List.cons_append, read_cons, hscan]
      show read normalizeNfc (substituteTail (tokens ++ [keyword word])) parameters rest = _
      rw [substituteTail_eq_of_endsIs htokens hasterisk]

/-! ## Strings -/

def stringToken (normalizeNfc : Text → Text) (word : Text) : Token :=
  ⟨"LITERAL_STRING", .value (normalizeNfc word)⟩

theorem skipSeparators_cons {c : Char} {rest : Text} (hcomment : isComment (c :: rest) = false)
    (hspace : isWhiteSpace c = false) : skipSeparators (c :: rest) = .ok (false, c :: rest) := by
  rw [skipSeparators, List.length_cons, skipSeparatorsFrom, hcomment, if_neg Bool.false_ne_true,
    hspace, if_neg Bool.false_ne_true]

/-- What can be after a string, so that it ends there. -/
def EndsString (rest : Text) : Prop :=
  rest.head? ≠ some '\'' ∧ ∃ hasNewline next, skipSeparators rest = .ok (hasNewline, next) ∧
    (hasNewline && next.head? == some '\'') = false

theorem readStringLiteral_doubled {word rest : Text} (hrest : EndsString rest) {fuel : Nat} :
    readStringLiteral (fuel + 1) ('\'' :: (doubled '\'' word ++ '\'' :: rest)) =
      .ok (word, rest) := by
  obtain ⟨hquote, hasNewline, next, hskip, hlast⟩ := hrest
  rw [readStringLiteral, List.tail_cons, quoted_doubled hquote]
  simp only [bind, Except.bind, hskip, hlast]
  rfl

theorem pushes_string {word rest : Text} (hword : word.any isNoncharacter = false)
    (hrest : EndsString rest) :
    Pushes normalizeNfc ('\'' :: (doubled '\'' word ++ ['\''])) [stringToken normalizeNfc word]
      rest := by
  refine Pushes.of_scan (fun parameters => ?_) (by simp [stringToken, endsSubstitution]) (by simp)
  rw [List.append_assoc, List.singleton_append]
  have hread : readStringLiteral ((doubled '\'' word ++ '\'' :: rest).length + 1)
      ('\'' :: (doubled '\'' word ++ '\'' :: rest)) = .ok (word, rest) :=
    readStringLiteral_doubled hrest
  generalize doubled '\'' word ++ '\'' :: rest = text at hread
  have hunicode : isUnicodeString ('\'' :: text) = false :=
    isUnicodeString_eq_false (by decide) (by decide)
  have hdigit : isDigit '\'' = false := by decide
  have hscan : scan normalizeNfc parameters '\'' text =
      scanString normalizeNfc parameters ('\'' :: text) := by
    simp [scan, isComment, hdigit]
  rw [hscan]
  simp only [scanString, hunicode, Bool.false_eq_true, if_false, List.length_cons, hread, bind,
    Except.bind, pure, Except.pure, checkNoncharacters, hword]
  rfl

/-! ## Numbers -/

inductive Sign where
  | plus
  | minus
  deriving DecidableEq

namespace Sign

def char : Sign → Char
  | .plus => '+'
  | .minus => '-'

def token : Sign → Token
  | .plus => ⟨"OPERATOR_PLUS", .text ['+']⟩
  | .minus => ⟨"OPERATOR_MINUS", .text ['-']⟩

end Sign

/-- `unsigned_integer` of the grammar. -/
structure Digits where
  text : Text
  ne : text ≠ []
  all : ∀ c ∈ text, isDigit c = true

def Digits.token (d : Digits) : Token := ⟨"LITERAL_NUMBER", .text d.text⟩

def signText (sign : Option Sign) : Text := (sign.map Sign.char).toList

def signTokens (sign : Option Sign) : List Token := (sign.map Sign.token).toList

structure Exponent where
  isUpper : Bool
  sign : Option Sign
  digits : Digits

def Exponent.text (e : Exponent) : Text :=
  (if e.isUpper then 'E' else 'e') :: (signText e.sign ++ e.digits.text)

def Exponent.tokens (e : Exponent) : List Token :=
  ⟨"E", .none⟩ :: (signTokens e.sign ++ [e.digits.token])

/-- `exact_numeric_literal` of the grammar. -/
inductive ExactNumber where
  | integer (whole : Digits)
  | period (whole : Digits)
  | decimal (whole fraction : Digits)
  | fraction (digits : Digits)

def periodToken : Token := ⟨"OPERATOR_PERIOD", .text ['.']⟩

def ExactNumber.text : ExactNumber → Text
  | .integer whole => whole.text
  | .period whole => whole.text ++ ['.']
  | .decimal whole others => whole.text ++ '.' :: others.text
  | .fraction digits => '.' :: digits.text

def ExactNumber.tokens : ExactNumber → List Token
  | .integer whole => [whole.token]
  | .period whole => [whole.token, periodToken]
  | .decimal whole others => [whole.token, periodToken, others.token]
  | .fraction digits => [periodToken, digits.token]

/-- `signed_numeric_literal` of the grammar. -/
structure NumericLiteral where
  sign : Option Sign
  number : ExactNumber
  exponent : Option Exponent

namespace NumericLiteral

def text (n : NumericLiteral) : Text :=
  signText n.sign ++ (n.number.text ++ (n.exponent.map Exponent.text).getD [])

def tokens (n : NumericLiteral) : List Token :=
  signTokens n.sign ++ (n.number.tokens ++ (n.exponent.map Exponent.tokens).getD [])

end NumericLiteral

/-- What can be after a number, so that it ends there. -/
def EndsNumber (rest : Text) : Prop :=
  ∀ c ∈ rest.head?, isDigit c = false ∧ c ≠ '.' ∧ c ≠ 'e' ∧ c ≠ 'E'

theorem EndsNumber.isExponent_eq_false {rest : Text} (h : EndsNumber rest) :
    isExponent rest = false := by
  cases rest with
  | nil => rfl
  | cons c rest =>
      obtain ⟨-, -, he, hE⟩ := h c rfl
      cases rest <;> simp [isExponent, he, hE]

theorem isExponent_text (e : Exponent) (rest : Text) : isExponent (e.text ++ rest) = true := by
  obtain ⟨upper, sign, ⟨digits, hne, hall⟩⟩ := e
  cases digits with
  | nil => exact absurd rfl hne
  | cons d digits =>
      have hd := hall d (by simp)
      cases upper <;> rcases sign with _ | _ | _ <;>
        simp [Exponent.text, signText, isExponent, Sign.char, hd]

section

variable {d : Digits} {after : Text} (hafter : ∀ c ∈ after.head?, isDigit c = false)

include hafter

theorem takeWhile_digits : (d.text ++ after).takeWhile isDigit = d.text := by
  rw [List.takeWhile_append_of_pos d.all]
  cases after with
  | nil => simp
  | cons c after => simp [hafter c rfl]

theorem dropWhile_digits : (d.text ++ after).dropWhile isDigit = after := by
  rw [List.dropWhile_append_of_pos d.all]
  cases after with
  | nil => rfl
  | cons c after => simp [hafter c rfl]

end

/-- The digits are read up to a text that does not start with one, and then the parts of an
approximate number that are read with them. -/
theorem Pushes.of_scanNumber {d : Digits} {after : Text} {added : List Token} {e rest : Text}
    (hrest : e ++ rest = after)
    (h : ∀ parameters, scanNumber parameters (d.text ++ after) =
      ⟨d.token :: added, rest, parameters, true⟩)
    (hends : ∀ token ∈ added, endsSubstitution token = false) :
    Pushes normalizeNfc (d.text ++ e) (d.token :: added) rest := by
  cases htext : d.text with
  | nil => exact absurd htext d.ne
  | cons c piece =>
      have hc : isDigit c = true := d.all c (by simp [htext])
      have hne : ∀ x, isDigit x = false → c ≠ x := by
        rintro x hx rfl
        rw [hx] at hc
        cases hc
      rw [htext] at h
      rw [List.cons_append]
      refine Pushes.of_scan (fun parameters => ?_) ?_ (by simp)
      · rw [List.append_assoc, hrest, ← h parameters]
        have hcomment : isComment (c :: (piece ++ after)) = false := by
          unfold isComment
          split
          · next heq => exact absurd (List.cons.inj heq).1 (hne _ (by decide))
          · next heq => exact absurd (List.cons.inj heq).1 (hne _ (by decide))
          · rfl
        simp [scan, hcomment, hne '?' (by decide), hc]
      · intro token htoken
        obtain rfl | htoken := List.mem_cons.mp (List.mem_of_mem_getLast? htoken)
        · rfl
        · exact hends token htoken

/-- An integer, without the parts of a number that may follow it. -/
theorem pushes_digits (d : Digits) {rest : Text} (hrest : ∀ c ∈ rest.head?, isDigit c = false)
    (hexponent : isExponent rest = false)
    (hperiod : rest.head? = some '.' → isExponent rest.tail = false) :
    Pushes normalizeNfc d.text [d.token] rest := by
  have hpart : (isExponent rest.tail && rest.head? == some '.') = false := by
    by_cases hhead : rest.head? = some '.'
    · simp [hperiod hhead]
    · simp [hhead]
  have hadds : Pushes normalizeNfc (d.text ++ []) [d.token] rest :=
    Pushes.of_scanNumber rfl
      (fun parameters => by
        simp [scanNumber, takeWhile_digits hrest, dropWhile_digits hrest, hexponent, hpart,
          Digits.token])
      (by simp)
  rwa [List.append_nil] at hadds

theorem EndsNumber.pushes_digits {rest : Text} (h : EndsNumber rest) (d : Digits) :
    Pushes normalizeNfc d.text [d.token] rest :=
  Lexer.pushes_digits d (fun c hc => (h c hc).1) h.isExponent_eq_false
    fun hperiod => absurd rfl (h '.' hperiod).2.1

theorem endsIs_digits (tokens : List Token) (d : Digits) :
    endsIs (tokens ++ [d.token]) = false := by
  simp [endsIs, Digits.token]

theorem pushes_sign {sign : Option Sign} {rest : Text} (hrest : rest.head? ≠ some '-') :
    Pushes normalizeNfc (signText sign) (signTokens sign) rest := by
  match sign with
  | none => exact Pushes.nil
  | some .plus => exact pushes_operator rfl rfl rfl rfl
  | some .minus =>
      refine pushes_operator rfl rfl ?_ rfl
      cases rest with
      | nil => rfl
      | cons c rest =>
          have hc : c ≠ '-' := fun h => hrest (by rw [h]; rfl)
          unfold isComment
          split
          · next heq => exact absurd (List.cons.inj (List.cons.inj heq).2).1 hc
          · next heq => cases heq
          · rfl

theorem Digits.head?_ne (d : Digits) {c : Char} (hc : isDigit c = false) (rest : Text) :
    (d.text ++ rest).head? ≠ some c := by
  cases htext : d.text with
  | nil => exact absurd htext d.ne
  | cons x piece =>
      rintro ⟨⟩
      have hx := d.all c (by simp [htext])
      rw [hc] at hx
      cases hx

theorem endsIs_signTokens (sign : Option Sign) : endsIs (signTokens sign) = false := by
  rcases sign with _ | _ | _ <;> rfl

/-- The sign and the digits of an exponent. -/
theorem pushes_signedDigits {sign : Option Sign} {d : Digits} {rest : Text} (h : EndsNumber rest) :
    Pushes normalizeNfc (signText sign ++ d.text) (signTokens sign ++ [d.token]) rest :=
  Pushes.append (pushes_sign (d.head?_ne (by decide) rest)) (h.pushes_digits d)

theorem Exponent.text_eq (e : Exponent) :
    ∃ c, (c = 'e' ∨ c = 'E') ∧ e.text = c :: (signText e.sign ++ e.digits.text) := by
  refine ⟨_, ?_, rfl⟩
  cases e.isUpper
  · exact .inl rfl
  · exact .inr rfl

theorem Exponent.isDigit_eq_false {c : Char} (h : c = 'e' ∨ c = 'E') : isDigit c = false := by
  obtain rfl | rfl := h <;> decide

section

variable {d : Digits} {c : Char} {after : Text} (hexponent : isExponent (c :: after) = true)

include hexponent

/-- The E is read together with the digits before it. -/
theorem pushes_digits_e (hc : c = 'e' ∨ c = 'E') :
    Pushes normalizeNfc (d.text ++ [c]) [d.token, ⟨"E", .none⟩] after := by
  have hperiod : c ≠ '.' := by
    obtain rfl | rfl := hc <;> decide
  have hafter : ∀ x ∈ (c :: after).head?, isDigit x = false := by
    rintro x ⟨⟩
    exact Exponent.isDigit_eq_false hc
  refine Pushes.of_scanNumber rfl (fun parameters => ?_) (by simp [endsSubstitution])
  rw [List.singleton_append]
  simp [scanNumber, takeWhile_digits hafter, dropWhile_digits hafter, hexponent, hperiod,
    Digits.token]

/-- So is the period of a number without a fraction. -/
theorem pushes_digits_period_e :
    Pushes normalizeNfc (d.text ++ ['.', c]) [d.token, periodToken, ⟨"E", .none⟩] after := by
  have hafter : ∀ x ∈ ('.' :: c :: after).head?, isDigit x = false := by
    rintro x ⟨⟩
    decide
  refine Pushes.of_scanNumber rfl (fun parameters => ?_) (by simp [endsSubstitution, periodToken])
  simp only [List.cons_append, List.nil_append]
  simp [scanNumber, takeWhile_digits hafter, dropWhile_digits hafter, hexponent, Digits.token,
    periodToken]

end

theorem pushes_digits_exponent (d : Digits) (e : Exponent) {rest : Text} (h : EndsNumber rest) :
    Pushes normalizeNfc (d.text ++ e.text) (d.token :: e.tokens) rest := by
  obtain ⟨c, hc, htext⟩ := e.text_eq
  have hexponent := isExponent_text e rest
  rw [htext] at hexponent ⊢
  have hfirst : Pushes normalizeNfc (d.text ++ [c]) [d.token, ⟨"E", .none⟩] _ :=
    pushes_digits_e hexponent hc
  have hall := hfirst.append (pushes_signedDigits h)
  simpa [Exponent.tokens] using hall

theorem pushes_digits_period_exponent (d : Digits) (e : Exponent) {rest : Text}
    (h : EndsNumber rest) :
    Pushes normalizeNfc (d.text ++ '.' :: e.text) (d.token :: periodToken :: e.tokens) rest := by
  obtain ⟨c, -, htext⟩ := e.text_eq
  have hexponent := isExponent_text e rest
  rw [htext] at hexponent ⊢
  have hfirst : Pushes normalizeNfc (d.text ++ ['.', c]) [d.token, periodToken, ⟨"E", .none⟩] _ :=
    pushes_digits_period_e hexponent
  have hall := hfirst.append (pushes_signedDigits h)
  simpa [Exponent.tokens] using hall

theorem pushes_period {rest : Text} : Pushes normalizeNfc ['.'] [periodToken] rest :=
  pushes_operator rfl rfl rfl rfl

/-- The digits before a period that is not read with them. -/
theorem pushes_digits_before_period (d : Digits) {rest : Text} (h : isExponent rest = false) :
    Pushes normalizeNfc (d.text ++ ['.']) [d.token, periodToken] rest := by
  have hdigits : Pushes normalizeNfc d.text [d.token] (['.'] ++ rest) := by
    refine pushes_digits d ?_ ?_ fun _ => h
    · rintro c ⟨⟩
      decide
    · cases rest <;> rfl
  exact hdigits.append pushes_period

theorem Digits.isExponent_eq_false (d : Digits) (rest : Text) :
    isExponent (d.text ++ rest) = false := by
  cases htext : d.text with
  | nil => exact absurd htext d.ne
  | cons c piece =>
      have hc := d.all c (by simp [htext])
      have hne : c ≠ 'e' ∧ c ≠ 'E' := by
        constructor
        · rintro rfl
          exact absurd hc (by decide)
        · rintro rfl
          exact absurd hc (by decide)
      rw [List.cons_append]
      cases piece ++ rest <;> simp [isExponent, hne]

/-- The last digits of a number, with its exponent. -/
theorem pushes_lastDigits (d : Digits) (e : Option Exponent) {rest : Text} (h : EndsNumber rest) :
    Pushes normalizeNfc (d.text ++ (e.map Exponent.text).getD [])
      (d.token :: (e.map Exponent.tokens).getD []) rest := by
  cases e with
  | none => simpa using h.pushes_digits d
  | some e => exact pushes_digits_exponent d e h

/-- A number without its sign starts with a digit or with a period. -/
theorem ExactNumber.head?_ne (number : ExactNumber) (rest : Text) :
    (number.text ++ rest).head? ≠ some '-' := by
  cases number with
  | integer whole => exact whole.head?_ne (by decide) rest
  | period whole =>
      rw [ExactNumber.text, List.append_assoc]
      exact whole.head?_ne (by decide) _
  | decimal whole others =>
      rw [ExactNumber.text, List.append_assoc]
      exact whole.head?_ne (by decide) _
  | fraction digits => simp [ExactNumber.text]

theorem pushes_number (n : NumericLiteral) {rest : Text} (h : EndsNumber rest) :
    Pushes normalizeNfc n.text n.tokens rest := by
  obtain ⟨sign, number, e⟩ := n
  refine Pushes.append (pushes_sign ?_) ?_
  · rw [List.append_assoc]
    exact number.head?_ne _
  · cases number with
    | integer whole => exact pushes_lastDigits whole e h
    | period whole =>
        cases e with
        | none =>
            have hall : Pushes normalizeNfc (whole.text ++ ['.']) [whole.token, periodToken] rest :=
              pushes_digits_before_period whole h.isExponent_eq_false
            simpa [ExactNumber.text, ExactNumber.tokens] using hall
        | some e =>
            have hall : Pushes normalizeNfc (whole.text ++ '.' :: e.text) _ rest :=
              pushes_digits_period_exponent whole e h
            simpa [ExactNumber.text, ExactNumber.tokens] using hall
    | decimal whole others =>
        have hfirst : Pushes normalizeNfc (whole.text ++ ['.']) [whole.token, periodToken]
            ((others.text ++ (e.map Exponent.text).getD []) ++ rest) := by
          rw [List.append_assoc]
          exact pushes_digits_before_period whole (others.isExponent_eq_false _)
        have hall := hfirst.append (pushes_lastDigits others e h)
        simpa [ExactNumber.text, ExactNumber.tokens] using hall
    | fraction digits =>
        have hfirst : Pushes normalizeNfc ['.'] [periodToken]
            ((digits.text ++ (e.map Exponent.text).getD []) ++ rest) := pushes_period
        have hall := hfirst.append (pushes_lastDigits digits e h)
        simpa [ExactNumber.text, ExactNumber.tokens] using hall

end Vsql.Lexer
