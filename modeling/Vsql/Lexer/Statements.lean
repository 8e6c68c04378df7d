import Vsql.Lexer.Literals
import Vsql.Lexer.NamePlaces

/-!
# Statements

A statement in which no word depends on the tokens around it is read as the tokens of its
pieces.
-/

namespace Vsql

open Lexer Identifier

variable {normalizeNfc : Text → Text}

def natDigits (n : Nat) : Digits where
  text := (toString n).toList
  ne := by simp
  all := by
    intro c hc
    rw [Nat.toString_eq_repr, Nat.toList_repr] at hc
    have hdigit := Nat.isDigit_of_mem_toDigits (by decide) (by decide) hc
    simpa [Char.isDigit, isDigit, Char.le_def] using hdigit

theorem endsIs_keyword {word : String} (h : isKeyword word) : endsIs [keyword word] = false := by
  simp only [isKeyword, Bool.and_eq_true, Bool.not_eq_true', List.contains_cons,
    Bool.or_eq_false_iff] at h
  simpa [endsIs, keyword] using h.2.2

theorem breaks_blank (rest : Text) : Breaks (' ' :: rest) := by
  rintro c ⟨⟩
  decide

def wordsText (words : List String) : Text := words.flatMap fun word => ' ' :: word.toList

theorem breaks_wordsText {words : List String} {rest : Text} (h : Breaks rest) :
    Breaks (wordsText words ++ rest) := by
  cases words with
  | nil => exact h
  | cons _ _ =>
      rintro c ⟨⟩
      decide

theorem endsIs_keywords {words : List String} (h : ∀ word ∈ words, isKeyword word) :
    endsIs (words.map keyword) = false := by
  induction words with
  | nil => rfl
  | cons word words ih =>
      exact endsIs_append (endsIs_keyword (h word (by simp))) (ih fun w hw => h w (by simp [hw]))

theorem adds_words {words : List String} (h : ∀ word ∈ words, isKeyword word) {rest : Text}
    (hrest : Breaks rest) : Adds normalizeNfc (wordsText words) (words.map keyword) rest := by
  induction words with
  | nil => exact Adds.nil
  | cons word words ih =>
      have hword := h word (by simp)
      have hfirst : Adds normalizeNfc ([' '] ++ word.toList) ([] ++ [keyword word])
          (wordsText words ++ rest) :=
        adds_blank.append rfl (adds_keyword hword (breaks_wordsText hrest))
      simpa [wordsText] using hfirst.append (endsIs_keyword hword)
        (ih fun w hw => h w (by simp [hw]))

/-- None of the tokens is a word that depends on the tokens around it. -/
def Words (tokens : List Token) : Prop := ∀ token ∈ tokens, isPlaceWord token = false

instance (tokens : List Token) : Decidable (Words tokens) :=
  inferInstanceAs (Decidable (∀ token ∈ tokens, _))

theorem words_cons {token : Token} {tokens : List Token} :
    Words (token :: tokens) ↔ isPlaceWord token = false ∧ Words tokens :=
  List.forall_mem_cons

theorem words_append {tokens others : List Token} :
    Words (tokens ++ others) ↔ Words tokens ∧ Words others :=
  List.forall_mem_append

theorem Words.intercalate {separator : List Token} (hseparator : Words separator)
    {items : List (List Token)} (h : ∀ item ∈ items, Words item) :
    Words (separator.intercalate items) := by
  induction items with
  | nil => simp [Words, List.intercalate]
  | cons item items ih =>
      cases items with
      | nil => simpa using h item (by simp)
      | cons next items =>
          rw [List.intercalate_cons_cons, words_append, words_append]
          exact ⟨⟨h item (by simp), hseparator⟩, ih fun i hi => h i (by simp [hi])⟩

theorem words_keywords {words : List String} (h : ∀ word ∈ words, isKeyword word) :
    Words (words.map keyword) := by
  intro token htoken
  obtain ⟨word, hword, rfl⟩ := List.mem_map.mp htoken
  have hkeyword := h word hword
  simp only [isKeyword, Bool.and_eq_true, Bool.not_eq_true', List.contains_cons,
    Bool.or_eq_false_iff, beq_eq_false_iff_ne] at hkeyword
  simp [isPlaceWord, isName, keyword, hkeyword.2.1]

theorem words_number (n : NumericLiteral) : Words n.tokens := by
  have hsign : ∀ sign, Words (signTokens sign) := by
    rintro (_ | _ | _) <;> decide
  have hdigits : ∀ d : Digits, isPlaceWord d.token = false := fun d => by
    simp [Digits.token, isPlaceWord, isName]
  obtain ⟨sign, number, e⟩ := n
  simp only [NumericLiteral.tokens, words_append]
  refine ⟨hsign sign, ?_, ?_⟩
  · have hperiod : isPlaceWord periodToken = false := by decide
    cases number <;> simp [ExactNumber.tokens, Words, hdigits, hperiod]
  · cases e with
    | none => simp [Words]
    | some e =>
        have hE : isPlaceWord ⟨"E", .none⟩ = false := by decide
        simp only [Option.map_some, Option.getD_some, Exponent.tokens, words_cons, words_append]
        exact ⟨hE, hsign _, hdigits _, by simp [Words]⟩

theorem words_string (word : Text) : isPlaceWord (stringToken normalizeNfc word) = false := by
  simp [stringToken, isPlaceWord, isName]

theorem Words.stays {tokens : List Token} (h : Words tokens) (before : List Token) :
    Stays before tokens := by
  have hstays : Stays before (tokens ++ []) := Stays.append_of_words h trivial
  rwa [List.append_nil] at hstays

theorem tokenize_of_adds {text : Text} {tokens : List Token} (h : Adds normalizeNfc text tokens [])
    (hstart : text.head? ≠ some ';') (hend : text.getLast? ≠ some ';') (hstays : Stays [] tokens) :
    tokenize normalizeNfc text = .ok tokens := by
  have hread := h [] rfl 0
  rw [List.append_nil, List.nil_append, read_nil] at hread
  have htrim : trimSemicolons text = text := by
    simpa using trimSemicolons_append hstart hend (show ∀ c ∈ ([] : Text), c = ';' by simp)
  have hfuel : readTokens normalizeNfc text.length [] 0 text = .ok tokens := hread
  rw [tokenize, htrim, hfuel]
  exact congrArg Except.ok (finishTokens_of_stays hstays)

end Vsql
