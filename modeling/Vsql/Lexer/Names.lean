import Vsql.Lexer.Reading

/-!
# Names

A name is one to four parts.  A part is written as it is when it would be read as the
same name without quotes, and otherwise as a delimited identifier.  Reading the text of
a name gives its parts again.
-/

namespace Vsql

open Lexer

variable {normalizeNfc : Text → Text}

structure Identifier where
  catalogName : Text := []
  schemaName : Text := []
  entityName : Text := []
  subEntityName : Text := []
  /-- The text of a name that is only used inside of the engine. -/
  customId : Text := []
  deriving DecidableEq

namespace Identifier

theorem customId_nil : ([] : Text) = [] := rfl

def delimitIdentifier (s : Text) : Text := '"' :: (doubled '"' s ++ ['"'])

/-- A name that is read without quotes. -/
def isRegularIdentifier (s : Text) : Bool :=
  let upper := s.toUpper.str
  (s.take 1).all (isIdentifierChar · false) && (s.drop 1).all (isIdentifierChar · true) &&
    match tokenNumber upper with
    | some tokNumber => isContextual upper || isNonReserved tokNumber
    | none => true

def requoteIdentifier (s : Text) : Text :=
  -- The names of subqueries (such as $1) are not read again.
  if s.head? = some '$' ∨ (s.toUpper = s ∧ isRegularIdentifier s) then s
  else delimitIdentifier s

def parts (e : Identifier) : List Text :=
  [e.catalogName, e.schemaName, e.entityName, e.subEntityName].filter (· ≠ [])

def str (e : Identifier) : Text :=
  if e.customId ≠ [] then e.customId
  else ['.'].intercalate (e.parts.map requoteIdentifier)

/-- The parts of a name in the file, where the catalog is the file itself. -/
def storageParts (e : Identifier) : List Text :=
  [e.schemaName, e.entityName, e.subEntityName].filter (· ≠ [])

/-- The name as it is written in the definition of an object. -/
def storageSql (e : Identifier) : Text :=
  ['.'].intercalate (e.storageParts.map delimitIdentifier)

def maxIdentifierLength : Nat := 128

def splitPartsFrom (s : Text) : (fuel : Nat) → Text → Except Failure (List Text)
  | _, [] => .ok []
  | 0, _ => .ok []
  | fuel + 1, c :: cs =>
      if c = '"' then
        match quoted '"' cs with
        | none => .error (sqlstate42602 s!"invalid identifier chain: {s.str}")
        | some (part, rest) => (part :: ·) <$> splitPartsFrom s fuel rest
      else
        let part := (c :: cs).takeWhile (· ≠ '.')
        match (c :: cs).dropWhile (· ≠ '.') with
        | [] => .ok [Text.toUpper part]
        | _ :: rest =>
            (if part = [] then id else (Text.toUpper part :: ·)) <$> splitPartsFrom s fuel rest

def splitIdentifierParts (s : Text) : Except Failure (List Text) :=
  if s = [] then .error (sqlstate42602 "cannot use empty string for identifier")
  else do
    let parts ← splitPartsFrom s s.length s
    match parts.find? (maxIdentifierLength < ·.length) with
    | some part =>
        .error (sqlstate42601
          s!"identifier is longer than {maxIdentifierLength} characters: {part.str}")
    | none => .ok parts

/-! ## What the parser makes of the tokens of a name -/

/-- `regular_identifier` of the grammar. -/
def identifierText (token : Token) : Option Text :=
  match token.v with
  | .chain identifier => if token.token = "LITERAL_IDENTIFIER" then some identifier else none
  | .text word =>
      match tokenNumber token.token with
      | some tokNumber => if isNonReserved tokNumber then some word else none
      | none => none
  | _ => none

/-- `identifier_chain` of the grammar. -/
def identifierChain : List Token → Option Text
  | [token] => identifierText token
  | token :: period :: rest =>
      if period.token = "OPERATOR_PERIOD" then do
        let first ← identifierText token
        let others ← identifierChain rest
        some (first ++ '.' :: others)
      else none
  | [] => none

/-! ## One part -/

/-- A part that is written without quotes. -/
def Plain (s : Text) : Prop := s.toUpper = s ∧ isRegularIdentifier s = true

instance (s : Text) : Decidable (Plain s) := inferInstanceAs (Decidable (_ ∧ _))

def partToken (s : Text) : Token :=
  if Plain s then wordToken s else ⟨"LITERAL_IDENTIFIER", .chain (delimitIdentifier s)⟩

theorem requoteIdentifier_of_plain {s : Text} (h : Plain s) : requoteIdentifier s = s :=
  if_pos (.inr h)

theorem requoteIdentifier_of_not_plain {s : Text} (h : ¬Plain s) (hs : s.head? ≠ some '$') :
    requoteIdentifier s = delimitIdentifier s :=
  if_neg (not_or.mpr ⟨hs, h⟩)

theorem Plain.chars {c : Char} {word : Text} (h : Plain (c :: word)) :
    isIdentifierChar c false = true ∧ ∀ d ∈ word, isIdentifierChar d true = true := by
  have hregular := h.2
  simp only [isRegularIdentifier, Bool.and_eq_true] at hregular
  simpa using hregular.1

/-- A word without quotes is a key word that is not reserved, or no key word. -/
theorem Plain.wordToken_eq {s : Text} (h : Plain s) :
    (∃ tokNumber, tokenNumber s.str = some tokNumber ∧ isNonReserved tokNumber = true ∧
      wordToken s = ⟨s.str, .text s⟩) ∨ wordToken s = ⟨"LITERAL_IDENTIFIER", .chain s⟩ := by
  obtain ⟨hupper, hregular⟩ := h
  simp only [isRegularIdentifier, hupper, Bool.and_eq_true] at hregular
  unfold wordToken
  rw [hupper]
  dsimp only
  split
  · next hword =>
      simp only [Bool.and_eq_true, Bool.not_eq_true', Option.isSome_iff_exists] at hword
      obtain ⟨⟨⟨tokNumber, hnumber⟩, hcontextual⟩, -⟩ := hword
      rw [hnumber] at hregular
      exact .inl ⟨tokNumber, hnumber, by simpa [hcontextual] using hregular.2, rfl⟩
  · exact .inr rfl

theorem identifierText_partToken (s : Text) (hs : s.head? ≠ some '$') :
    identifierText (partToken s) = some (requoteIdentifier s) := by
  unfold partToken
  split
  · next h =>
      rw [requoteIdentifier_of_plain h]
      obtain ⟨tokNumber, hnumber, hnonReserved, htoken⟩ | htoken := h.wordToken_eq
      · simp [htoken, identifierText, hnumber, hnonReserved]
      · simp [htoken, identifierText]
  · next h =>
      rw [requoteIdentifier_of_not_plain h hs]
      rfl

/-- What a name is not followed by, so that it ends there. -/
def Ends (rest : Text) : Prop := Breaks rest ∧ rest.head? ≠ some '"'

/-- The token of a part is no operator, no literal and no reserved word. -/
theorem ne_of_identifierText {token : Token} {text : Text} (h : identifierText token = some text)
    {word : String} (hword : ((tokenNumber word).map isNonReserved).getD false = false)
    (hliteral : word ≠ "LITERAL_IDENTIFIER") : token.token ≠ word := by
  rintro rfl
  unfold identifierText at h
  split at h
  · rw [if_neg hliteral] at h
    cases h
  · split at h
    · next tokNumber hnumber =>
        rw [hnumber, Option.map_some, Option.getD_some] at hword
        rw [hword] at h
        cases h
    · cases h
  · cases h

theorem endsSubstitution_of_identifierText {token : Token} {text : Text}
    (h : identifierText token = some text) : endsSubstitution token = false := by
  simp only [endsSubstitution, List.contains_cons, List.contains_nil, Bool.or_false,
    Bool.or_eq_false_iff, beq_eq_false_iff_ne]
  exact ⟨ne_of_identifierText h (by decide +kernel) (by decide),
    ne_of_identifierText h (by decide +kernel) (by decide),
    ne_of_identifierText h (by decide +kernel) (by decide),
    ne_of_identifierText h (by decide +kernel) (by decide)⟩

theorem reads_delimitIdentifier {s rest : Text} {tokens : List Token} (hs : s ≠ [])
    (hrest : Ends rest) :
    Reads normalizeNfc (delimitIdentifier s) tokens
      (tokens ++ [⟨"LITERAL_IDENTIFIER", .chain (delimitIdentifier s)⟩]) rest :=
  Reads.of_scan (scan_delimited hs hrest.2) (substituteTail_eq rfl)

theorem reads_requoteIdentifier {s rest : Text} {tokens : List Token} (hs : s ≠ [])
    (hdollar : s.head? ≠ some '$') (hrest : Ends rest) :
    Reads normalizeNfc (requoteIdentifier s) tokens (tokens ++ [partToken s]) rest := by
  have hsettled : substituteTail (tokens ++ [partToken s]) = tokens ++ [partToken s] :=
    substituteTail_eq (endsSubstitution_of_identifierText (identifierText_partToken s hdollar))
  by_cases h : Plain s
  · cases s with
    | nil => exact absurd rfl hs
    | cons c word =>
        rw [requoteIdentifier_of_plain h]
        obtain ⟨hc, hword⟩ := h.chars
        have htoken : partToken (c :: word) = wordToken (c :: word) := if_pos h
        rw [htoken] at hsettled ⊢
        exact Reads.of_scan (scan_word hc hword hrest.1) hsettled
  · rw [requoteIdentifier_of_not_plain h hdollar]
    have htoken : partToken s = ⟨"LITERAL_IDENTIFIER", .chain (delimitIdentifier s)⟩ := if_neg h
    rw [htoken]
    exact reads_delimitIdentifier hs hrest

/-! ## The parts of a name -/

def period : Token := ⟨"OPERATOR_PERIOD", .text ['.']⟩

theorem reads_period {rest : Text} {tokens : List Token} :
    Reads normalizeNfc ['.'] tokens (tokens ++ [period]) rest :=
  Reads.of_scan (scan_operator rfl rfl rfl) (substituteTail_eq rfl)

theorem ends_period (rest : Text) : Ends ('.' :: rest) := by
  refine ⟨?_, by simp⟩
  rintro c ⟨⟩
  decide

section

variable {write : Text → Text} {token : Text → Token}

/-- The parts are read one by one. -/
theorem reads_intercalate {names : List Text} (hnames : names ≠ [])
    (hreads : ∀ name ∈ names, ∀ tokens rest, Ends rest →
      Reads normalizeNfc (write name) tokens (tokens ++ [token name]) rest)
    {tokens : List Token} {rest : Text} (hrest : Ends rest) :
    Reads normalizeNfc (['.'].intercalate (names.map write)) tokens
      (tokens ++ (names.map token).intersperse period) rest := by
  induction names generalizing tokens with
  | nil => exact absurd rfl hnames
  | cons name names ih =>
      cases names with
      | nil => simpa using hreads name (by simp) tokens rest hrest
      | cons next names =>
          have hfirst := hreads name (by simp) tokens
            (['.'] ++ (['.'].intercalate ((next :: names).map write) ++ rest)) (ends_period _)
          have hothers : Reads normalizeNfc (['.'].intercalate ((next :: names).map write))
              (tokens ++ [token name] ++ [period]) _ rest :=
            ih (by simp) fun n hn => hreads n (by simp [hn])
          have htext : ['.'].intercalate ((name :: next :: names).map write) =
              write name ++ (['.'] ++ ['.'].intercalate ((next :: names).map write)) := by
            simp [List.intercalate]
          have htokens : tokens ++ ((name :: next :: names).map token).intersperse period =
              tokens ++ [token name] ++ [period] ++
                ((next :: names).map token).intersperse period := by
            simp
          rw [htext, htokens]
          refine Reads.append ?_ (Reads.append reads_period hothers)
          simpa using hfirst

theorem identifierChain_intersperse {names : List Text} (hnames : names ≠ [])
    (htext : ∀ name ∈ names, identifierText (token name) = some (write name)) :
    identifierChain ((names.map token).intersperse period) =
      some (['.'].intercalate (names.map write)) := by
  induction names with
  | nil => exact absurd rfl hnames
  | cons name names ih =>
      cases names with
      | nil => simpa [identifierChain] using htext name (by simp)
      | cons next names =>
          have hothers := ih (by simp) fun n hn => htext n (by simp [hn])
          have hperiod : period.token = "OPERATOR_PERIOD" := rfl
          simp only [List.map_cons, List.intersperse_cons_cons] at hothers ⊢
          rw [identifierChain, if_pos hperiod, htext name (by simp), hothers]
          simp [List.intercalate]

end

end Identifier
end Vsql
