import Vsql.Foundation.Cuts
import Vsql.Lexer.Literals
import Vsql.Lexer.Names

/-!
# The text of a definition

A definition that is printed has strings, names, numbers, operators and white space.  The parts
of a name have periods between them, with no spaces.
-/

namespace Vsql.Dump

open Foundation Lexer Identifier

/-! ## Pieces -/

inductive NamePart where
  | regular (word : Text)
  | delimited (value : Text)

namespace NamePart

def text : NamePart → Text
  | .regular word => word
  | .delimited value => delimitIdentifier value

/-- A regular identifier is printed in upper case. -/
def value : NamePart → Text
  | .regular word => word
  | .delimited value => value

end NamePart

inductive Piece where
  | literal (value : Text)
  | name (qualifier : List NamePart) (last : NamePart)
  | number (value : ExactNumber) (exponent : Option Exponent)
  | space (c : Char)
  | operator (c : Char)
  | operators (c d : Char)

/-- The parts of a name before the last one. -/
def qualifierText (qualifier : List NamePart) : Text :=
  qualifier.flatMap fun part => part.text ++ ['.']

def Piece.text : Piece → Text
  | .literal value => '\'' :: (doubled '\'' value ++ ['\''])
  | .name qualifier last => qualifierText qualifier ++ last.text
  | .number value exponent => NumericLiteral.text ⟨none, value, exponent⟩
  | .space c => [c]
  | .operator c => [c]
  | .operators c d => [c, d]

def textOf (pieces : List Piece) : Text := pieces.flatMap Piece.text

theorem textOf_cons (piece : Piece) (pieces : List Piece) :
    textOf (piece :: pieces) = piece.text ++ textOf pieces := List.flatMap_cons

theorem qualifierText_cons (part : NamePart) (qualifier : List NamePart) :
    qualifierText (part :: qualifier) = part.text ++ '.' :: qualifierText qualifier := by
  simp [qualifierText]

/-! ## Definitions that are printed -/

/-- Where a name can start. -/
def isStart (prev : Option Char) : Bool :=
  match prev with
  | none => true
  | some c => !(isIdentifierChar c true || c == '.' || c == '"')

def NamePart.Printed : NamePart → Prop
  | .regular [] => False
  | .regular (c :: rest) => isIdentifierChar c false ∧ ∀ d ∈ rest, isIdentifierChar d true
  | .delimited value => value ≠ []

instance : (part : NamePart) → Decidable part.Printed
  | .regular [] => instDecidableFalse
  | .regular (_ :: rest) => @instDecidableAnd _ _ _ (List.decidableBAll _ rest)
  | .delimited _ => inferInstanceAs (Decidable (_ ≠ _))

/-- A reserved word is only printed as a part of a longer name with quotes. -/
def NamePart.Unreserved : NamePart → Prop
  | .regular word => Plain word
  | .delimited _ => True

instance : (part : NamePart) → Decidable part.Unreserved
  | .regular word => inferInstanceAs (Decidable (Plain word))
  | .delimited _ => instDecidableTrue

/-- What can be after a name or a number. -/
def EndsWord (next : Option Char) : Prop :=
  ∀ c ∈ next, isIdentifierChar c true = false ∧ c ≠ '.' ∧ c ≠ '"' ∧ c ≠ '&'

instance : (next : Option Char) → Decidable (EndsWord next)
  | none => isTrue fun _ h => nomatch h
  | some c => decidable_of_iff
      (isIdentifierChar c true = false ∧ c ≠ '.' ∧ c ≠ '"' ∧ c ≠ '&') (by simp [EndsWord])

def endsInPeriod : ExactNumber → Bool
  | .period _ => true
  | _ => false

/-- A piece stands apart from what is before it and after it. -/
def Piece.Printed (prev next : Option Char) : Piece → Prop
  | .literal value => value.any isNoncharacter = false ∧ next ≠ some '\''
  | .name qualifier last => isStart prev ∧ (∀ part ∈ qualifier ++ [last], part.Printed) ∧
      (qualifier ≠ [] → ∀ part ∈ qualifier ++ [last], part.Unreserved) ∧ EndsWord next
  | .number value _ => endsInPeriod value = false ∧ EndsWord next
  | .space c => isWhiteSpace c
  | .operator c => (singleOperator c).isSome ∧ c ≠ '.' ∧ (c = ';' → next = none) ∧
      isComment (c :: next.toList) = false ∧ multiOperator (c :: next.toList) = none
  | .operators c d => (multiOperator [c, d]).isSome

instance (prev next : Option Char) : (piece : Piece) → Decidable (piece.Printed prev next)
  | .literal _ => inferInstanceAs (Decidable (_ ∧ _))
  | .name _ _ => inferInstanceAs (Decidable (_ ∧ _ ∧ (_ → _) ∧ _))
  | .number _ _ => inferInstanceAs (Decidable (_ ∧ _))
  | .space _ => inferInstanceAs (Decidable (_ = true))
  | .operator _ => inferInstanceAs (Decidable (_ ∧ _ ∧ (_ → _) ∧ _ ∧ _))
  | .operators _ _ => inferInstanceAs (Decidable (_ = true))

def Piece.isLiteral : Piece → Bool
  | .literal _ => true
  | _ => false

/-- A string comes next. -/
def startsString : List Piece → Bool
  | .literal _ :: _ => true
  | .space _ :: pieces => startsString pieces
  | _ => false

def Printed : (prev : Option Char) → List Piece → Prop
  | _, [] => True
  | prev, piece :: pieces =>
      piece.Printed prev (textOf pieces).head? ∧
        (piece.isLiteral → startsString pieces = false) ∧
        Printed (lastOf prev piece.text) pieces

instance decidablePrinted : (prev : Option Char) → (pieces : List Piece) →
    Decidable (Printed prev pieces)
  | _, [] => instDecidableTrue
  | prev, piece :: pieces =>
      have := decidablePrinted (lastOf prev piece.text) pieces
      inferInstanceAs (Decidable (_ ∧ (_ → _) ∧ _))

/-! ## The ends of a piece -/

theorem isIdentifierChar_of_first {c : Char} (h : isIdentifierChar c false) :
    isIdentifierChar c true := by
  unfold isIdentifierChar at h ⊢
  simp only [Bool.false_eq_true, if_false] at h
  simp only [if_true, h, Bool.true_or]

/-- How a name starts. -/
def StartsName (next : Option Char) : Prop :=
  ∃ c, next = some c ∧ (c = '"' ∨ isIdentifierChar c false)

theorem NamePart.Printed.starts {part : NamePart} (h : part.Printed) (rest : Text) :
    StartsName (part.text ++ rest).head? := by
  match part with
  | .regular [] => exact h.elim
  | .regular (c :: tail) => exact ⟨c, rfl, .inr h.1⟩
  | .delimited value => exact ⟨'"', rfl, .inl rfl⟩

theorem startsName_name {qualifier : List NamePart} {last : NamePart}
    (h : ∀ part ∈ qualifier ++ [last], part.Printed) (rest : Text) :
    StartsName (Piece.text (.name qualifier last) ++ rest).head? := by
  cases qualifier with
  | nil =>
      change StartsName (last.text ++ rest).head?
      exact (h last (by simp)).starts rest
  | cons part qualifier =>
      rw [Piece.text, qualifierText_cons, List.append_assoc, List.append_assoc]
      exact (h part (by simp)).starts _

/-- A name does not start with a character that is like none of these. -/
theorem StartsName.ne {next : Option Char} (h : StartsName next) {c : Char} (hquote : c ≠ '"')
    (hc : isIdentifierChar c false = false) : next ≠ some c := by
  obtain ⟨d, rfl, hd⟩ := h
  rintro ⟨⟩
  obtain hd | hd := hd
  · exact hquote hd
  · rw [hd] at hc
    cases hc

theorem EndsWord.not_startsName {next : Option Char} (h : EndsWord next) : ¬StartsName next := by
  rintro ⟨c, rfl, hc⟩
  obtain ⟨hchar, -, hquote, -⟩ := h c rfl
  obtain rfl | hc := hc
  · exact hquote rfl
  · rw [isIdentifierChar_of_first hc] at hchar
    cases hchar

theorem isComment_congr {c : Char} {rest rest' : Text} (h : rest.head? = rest'.head?) :
    isComment (c :: rest) = isComment (c :: rest') := by
  rcases rest with _ | ⟨d, rest⟩ <;> rcases rest' with _ | ⟨d', rest'⟩
  · rfl
  · cases h
  · cases h
  · obtain rfl : d = d' := Option.some.inj h
    unfold isComment
    split <;> split <;> simp_all

theorem multiOperator_congr {c : Char} {rest rest' : Text} (h : rest.head? = rest'.head?) :
    multiOperator (c :: rest) = multiOperator (c :: rest') := by
  rcases rest with _ | ⟨d, rest⟩ <;> rcases rest' with _ | ⟨d', rest'⟩
  · rfl
  · cases h
  · cases h
  · obtain rfl : d = d' := Option.some.inj h
    unfold multiOperator
    split <;> split <;> simp_all

theorem head?_toList (next : Option Char) : next.toList.head? = next := by
  cases next <;> rfl

/-- An operator stands apart from a name. -/
theorem StartsName.apart {next : Option Char} (h : StartsName next) (c : Char) :
    isComment (c :: next.toList) = false ∧ multiOperator (c :: next.toList) = none := by
  have hne : ∀ d, d ≠ '"' → isIdentifierChar d false = false → next ≠ some d :=
    fun d hquote hd => h.ne hquote hd
  obtain ⟨d, rfl, -⟩ := h
  have hd : d ≠ '-' ∧ d ≠ '*' ∧ d ≠ '>' ∧ d ≠ '=' ∧ d ≠ '|' := by
    refine ⟨?_, ?_, ?_, ?_, ?_⟩ <;>
      · rintro rfl
        exact hne _ (by decide) (by decide) rfl
  simp [isComment, multiOperator, hd]

/-- What comes next is the same as before, or it was a name and it is one. -/
theorem Piece.Printed.next {piece : Piece} {prev next next' : Option Char}
    (h : piece.Printed prev next) (hnext : next' = next ∨ StartsName next ∧ StartsName next') :
    piece.Printed prev next' := by
  obtain rfl | ⟨hstarts, hstarts'⟩ := hnext
  · exact h
  · cases piece with
    | literal value => exact ⟨h.1, hstarts'.ne (by decide) (by decide)⟩
    | name qualifier last => exact absurd hstarts h.2.2.2.not_startsName
    | number value exponent => exact absurd hstarts h.2.not_startsName
    | space c => exact h
    | operator c =>
        obtain ⟨hop, hperiod, hlast, -⟩ := h
        refine ⟨hop, hperiod, ?_, hstarts'.apart c⟩
        intro hc
        rw [hlast hc] at hstarts
        obtain ⟨d, hd, -⟩ := hstarts
        cases hd
    | operators c d => exact h

/-! ## The last semicolon -/

def Piece.isSemicolon : Piece → Bool
  | .operator c => c == ';'
  | _ => false

/-- The definition without the semicolon at its end. -/
def bare (pieces : List Piece) : List Piece := pieces.filter fun piece => !piece.isSemicolon

/-- A semicolon is not at an end of the text. -/
def Open (text : Text) : Prop := text.head? ≠ some ';' ∧ text.getLast? ≠ some ';'

theorem open_of_not_mem {text : Text} (h : ';' ∉ text) : Open text :=
  ⟨fun hhead => h (List.mem_of_head? hhead), fun hlast => h (List.mem_of_getLast? hlast)⟩

theorem Open.append {a b : Text} (ha : Open a) (hb : Open b) : Open (a ++ b) := by
  unfold Open
  rw [List.head?_append, List.getLast?_append]
  constructor
  · cases hhead : a.head? with
    | none => exact hb.1
    | some c => exact fun h => ha.1 (hhead.trans h)
  · cases hlast : b.getLast? with
    | none => exact ha.2
    | some c => exact fun h => hb.2 (hlast.trans h)

theorem open_quoted {c : Char} (hc : c ≠ ';') (text : Text) : Open (c :: (text ++ [c])) := by
  unfold Open
  rw [← List.cons_append, List.getLast?_concat]
  simp [hc]

theorem semicolon_not_mem_number (value : ExactNumber) (exponent : Option Exponent) :
    ';' ∉ NumericLiteral.text ⟨none, value, exponent⟩ := by
  have hdigits : ∀ d : Digits, ';' ∉ d.text := fun d hmem => absurd (d.all _ hmem) (by decide)
  have hvalue : ';' ∉ value.text := by
    cases value <;> simp [ExactNumber.text, hdigits]
  have hexponent : ';' ∉ (exponent.map Exponent.text).getD [] := by
    cases exponent with
    | none => simp
    | some e =>
        obtain ⟨isUpper, sign, digits⟩ := e
        cases isUpper <;> rcases sign with _ | _ | _ <;>
          simp [Exponent.text, signText, Sign.char, hdigits]
  simp [NumericLiteral.text, signText, hvalue, hexponent]

theorem NamePart.Printed.isOpen {part : NamePart} (h : part.Printed) : Open part.text := by
  match part with
  | .regular [] => exact h.elim
  | .regular (c :: rest) =>
      apply open_of_not_mem
      intro hmem
      obtain rfl | hmem := List.mem_cons.1 hmem
      · exact absurd h.1 (by decide)
      · exact absurd (h.2 _ hmem) (by decide)
  | .delimited value => exact open_quoted (by decide) _

theorem open_qualifierText {qualifier : List NamePart} (h : ∀ part ∈ qualifier, part.Printed) :
    Open (qualifierText qualifier) := by
  induction qualifier with
  | nil => exact ⟨by simp [qualifierText], by simp [qualifierText]⟩
  | cons part qualifier ih =>
      rw [List.forall_mem_cons] at h
      have hperiod : Open ['.'] := open_of_not_mem (by decide)
      rw [qualifierText_cons, ← List.singleton_append]
      exact h.1.isOpen.append (hperiod.append (ih h.2))

theorem Piece.Printed.isOpen {piece : Piece} {prev next : Option Char} (h : piece.Printed prev next)
    (hsemicolon : piece.isSemicolon = false) : Open piece.text := by
  cases piece with
  | literal value => exact open_quoted (by decide) _
  | name qualifier last =>
      exact (open_qualifierText fun part hpart => h.2.1 part (by simp [hpart])).append
        (h.2.1 last (by simp)).isOpen
  | number value exponent => exact open_of_not_mem (semicolon_not_mem_number value exponent)
  | space c =>
      have hne : c ≠ ';' := ne_of_isWhiteSpace h (by decide)
      exact open_of_not_mem (by simpa [text] using hne.symm)
  | operator c =>
      have hne : c ≠ ';' := by simpa [isSemicolon] using hsemicolon
      exact open_of_not_mem (by simpa [text] using hne.symm)
  | operators c d =>
      apply open_of_not_mem
      have hmem : (c, d) ∈ _ := mem_of_multiOperator h
      intro hsemicolon
      simp [text] at hmem hsemicolon
      grind

theorem ne_nil_of_printed {piece : Piece} {prev next : Option Char} (h : piece.Printed prev next) :
    piece.text ≠ [] := by
  cases piece with
  | name qualifier last =>
      intro hnil
      obtain ⟨c, hc, -⟩ := startsName_name h.2.1 []
      rw [hnil] at hc
      cases hc
  | number value exponent =>
      have hne : value.text ≠ [] := by
        cases value with
        | integer whole => exact whole.ne
        | period whole => simp [ExactNumber.text]
        | decimal whole others => simp [ExactNumber.text]
        | fraction digits => simp [ExactNumber.text]
      simp [Piece.text, NumericLiteral.text, signText, hne]
  | literal value => simp [Piece.text]
  | space c => simp [Piece.text]
  | operator c => simp [Piece.text]
  | operators c d => simp [Piece.text]

theorem Piece.Printed.toEnd {piece : Piece} {prev next : Option Char}
    (h : piece.Printed prev next) : piece.Printed prev none := by
  cases piece with
  | literal value => exact ⟨h.1, by simp⟩
  | name qualifier last => exact ⟨h.1, h.2.1, h.2.2.1, by simp [EndsWord]⟩
  | number value exponent => exact ⟨h.1, by simp [EndsWord]⟩
  | space c => exact h
  | operator c =>
      refine ⟨h.1, h.2.1, fun _ => rfl, ?_, ?_⟩
      · unfold isComment
        split <;> simp_all
      · unfold multiOperator
        split <;> simp_all
  | operators c d => exact h

theorem nil_of_semicolon {piece : Piece} {prev : Option Char} {pieces : List Piece}
    (h : Printed prev (piece :: pieces)) (hsemicolon : piece.isSemicolon) : pieces = [] := by
  cases piece with
  | operator c =>
      have hc : c = ';' := by simpa [Piece.isSemicolon] using hsemicolon
      have hlast : (textOf pieces).head? = none := h.1.2.2.1 hc
      cases pieces with
      | nil => rfl
      | cons piece pieces =>
          rw [textOf_cons, List.head?_eq_none_iff, List.append_eq_nil_iff] at hlast
          exact absurd hlast.1 (ne_nil_of_printed h.2.2.1)
  | literal value => cases hsemicolon
  | name qualifier last => cases hsemicolon
  | number value exponent => cases hsemicolon
  | space c => cases hsemicolon
  | operators c d => cases hsemicolon

theorem bare_cons (piece : Piece) (pieces : List Piece) :
    bare (piece :: pieces) = if piece.isSemicolon then bare pieces else piece :: bare pieces := by
  cases h : piece.isSemicolon <;> simp [bare, h]

theorem startsString_bare {prev : Option Char} {pieces : List Piece} (h : Printed prev pieces)
    (hstarts : startsString pieces = false) : startsString (bare pieces) = false := by
  induction pieces generalizing prev with
  | nil => rfl
  | cons piece pieces ih =>
      rw [bare_cons]
      split
      · next hsemicolon =>
          rw [nil_of_semicolon h hsemicolon]
          rfl
      · cases piece with
        | literal value => cases hstarts
        | space c => exact ih h.2.2 hstarts
        | name qualifier last => rfl
        | number value exponent => rfl
        | operator c => rfl
        | operators c d => rfl

theorem textOf_bare {prev : Option Char} {pieces : List Piece} (h : Printed prev pieces) :
    ∃ last, (∀ c ∈ last, c = ';') ∧ textOf pieces = textOf (bare pieces) ++ last := by
  induction pieces generalizing prev with
  | nil => exact ⟨[], by simp, rfl⟩
  | cons piece pieces ih =>
      rw [bare_cons]
      split
      · next hsemicolon =>
          rw [nil_of_semicolon h hsemicolon]
          cases piece with
          | operator c => exact ⟨[c], by simpa [Piece.isSemicolon] using hsemicolon, rfl⟩
          | literal value => cases hsemicolon
          | name qualifier last => cases hsemicolon
          | number value exponent => cases hsemicolon
          | space c => cases hsemicolon
          | operators c d => cases hsemicolon
      · obtain ⟨last, hlast, htext⟩ := ih h.2.2
        refine ⟨last, hlast, ?_⟩
        rw [textOf_cons, textOf_cons, htext, List.append_assoc]

theorem printed_bare {prev : Option Char} {pieces : List Piece} (h : Printed prev pieces) :
    Printed prev (bare pieces) := by
  induction pieces generalizing prev with
  | nil => exact h
  | cons piece pieces ih =>
      rw [bare_cons]
      split
      · next hsemicolon =>
          rw [nil_of_semicolon h hsemicolon]
          trivial
      · obtain ⟨hpiece, hliteral, hpieces⟩ := h
        refine ⟨?_, fun hstring => startsString_bare hpieces (hliteral hstring), ih hpieces⟩
        obtain ⟨last, -, htext⟩ := textOf_bare hpieces
        rw [htext] at hpiece
        cases hbare : textOf (bare pieces) with
        | nil => exact hpiece.toEnd
        | cons c text =>
            rw [hbare] at hpiece
            exact hpiece

theorem open_bare {prev : Option Char} {pieces : List Piece} (h : Printed prev pieces) :
    Open (textOf (bare pieces)) := by
  induction pieces generalizing prev with
  | nil => exact ⟨by simp [bare, textOf], by simp [bare, textOf]⟩
  | cons piece pieces ih =>
      rw [bare_cons]
      split
      · exact ih h.2.2
      · next hsemicolon =>
          rw [textOf_cons]
          exact (h.1.isOpen (Bool.eq_false_iff.2 hsemicolon)).append (ih h.2.2)

/-- The lexer reads the definition without its last semicolon. -/
theorem trimSemicolons_textOf {prev : Option Char} {pieces : List Piece}
    (h : Printed prev pieces) : trimSemicolons (textOf pieces) = textOf (bare pieces) := by
  obtain ⟨last, hlast, htext⟩ := textOf_bare h
  rw [htext]
  exact trimSemicolons_append (open_bare h).1 (open_bare h).2 hlast

end Vsql.Dump
