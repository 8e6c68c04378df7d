import Vsql.Foundation.TokenParser
import Vsql.Patterns.Ends

/-!
# SIMILAR TO

The parser of a pattern, which goes down once for each parenthesis, yields a node whose
language is the one that the grammar says the pattern denotes.
-/

namespace Vsql

open Foundation

/-! ## Tokens -/

structure RegularParser where
  pattern : List PatternToken
  /-- The escape character is in the pattern other than in an `<escaped character>`. -/
  unescapedEscape : Bool

def isEscapedCharacter (escape ch : Char) : Bool :=
  decide (ch ∈ regularSpecialCharacters) || ch == escape

/-- Finds the `<escaped character>`s. -/
def newRegularParser (escape : Option Char) : Text → RegularParser
  | [] => ⟨[], false⟩
  | [c] => ⟨[(c, false)], decide (escape = some c)⟩
  | c :: d :: rest =>
      if escape = some c then
        if isEscapedCharacter c d then
          let p := newRegularParser escape rest
          ⟨(d, true) :: p.pattern, p.unescapedEscape⟩
        else
          let p := newRegularParser escape (d :: rest)
          ⟨(c, false) :: p.pattern, true⟩
      else
        let p := newRegularParser escape (d :: rest)
        ⟨(c, false) :: p.pattern, p.unescapedEscape⟩

/-! ## The parser -/

/-- A parser of tokens that also has whether there was a character class. -/
abbrev PatternParser (α : Type) : Type := Parser Bool PatternToken Failure α

def expectCharacter (ch : Char) : PatternParser Unit := Parser.expect sqlstate2201B (ch, false)

/-- Whether the next character is `ch`, which is then taken. -/
def acceptCharacter (ch : Char) : PatternParser Bool := Parser.accept sqlstate2201B (ch, false)

def nextIs (ch : Char) (next : Option PatternToken) : Bool := next = some (ch, false)

section

variable (escape : Option Char)

def parseCharacterSpecifier : PatternParser Char := do
  let t ← Parser.next sqlstate2201B
  if t.2 = false ∧ (t.1 ∈ regularSpecialCharacters ∨ escape = some t.1) then throw sqlstate2201B
  else pure t.1

def parseEnumeration : PatternParser RegularRange := do
  if ← acceptCharacter '[' then
    expectCharacter ':'
    let name ← Parser.takeWhile (· ≠ (':', false))
    expectCharacter ':'
    expectCharacter ']'
    match RegularClass.ofName (Text.toUpper (name.map Prod.fst)) with
    | none => throw sqlstate2201B
    | some c => do
        Parser.update fun _ => true
        pure (.named c)
  else
    let first ← parseCharacterSpecifier escape
    if ← acceptCharacter '-' then
      let last ← parseCharacterSpecifier escape
      pure (.range first last)
    else pure (.range first first)

def parseEnumerations : PatternParser (List RegularRange) := do
  let ranges ← Parser.many
    (fun next => next.isSome && !nextIs ']' next && !nextIs '^' next) (parseEnumeration escape)
  if ranges = [] then throw sqlstate2201B else pure ranges

def parseSet : PatternParser RegularSet := do
  expectCharacter '['
  let negated ← acceptCharacter '^'
  let included ← parseEnumerations escape
  if negated then
    expectCharacter ']'
    pure ⟨true, included, []⟩
  else if ← acceptCharacter '^' then
    let excluded ← parseEnumerations escape
    expectCharacter ']'
    pure ⟨false, included, excluded⟩
  else
    expectCharacter ']'
    pure ⟨false, included, []⟩

def isUnescapedDigit (t : PatternToken) : Bool := !t.2 && decide ('0' ≤ t.1 ∧ t.1 ≤ '9')

def parseUnsignedInteger : PatternParser Nat := do
  let digits ← Parser.takeWhile isUnescapedDigit
  if digits = [] ∨ digits.length > 9 then throw sqlstate2201B
  else pure (Regular.decimalValue (digits.map Prod.fst))

/-- The number of times that the child of a repeat must match. -/
structure RepeatLimits where
  min : Nat
  max : Option Nat
  min_le : ∀ m ∈ max, min ≤ m

/-- The high value, which there is none of when there is no limit. -/
def parseHighValue (low : Nat) : PatternParser (Option Nat) := do
  if ← acceptCharacter ',' then
    let next ← Parser.peek
    if nextIs '}' next then pure none
    else
      let high ← parseUnsignedInteger
      pure (some high)
  else pure (some low)

def parseRepeatFactor : PatternParser RepeatLimits := do
  expectCharacter '{'
  let low ← parseUnsignedInteger
  let high ← parseHighValue low
  expectCharacter '}'
  if h : 1 ≤ low ∧ ∀ m ∈ high, low ≤ m then pure ⟨low, high, h.2⟩ else throw sqlstate2201B

theorem zero_le_max (max : Option Nat) : ∀ m ∈ max, 0 ≤ m := fun _ _ => Nat.zero_le _

theorem min_le_none (min : Nat) : ∀ m ∈ (none : Option Nat), min ≤ m := by
  simp

/-- What `*`, `+` and `?` stand for. -/
def RepeatLimits.ofCharacter : Char → Option RepeatLimits
  | '*' => some ⟨0, none, zero_le_max none⟩
  | '+' => some ⟨1, none, min_le_none 1⟩
  | '?' => some ⟨0, some 1, zero_le_max (some 1)⟩
  | _ => none

variable (expression : PatternParser RegularNode)

def parsePrimary : PatternParser RegularNode := do
  let next ← Parser.peek
  if nextIs '%' next then
    expectCharacter '%'
    pure .percent
  else if nextIs '_' next then
    expectCharacter '_'
    pure .any
  else if nextIs '(' next then
    expectCharacter '('
    let node ← expression
    expectCharacter ')'
    pure node
  else if nextIs '[' next then
    let set ← parseSet escape
    pure (.set set)
  else
    let ch ← parseCharacterSpecifier escape
    pure (.character ch)

def parseFactor : PatternParser RegularNode := do
  let primary ← parsePrimary escape expression
  match ← Parser.peek with
  | some (ch, false) =>
      if ch = '{' then
        let limits ← parseRepeatFactor
        pure (.repeated primary limits.min limits.max limits.min_le)
      else
        match RepeatLimits.ofCharacter ch with
        | some limits => do
            expectCharacter ch
            pure (.repeated primary limits.min limits.max limits.min_le)
        | none => pure primary
  | _ => pure primary

def parseTerm : PatternParser RegularNode := do
  let factors ← Parser.many
    (fun next => next.isSome && !nextIs '|' next && !nextIs ')' next)
    (parseFactor escape expression)
  match factors with
  | [] => throw sqlstate2201B
  | [factor] => pure factor
  | factors => pure (.sequence factors)

def parseAlternative : PatternParser RegularNode := do
  expectCharacter '|'
  parseTerm escape expression

def parseTerms : PatternParser RegularNode := do
  let term ← parseTerm escape expression
  let terms ← Parser.many (nextIs '|') (parseAlternative escape expression)
  if terms.isEmpty then pure term else pure (.alternation (term :: terms))

end

/-- The parser of expressions with up to `depth` levels of parentheses. -/
def parseExpression (escape : Option Char) : Nat → PatternParser RegularNode
  | 0 => throw sqlstate2201B
  | depth + 1 => parseTerms escape (parseExpression escape depth)

def parsePattern (escape : Option Char) (p : List PatternToken) :
    Except Failure (RegularNode × Bool × List PatternToken) :=
  parseExpression escape (p.length + 1) (false, p)

def regularPatternHasClass (pattern : Text) : Bool :=
  match parsePattern none (newRegularParser none pattern).pattern with
  | .ok (_, hasClass, rest) => rest.isEmpty && hasClass
  | .error _ => false

def parseSimilarPattern (escape : Option Char) (pattern : Text) : Except Failure RegularNode :=
  if pattern = [] then .ok (.sequence [])
  else if escape = some ':' ∧ regularPatternHasClass pattern then .error sqlstate2200B
  else do
    let p := newRegularParser escape pattern
    let (node, _, rest) ← parsePattern escape p.pattern
    if rest ≠ [] then throw sqlstate2201B
    else if p.unescapedEscape ∧ escape.any (· ∈ regularSpecialCharacters) then
      throw sqlstate2200C
    else pure node

/-! ## What the parser yields -/

open Parser Regular

variable {escape : Option Char}

theorem yields_expectCharacter (ch : Char) :
    Yields (expectCharacter ch) fun used _ => used = [(ch, false)] := yields_expect _ _

theorem yields_acceptCharacter (ch : Char) :
    Yields (acceptCharacter ch) fun used b => used = if b then [(ch, false)] else [] :=
  yields_accept _ _

theorem yields_parseCharacterSpecifier :
    Yields (parseCharacterSpecifier escape) fun used ch =>
      ∃ t, used = [t] ∧ IsPlain escape t ∧ ch = t.1 := by
  refine (yields_next _).bind fun used t hused => ?_
  split_ifs with hspecial
  · exact yields_throw _
  · refine yields_pure ⟨t, by rw [hused, List.append_nil], ?_, rfl⟩
    cases htok : t.2 with
    | true => exact .inl htok
    | false => exact .inr (by simpa [htok, not_or] using hspecial)

theorem yields_parseEnumeration :
    Yields (parseEnumeration escape) (Enumeration escape) := by
  refine (yields_acceptCharacter '[').bind ?_
  rintro _ b rfl
  split
  · refine (yields_expectCharacter ':').bind ?_
    rintro _ _ rfl
    refine (yields_takeWhile _).bind ?_
    rintro _ name ⟨rfl, hname⟩
    refine (yields_expectCharacter ':').bind ?_
    rintro _ _ rfl
    refine (yields_expectCharacter ']').bind ?_
    rintro _ _ rfl
    split
    · exact yields_throw _
    · next c hc =>
        refine (yields_update _).bind ?_
        rintro _ _ rfl
        refine yields_pure ?_
        have hnamed : Enumeration escape _ (.named c) := .named (by simpa using hname) hc
        simpa using hnamed
  · refine yields_parseCharacterSpecifier.bind ?_
    rintro _ _ ⟨t, rfl, ht, rfl⟩
    refine (yields_acceptCharacter '-').bind ?_
    rintro _ b' rfl
    split
    · refine yields_parseCharacterSpecifier.bind ?_
      rintro _ _ ⟨u, rfl, hu, rfl⟩
      exact yields_pure (by simpa using Enumeration.range ht hu)
    · exact yields_pure (by simpa using Enumeration.character ht)

theorem enumerations_of_forall₂ {parts : List (List PatternToken)} {ranges : List RegularRange}
    (h : List.Forall₂ (Enumeration escape) parts ranges) (hne : ranges ≠ []) :
    Enumerations escape parts.flatten ranges := by
  induction h with
  | nil => exact absurd rfl hne
  | @cons part range parts ranges hpart hparts ih =>
      rw [List.flatten_cons]
      cases hparts with
      | nil => simpa using Enumerations.one hpart
      | cons => exact .more hpart (ih (by simp))

theorem yields_parseEnumerations :
    Yields (parseEnumerations escape) (Enumerations escape) := by
  refine (yields_many yields_parseEnumeration).bind ?_
  rintro _ ranges ⟨parts, hparts, rfl⟩
  split_ifs with hnil
  · exact yields_throw _
  · exact yields_pure (by simpa using enumerations_of_forall₂ hparts hnil)

theorem yields_parseSet : Yields (parseSet escape) (CharacterSet escape) := by
  refine (yields_expectCharacter '[').bind ?_
  rintro _ _ rfl
  refine (yields_acceptCharacter '^').bind ?_
  rintro _ negated rfl
  refine yields_parseEnumerations.bind fun ts included hincluded => ?_
  split
  · refine (yields_expectCharacter ']').bind ?_
    rintro _ _ rfl
    exact yields_pure (by simpa using CharacterSet.negated hincluded)
  · refine (yields_acceptCharacter '^').bind ?_
    rintro _ b rfl
    split
    · refine yields_parseEnumerations.bind fun us excluded hexcluded => ?_
      refine (yields_expectCharacter ']').bind ?_
      rintro _ _ rfl
      exact yields_pure (by simpa using CharacterSet.difference hincluded hexcluded)
    · refine (yields_expectCharacter ']').bind ?_
      rintro _ _ rfl
      exact yields_pure (by simpa using CharacterSet.included hincluded)

theorem yields_parseUnsignedInteger : Yields parseUnsignedInteger UnsignedInteger := by
  refine (yields_takeWhile _).bind ?_
  rintro _ digits ⟨rfl, hdigits⟩
  split_ifs with hbad
  · exact yields_throw _
  · rw [not_or] at hbad
    refine yields_pure ?_
    rw [List.append_nil]
    exact ⟨fun t ht => by simpa [isUnescapedDigit] using hdigits t ht, hbad.1, rfl⟩

theorem yields_parseHighValue (low : Nat) : Yields (parseHighValue low) fun used high =>
    used = [] ∧ high = some low ∨ used = [(',', false)] ∧ high = none ∨
      ∃ us n, used = (',', false) :: us ∧ UnsignedInteger us n ∧ high = some n := by
  refine (yields_acceptCharacter ',').bind ?_
  rintro _ b rfl
  split
  · refine yields_peek.bind ?_
    rintro _ next rfl
    split
    · exact yields_pure (.inr (.inl ⟨by simp, rfl⟩))
    · refine yields_parseUnsignedInteger.bind fun us n hn => ?_
      exact yields_pure (.inr (.inr ⟨us, n, by simp, hn, rfl⟩))
  · exact yields_pure (.inl ⟨by simp, rfl⟩)

theorem yields_parseRepeatFactor :
    Yields parseRepeatFactor fun used limits => Repeats used limits.min limits.max := by
  refine (yields_expectCharacter '{').bind ?_
  rintro _ _ rfl
  refine yields_parseUnsignedInteger.bind fun ts low hlow => ?_
  refine (yields_parseHighValue low).bind fun used high hused => ?_
  refine (yields_expectCharacter '}').bind ?_
  rintro _ _ rfl
  split
  · next h =>
      refine yields_pure ?_
      obtain ⟨rfl, rfl⟩ | ⟨rfl, rfl⟩ | ⟨us, n, rfl, hn, rfl⟩ := hused
      · simpa using Repeats.exactly hlow h.1
      · simpa using Repeats.atLeast hlow h.1
      · simpa using Repeats.between hlow hn h.1 (h.2 n rfl)
  · exact yields_throw _

theorem repeats_ofCharacter {ch : Char} {limits : RepeatLimits}
    (h : RepeatLimits.ofCharacter ch = some limits) :
    Repeats [(ch, false)] limits.min limits.max := by
  unfold RepeatLimits.ofCharacter at h
  split at h <;> cases h
  · exact .star
  · exact .plus
  · exact .optional

section

variable {expression : PatternParser RegularNode}

theorem language_character (ch : Char) : (RegularNode.character ch).language = {[ch]} := by
  ext w
  simp only [RegularNode.language, RegularNode.characters, beq_iff_eq]
  constructor
  · rintro ⟨c, rfl, rfl⟩
    rfl
  · rintro rfl
    exact ⟨ch, rfl, rfl⟩

theorem language_any : RegularNode.any.language = {w | ∃ ch, w = [ch]} := by
  ext w
  simp [RegularNode.language, RegularNode.characters]

theorem yields_parsePrimary
    (h : Yields expression fun used n => Expression escape used n.language) :
    Yields (parsePrimary escape expression) fun used n => Primary escape used n.language := by
  refine yields_peek.bind ?_
  rintro _ next rfl
  split_ifs
  · refine (yields_expectCharacter '%').bind ?_
    rintro _ _ rfl
    exact yields_pure .percent
  · refine (yields_expectCharacter '_').bind ?_
    rintro _ _ rfl
    refine yields_pure ?_
    rw [language_any]
    exact .any
  · refine (yields_expectCharacter '(').bind ?_
    rintro _ _ rfl
    refine h.bind fun ts node hnode => ?_
    refine (yields_expectCharacter ')').bind ?_
    rintro _ _ rfl
    exact yields_pure (by simpa using Primary.group hnode)
  · refine yields_parseSet.bind fun ts set hset => ?_
    have hprimary : Primary escape ts (RegularNode.set set).language := .set hset
    exact yields_pure (by simpa using hprimary)
  · refine yields_parseCharacterSpecifier.bind ?_
    rintro _ _ ⟨t, rfl, ht, rfl⟩
    refine yields_pure ?_
    rw [language_character]
    exact .character ht

theorem yields_parseFactor
    (h : Yields expression fun used n => Expression escape used n.language) :
    Yields (parseFactor escape expression) fun used n => Factor escape used n.language := by
  refine (yields_parsePrimary h).bind fun ts primary hprimary => ?_
  have hplain : Yields (pure primary : PatternParser RegularNode) fun used n =>
      Factor escape (ts ++ ([] ++ used)) n.language :=
    yields_pure (by simpa using Factor.primary hprimary)
  refine yields_peek.bind ?_
  rintro _ next rfl
  split
  · next ch =>
      split_ifs
      · refine yields_parseRepeatFactor.bind fun us limits hlimits => ?_
        exact yields_pure (by simpa [RegularNode.language] using Factor.repeated hprimary hlimits)
      · split
        · next limits hlimits =>
            refine (yields_expectCharacter ch).bind ?_
            rintro _ _ rfl
            exact yields_pure (by
              simpa [RegularNode.language] using
                Factor.repeated hprimary (repeats_ofCharacter hlimits))
        · exact hplain
  · exact hplain

theorem term_of_forall₂ {ts : List PatternToken} {L : Language Char} (hterm : Term escape ts L)
    {parts : List (List PatternToken)} {nodes : List RegularNode}
    (h : List.Forall₂ (fun part (n : RegularNode) => Factor escape part n.language) parts nodes) :
    Term escape (ts ++ parts.flatten) (L * RegularNode.languageOfSequence nodes) := by
  induction h generalizing ts L with
  | nil => simpa [RegularNode.languageOfSequence] using hterm
  | cons hpart _ ih =>
      rw [List.flatten_cons, ← List.append_assoc, RegularNode.languageOfSequence, ← mul_assoc]
      exact ih (.concatenation hterm hpart)

theorem yields_parseTerm
    (h : Yields expression fun used n => Expression escape used n.language) :
    Yields (parseTerm escape expression) fun used n => Term escape used n.language := by
  refine (yields_many (yields_parseFactor h)).bind ?_
  rintro _ factors ⟨parts, hparts, rfl⟩
  cases hparts with
  | nil => exact yields_throw _
  | @cons part factor parts factors hfactor hparts =>
      have hterm := term_of_forall₂ (.factor hfactor) hparts
      cases factors with
      | nil => exact yields_pure (by simpa [RegularNode.languageOfSequence] using hterm)
      | cons => exact yields_pure (by simpa [RegularNode.language,
          RegularNode.languageOfSequence] using hterm)

theorem expression_of_forall₂ {ts : List PatternToken} {L : Language Char}
    (hexpression : Expression escape ts L)
    {parts : List (List PatternToken)} {nodes : List RegularNode}
    (h : List.Forall₂ (fun part (n : RegularNode) =>
      ∃ us, part = ('|', false) :: us ∧ Term escape us n.language) parts nodes) :
    Expression escape (ts ++ parts.flatten) (L + RegularNode.languageOfAlternation nodes) := by
  induction h generalizing ts L with
  | nil => simpa [RegularNode.languageOfAlternation] using hexpression
  | cons hpart _ ih =>
      obtain ⟨us, rfl, hterm⟩ := hpart
      rw [List.flatten_cons, ← List.append_assoc, RegularNode.languageOfAlternation, ← add_assoc]
      exact ih (.alternative hexpression hterm)

theorem yields_parseAlternative
    (h : Yields expression fun used n => Expression escape used n.language) :
    Yields (parseAlternative escape expression) fun used n =>
      ∃ us, used = ('|', false) :: us ∧ Term escape us n.language := by
  refine (yields_expectCharacter '|').bind ?_
  rintro _ _ rfl
  exact (yields_parseTerm h).mono fun us n hn => ⟨us, rfl, hn⟩

theorem yields_parseTerms
    (h : Yields expression fun used n => Expression escape used n.language) :
    Yields (parseTerms escape expression) fun used n => Expression escape used n.language := by
  refine (yields_parseTerm h).bind fun ts term hterm => ?_
  refine (yields_many (yields_parseAlternative h)).bind ?_
  rintro _ terms ⟨parts, hparts, rfl⟩
  have hexpression := expression_of_forall₂ (.term hterm) hparts
  cases hparts with
  | nil => exact yields_pure (by simpa [RegularNode.languageOfAlternation] using hexpression)
  | cons => exact yields_pure (by simpa [RegularNode.language,
      RegularNode.languageOfAlternation] using hexpression)

end

theorem yields_parseExpression (depth : Nat) :
    Yields (parseExpression escape depth) fun used n => Expression escape used n.language := by
  induction depth with
  | zero => exact yields_throw _
  | succ depth ih => exact yields_parseTerms ih

/-! ## Levels of parentheses -/

theorem bind_congr_first {α β : Type} {f f' : PatternParser α} {g : α → PatternParser β}
    {s : Bool × List PatternToken} (h : f s = f' s) : (f >>= g) s = (f' >>= g) s := by
  change (f s >>= fun p => g p.1 p.2) = (f' s >>= fun p => g p.1 p.2)
  rw [h]

theorem bind_congr_rest {α β : Type} {f : PatternParser α} {g g' : α → PatternParser β}
    {s : Bool × List PatternToken} (h : ∀ a s', f s = .ok (a, s') → g a s' = g' a s') :
    (f >>= g) s = (f >>= g') s := by
  change (f s >>= fun p => g p.1 p.2) = (f s >>= fun p => g' p.1 p.2)
  cases hf : f s with
  | error e => rfl
  | ok p => exact h p.1 p.2 hf

section

variable {e e' : PatternParser RegularNode} {s : Bool × List PatternToken}

theorem parsePrimary_congr (h : ∀ s', s'.2.length < s.2.length → e s' = e' s') :
    parsePrimary escape e s = parsePrimary escape e' s := by
  refine bind_congr_rest fun next s' hs' => ?_
  obtain ⟨_, hs, rfl⟩ := yields_peek s next s' hs'
  split_ifs
  · rfl
  · rfl
  · refine bind_congr_rest fun _ s₁ hs₁ => bind_congr_first (h s₁ ?_)
    obtain ⟨_, hs', rfl⟩ := yields_expectCharacter '(' s' _ s₁ hs₁
    simp [hs, hs']
  · rfl
  · rfl

theorem parseFactor_congr (h : ∀ s', s'.2.length < s.2.length → e s' = e' s') :
    parseFactor escape e s = parseFactor escape e' s :=
  bind_congr_first (parsePrimary_congr h)

theorem not_primary_nil {L : Language Char} : ¬Primary escape [] L := by
  intro h
  cases h with
  | set h => cases h

theorem not_factor_nil {L : Language Char} : ¬Factor escape [] L := by
  generalize hts : ([] : List PatternToken) = ts
  rintro (h | ⟨h, -⟩)
  · subst hts
    exact not_primary_nil h
  · rw [(List.append_eq_nil_iff.mp hts.symm).1] at h
    exact not_primary_nil h

theorem parseTerm_congr (he : Yields e fun used n => Expression escape used n.language)
    (h : ∀ s', s'.2.length < s.2.length → e s' = e' s') :
    parseTerm escape e s = parseTerm escape e' s := by
  refine bind_congr_first (many_congr rfl ?_ ?_)
  · exact (yields_parseFactor he).advances fun _ => not_factor_nil
  · intro s' hs'
    exact parseFactor_congr fun s₁ hs₁ => h s₁ (hs₁.trans_le hs')

theorem parseAlternative_congr (he : Yields e fun used n => Expression escape used n.language)
    (h : ∀ s', s'.2.length < s.2.length → e s' = e' s') :
    parseAlternative escape e s = parseAlternative escape e' s := by
  refine bind_congr_rest fun _ s₁ hs₁ => parseTerm_congr he fun s' hs' => h s' (hs'.trans ?_)
  obtain ⟨_, hs, rfl⟩ := yields_expectCharacter '|' s _ s₁ hs₁
  simp [hs]

theorem parseTerms_congr (he : Yields e fun used n => Expression escape used n.language)
    (h : ∀ s', s'.2.length < s.2.length → e s' = e' s') :
    parseTerms escape e s = parseTerms escape e' s := by
  change (parseTerm escape e >>= _) s = (parseTerm escape e' >>= _) s
  rw [bind_congr_first (parseTerm_congr he h)]
  refine bind_congr_rest fun term s₁ hs₁ => bind_congr_first (many_congr rfl ?_ ?_)
  · refine (yields_parseAlternative he).advances ?_
    rintro n ⟨us, hus, -⟩
    cases hus
  · rw [← parseTerm_congr he h] at hs₁
    obtain ⟨used, hused, -⟩ := yields_parseTerm he s term s₁ hs₁
    have hle : s₁.2.length ≤ s.2.length := by
      rw [hused, List.length_append]
      omega
    intro s' hs'
    exact parseAlternative_congr he fun s₂ hs₂ => h s₂ (by omega)

end

theorem parseExpression_congr {depth depth' : Nat} {s : Bool × List PatternToken}
    (hdepth : s.2.length < depth) (hdepth' : s.2.length < depth') :
    parseExpression escape depth s = parseExpression escape depth' s := by
  induction depth generalizing depth' s with
  | zero => omega
  | succ depth ih =>
      cases depth' with
      | zero => omega
      | succ depth' =>
          exact parseTerms_congr (yields_parseExpression depth) fun s' hs' =>
            ih (by omega) (by omega)

/-- With more levels of parentheses than the parser goes down the result is the same. -/
def EnoughLevels (escape : Option Char) (pattern : Text) : Prop :=
  let p := (newRegularParser escape pattern).pattern
  ∀ depth, p.length < depth → parseExpression escape depth (false, p) = parsePattern escape p

theorem enoughLevels (escape : Option Char) (pattern : Text) : EnoughLevels escape pattern :=
  fun _ hdepth => parseExpression_congr hdepth (Nat.lt_succ_self _)

/-! ## Patterns -/

/-- The regular language that the text of a pattern denotes. -/
def Denotes (escape : Option Char) (pattern : Text) (L : Language Char) : Prop :=
  pattern = [] ∧ L = 1 ∨ Expression escape (newRegularParser escape pattern).pattern L

theorem denotes_of_parseSimilarPattern {pattern : Text} {node : RegularNode}
    (h : parseSimilarPattern escape pattern = .ok node) : Denotes escape pattern node.language := by
  unfold parseSimilarPattern at h
  split_ifs at h with hnil hclass
  · cases h
    exact .inl ⟨hnil, rfl⟩
  · obtain ⟨⟨n, hasClass, rest⟩, hparse, h⟩ := ok_of_bind h
    simp only at h
    split_ifs at h with hrest hescape
    · cases h
      obtain ⟨used, hused, hexpression⟩ := yields_parseExpression _ _ _ _ hparse
      rw [not_not.mp hrest, List.append_nil] at hused
      rw [hused.symm] at hexpression
      exact .inr hexpression

/-- The string is equal to a string of the language but for trailing spaces. -/
def EqualsSome (L : Language Char) (s : Text) : Prop :=
  ∃ w ∈ L, w.rdropWhile (· = ' ') = s.rdropWhile (· = ' ')

/-- The evaluation of a pattern ends on every string, with whether the string is in the
language that the pattern denotes. -/
theorem matchesString_of_parseSimilarPattern {pattern : Text} {node : RegularNode}
    (h : parseSimilarPattern escape pattern = .ok node) :
    (∀ escape, EnoughLevels escape pattern) ∧
      ∃ L, Denotes escape pattern L ∧ ∀ s, ∃ rounds, ∀ fuel, rounds < fuel → ∃ result,
        node.matchesString fuel s = some result ∧ (result = true ↔ EqualsSome L s) :=
  ⟨fun _ => enoughLevels _ pattern, _, denotes_of_parseSimilarPattern h,
    fun s => ⟨_, fun _ => node.exists_matchesString s⟩⟩

theorem matchesString_of_parseSimilarPattern_plus :
    ∃ L, Denotes none ['(', 'a', '|', '_', ')', '+'] L ∧
      ∀ s, ∃ rounds, ∀ fuel, rounds < fuel → ∃ result,
        (RegularNode.repeated (.alternation [.character 'a', .any]) 1 none
          (min_le_none 1)).matchesString fuel s = some result ∧ (result = true ↔ EqualsSome L s) :=
  (matchesString_of_parseSimilarPattern rfl).2

end Vsql
