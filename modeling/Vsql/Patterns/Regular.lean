import Vsql.Foundation.PaddedReading
import Vsql.Lexer.Tokens

/-!
# Regular expressions

The parts of the pattern of a SIMILAR TO, and the languages that they stand for.  The
grammar says which language the text of a pattern denotes: each token is a character, and
whether it was escaped.
-/

namespace Vsql

open Foundation

/-! ## Characters -/

/-- The names of a `<regular character set identifier>`. -/
inductive RegularClass where
  | alpha
  | upper
  | lower
  | digit
  | alnum
  | space
  | whitespace
  deriving DecidableEq, Repr

namespace RegularClass

def ofName (name : Text) : Option RegularClass :=
  if name = "ALPHA".toList then some .alpha
  else if name = "UPPER".toList then some .upper
  else if name = "LOWER".toList then some .lower
  else if name = "DIGIT".toList then some .digit
  else if name = "ALNUM".toList then some .alnum
  else if name = "SPACE".toList then some .space
  else if name = "WHITESPACE".toList then some .whitespace
  else none

def isWhiteSpace (ch : Char) : Bool :=
  let c := ch.toNat
  decide (0x09 ≤ c ∧ c ≤ 0x0D) || c == 0x20 || c == 0x85 || c == 0xA0 || c == 0x1680 ||
    c == 0x180E || decide (0x2000 ≤ c ∧ c ≤ 0x200A) || c == 0x2028 || c == 0x2029 ||
    c == 0x202F || c == 0x205F || c == 0x3000

def contains (ch : Char) : RegularClass → Bool
  | .alpha => decide ('a' ≤ ch ∧ ch ≤ 'z') || decide ('A' ≤ ch ∧ ch ≤ 'Z')
  | .upper => decide ('A' ≤ ch ∧ ch ≤ 'Z')
  | .lower => decide ('a' ≤ ch ∧ ch ≤ 'z')
  | .digit => decide ('0' ≤ ch ∧ ch ≤ '9')
  | .alnum => decide ('a' ≤ ch ∧ ch ≤ 'z') || decide ('A' ≤ ch ∧ ch ≤ 'Z') ||
      decide ('0' ≤ ch ∧ ch ≤ '9')
  | .space => ch == ' '
  | .whitespace => isWhiteSpace ch

end RegularClass

/-- A `<character enumeration>`: the characters of a range, or of a class. -/
inductive RegularRange where
  | range (first last : Char)
  | named (c : RegularClass)
  deriving DecidableEq, Repr

def RegularRange.contains (ch : Char) : RegularRange → Bool
  | .range first last => decide (first ≤ ch ∧ ch ≤ last)
  | .named c => c.contains ch

def rangesContain (ranges : List RegularRange) (ch : Char) : Bool :=
  ranges.any (·.contains ch)

/-- A `<regular character set>`. -/
structure RegularSet where
  negated : Bool
  included : List RegularRange
  excluded : List RegularRange
  deriving DecidableEq, Repr

def RegularSet.contains (set : RegularSet) (ch : Char) : Bool :=
  if set.negated then !rangesContain set.included ch
  else rangesContain set.included ch && !rangesContain set.excluded ch

/-! ## Regular expressions -/

inductive RegularNode where
  | character (ch : Char)
  | any
  | percent
  | set (set : RegularSet)
  | sequence (children : List RegularNode)
  | alternation (children : List RegularNode)
  /-- Without a `max` there is no limit. -/
  | repeated (child : RegularNode) (min : Nat) (max : Option Nat) (h : ∀ m ∈ max, min ≤ m)

namespace RegularNode

def matchesCharacter (ch : Char) : RegularNode → Bool
  | .character c => ch == c
  | .any => true
  | .set s => s.contains ch
  | _ => false

/-- The words of one character. -/
def characters (p : Char → Bool) : Language Char := {w | ∃ ch, p ch = true ∧ w = [ch]}

/-- Between `min` and `max` words of the language, one after the other. -/
def powers (L : Language Char) (min : Nat) (max : Option Nat) : Language Char :=
  {w | ∃ k, (min ≤ k ∧ ∀ m ∈ max, k ≤ m) ∧ w ∈ L ^ k}

mutual

def language : RegularNode → Language Char
  | .character c => characters (· == c)
  | .any => characters fun _ => true
  | .percent => ⊤
  | .set s => characters s.contains
  | .sequence children => languageOfSequence children
  | .alternation children => languageOfAlternation children
  | .repeated child min max _ => powers (language child) min max

def languageOfSequence : List RegularNode → Language Char
  | [] => 1
  | child :: children => language child * languageOfSequence children

def languageOfAlternation : List RegularNode → Language Char
  | [] => 0
  | child :: children => language child + languageOfAlternation children

end

end RegularNode

/-! ## The grammar of patterns -/

/-- A character of a pattern, and whether it is an `<escaped character>`. -/
abbrev PatternToken : Type := Char × Bool

def regularSpecialCharacters : List Char :=
  ['[', ']', '(', ')', '|', '^', '-', '+', '*', '_', '%', '?', '{']

namespace Regular

/-- The character is not special, and not the escape character. -/
def IsPlain (escape : Option Char) (t : PatternToken) : Prop :=
  t.2 = true ∨ t.1 ∉ regularSpecialCharacters ∧ escape ≠ some t.1

inductive Enumeration (escape : Option Char) : List PatternToken → RegularRange → Prop
  | character {t : PatternToken} (h : IsPlain escape t) :
      Enumeration escape [t] (.range t.1 t.1)
  | range {t u : PatternToken} (ht : IsPlain escape t) (hu : IsPlain escape u) :
      Enumeration escape [t, ('-', false), u] (.range t.1 u.1)
  | named {name : List PatternToken} {c : RegularClass} (hname : ∀ t ∈ name, t ≠ (':', false))
      (hc : RegularClass.ofName (Text.toUpper (name.map Prod.fst)) = some c) :
      Enumeration escape
        (('[', false) :: (':', false) :: (name ++ [(':', false), (']', false)])) (.named c)

inductive Enumerations (escape : Option Char) : List PatternToken → List RegularRange → Prop
  | one {ts : List PatternToken} {r : RegularRange} (h : Enumeration escape ts r) :
      Enumerations escape ts [r]
  | more {ts us : List PatternToken} {r : RegularRange} {rs : List RegularRange}
      (h : Enumeration escape ts r) (hs : Enumerations escape us rs) :
      Enumerations escape (ts ++ us) (r :: rs)

inductive CharacterSet (escape : Option Char) : List PatternToken → RegularSet → Prop
  | included {ts : List PatternToken} {rs : List RegularRange}
      (h : Enumerations escape ts rs) :
      CharacterSet escape (('[', false) :: (ts ++ [(']', false)])) ⟨false, rs, []⟩
  | negated {ts : List PatternToken} {rs : List RegularRange}
      (h : Enumerations escape ts rs) :
      CharacterSet escape (('[', false) :: ('^', false) :: (ts ++ [(']', false)]))
        ⟨true, rs, []⟩
  | difference {ts us : List PatternToken} {rs qs : List RegularRange}
      (h : Enumerations escape ts rs) (hq : Enumerations escape us qs) :
      CharacterSet escape
        (('[', false) :: (ts ++ ('^', false) :: (us ++ [(']', false)]))) ⟨false, rs, qs⟩

/-- The value of decimal digits. -/
def decimalValue (digits : Text) : Nat :=
  digits.foldl (fun n d => 10 * n + (d.toNat - '0'.toNat)) 0

def UnsignedInteger (ts : List PatternToken) (n : Nat) : Prop :=
  (∀ t ∈ ts, t.2 = false ∧ '0' ≤ t.1 ∧ t.1 ≤ '9') ∧ ts ≠ [] ∧ n = decimalValue (ts.map Prod.fst)

/-- A `<repeat factor>`, or the limits that `*`, `+` and `?` stand for. -/
inductive Repeats : List PatternToken → Nat → Option Nat → Prop
  | star : Repeats [('*', false)] 0 none
  | plus : Repeats [('+', false)] 1 none
  | optional : Repeats [('?', false)] 0 (some 1)
  | exactly {ts : List PatternToken} {n : Nat} (h : UnsignedInteger ts n) (hn : 1 ≤ n) :
      Repeats (('{', false) :: (ts ++ [('}', false)])) n (some n)
  | atLeast {ts : List PatternToken} {n : Nat} (h : UnsignedInteger ts n) (hn : 1 ≤ n) :
      Repeats (('{', false) :: (ts ++ [(',', false), ('}', false)])) n none
  | between {ts us : List PatternToken} {m n : Nat} (h : UnsignedInteger ts m)
      (hn : UnsignedInteger us n) (hm : 1 ≤ m) (hmn : m ≤ n) :
      Repeats (('{', false) :: (ts ++ (',', false) :: (us ++ [('}', false)]))) m (some n)

mutual

/-- The language that a `<regular expression>` denotes. -/
inductive Expression (escape : Option Char) : List PatternToken → Language Char → Prop
  | term {ts : List PatternToken} {L : Language Char} (h : Term escape ts L) :
      Expression escape ts L
  | alternative {ts us : List PatternToken} {L M : Language Char} (h : Expression escape ts L)
      (hu : Term escape us M) : Expression escape (ts ++ ('|', false) :: us) (L + M)

inductive Term (escape : Option Char) : List PatternToken → Language Char → Prop
  | factor {ts : List PatternToken} {L : Language Char} (h : Factor escape ts L) :
      Term escape ts L
  | concatenation {ts us : List PatternToken} {L M : Language Char} (h : Term escape ts L)
      (hu : Factor escape us M) : Term escape (ts ++ us) (L * M)

inductive Factor (escape : Option Char) : List PatternToken → Language Char → Prop
  | primary {ts : List PatternToken} {L : Language Char} (h : Primary escape ts L) :
      Factor escape ts L
  | repeated {ts us : List PatternToken} {L : Language Char} {min : Nat} {max : Option Nat}
      (h : Primary escape ts L) (hu : Repeats us min max) :
      Factor escape (ts ++ us) (RegularNode.powers L min max)

inductive Primary (escape : Option Char) : List PatternToken → Language Char → Prop
  | character {t : PatternToken} (h : IsPlain escape t) : Primary escape [t] {[t.1]}
  | any : Primary escape [('_', false)] {w | ∃ ch, w = [ch]}
  | percent : Primary escape [('%', false)] ⊤
  | set {ts : List PatternToken} {s : RegularSet} (h : CharacterSet escape ts s) :
      Primary escape ts {w | ∃ ch, s.contains ch = true ∧ w = [ch]}
  | group {ts : List PatternToken} {L : Language Char} (h : Expression escape ts L) :
      Primary escape (('(', false) :: (ts ++ [(')', false)])) L

end

end Regular

end Vsql
