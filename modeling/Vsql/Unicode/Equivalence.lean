import Vsql.Foundation.CanonicalOrder
import Vsql.Unicode.Tables

/-!
# Canonical equivalence

What Unicode says about strings, in terms of the entries of the tables: nothing is looked up
here, decomposed or composed by a loop.  Two strings are equivalent if they have the same
decomposition in canonical order.
-/

namespace Vsql.Unicode

open Foundation

/-! ## Decompositions -/

section

variable (tables : UnicodeTables)

/-- The full canonical decomposition of a code point. -/
inductive Decomposes : Nat → List Nat → Prop where
  | self {r : Nat} (hsyllable : ∀ a b, ¬HangulComposite a b r)
      (hnot : ∀ entry ∈ tables.decompositions, entryHigh entry ≠ r) : Decomposes r [r]
  | syllable {a b c : Nat} {first second : List Nat} (hc : HangulComposite a b c)
      (ha : Decomposes a first) (hb : Decomposes b second) : Decomposes c (first ++ second)
  | single {entry : Nat} {first : List Nat} (hentry : entry ∈ tables.decompositions)
      (hsyllable : ∀ a b, ¬HangulComposite a b (entryHigh entry)) (hzero : entryLow entry = 0)
      (hfirst : Decomposes (entryMiddle entry) first) : Decomposes (entryHigh entry) first
  | pair {entry : Nat} {first second : List Nat} (hentry : entry ∈ tables.decompositions)
      (hsyllable : ∀ a b, ¬HangulComposite a b (entryHigh entry)) (hzero : entryLow entry ≠ 0)
      (hfirst : Decomposes (entryMiddle entry) first)
      (hsecond : Decomposes (entryLow entry) second) :
      Decomposes (entryHigh entry) (first ++ second)

/-- Every code point is decomposed, and marks are exchanged until they are in order. -/
def IsCanonicalDecomposition (s d : List Nat) : Prop :=
  ∃ parts, List.Forall₂ (Decomposes tables) s parts ∧
    IsOrdering tables.classOf parts.flatten d

def CanonicallyEquivalent (a b : List Nat) : Prop :=
  ∃ d, IsCanonicalDecomposition tables a d ∧ IsCanonicalDecomposition tables b d

end

/-! ## Compositions -/

section

variable (cls : Nat → Nat)

/-- A starter is blocked from a code point by one between them. -/
def Blocked (between : List Nat) (r : Nat) : Prop :=
  ∃ b ∈ between, cls b = 0 ∨ cls r ≤ cls b

/-- The code point `a` is the last starter of `out`. -/
structure LastStarter (out pre : List Nat) (a : Nat) (between : List Nat) : Prop where
  out : out = pre ++ a :: between
  starter : cls a = 0
  marks : ∀ b ∈ between, cls b ≠ 0

variable (Composite : Nat → Nat → Nat → Prop)

/-- The code point replaces the last starter by their composite, or is kept. -/
inductive ComposesNext (out : List Nat) (r : Nat) : List Nat → Prop where
  | composed {pre between : List Nat} {a c : Nat} (hlast : LastStarter cls out pre a between)
      (hblocked : ¬Blocked cls between r) (hc : Composite a r c) :
      ComposesNext out r (pre ++ c :: between)
  | kept (h : ∀ pre a between, LastStarter cls out pre a between →
      Blocked cls between r ∨ ∀ c, ¬Composite a r c) :
      ComposesNext out r (out ++ [r])

/-- The composition of what is left, when `out` was composed already. -/
inductive Composition : List Nat → List Nat → List Nat → Prop where
  | done (out : List Nat) : Composition out [] out
  | next {out out' rest result : List Nat} {r : Nat}
      (hnext : ComposesNext cls Composite out r out')
      (hrest : Composition out' rest result) : Composition out (r :: rest) result

end

end Vsql.Unicode
