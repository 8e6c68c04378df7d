import Mathlib.Data.List.TakeWhile
import Vsql.Foundation.Loop
import Vsql.Foundation.WildcardMatch
import Vsql.Lexer.Tokens

/-!
# LIKE

A pattern is split into its characters, of which the ones that are not escaped can be
wildcards.  The value is matched from its start, and when a part of the pattern does not
match, the last `%` takes one more character.  A character of the value is a code point, or
the code points that ILIKE folds one into.
-/

namespace Vsql

open Foundation

/-! ## Patterns -/

structure LikeChar where
  ch : Char
  wildcard : Bool
  deriving DecidableEq, Repr

def isWildcard (ch : Char) : Bool := ch == '%' || ch == '_'

def likePattern (escape : Option Char) : Text → Except Failure (List LikeChar)
  | [] => .ok []
  | [c] => if escape = some c then .error sqlstate22025 else .ok [⟨c, isWildcard c⟩]
  | c :: d :: rest =>
      if escape = some c then
        if d ≠ '%' ∧ d ≠ '_' ∧ d ≠ c then .error sqlstate22025
        else do
          let chars ← likePattern escape rest
          pure (⟨d, false⟩ :: chars)
      else do
        let chars ← likePattern escape (d :: rest)
        pure (⟨c, isWildcard c⟩ :: chars)

/-- The characters of a pattern for ILIKE. -/
def ilikePattern (caseFold : Char → List Char) (pattern : List LikeChar) : List LikeChar :=
  pattern.flatMap fun c =>
    if c.wildcard then [c] else (caseFold c.ch).map fun folded => ⟨folded, false⟩

/-! ## Values -/

structure LikeValueChar where
  ch : Char
  continues : Bool
  deriving DecidableEq, Repr

def likeValue (s : Text) : List LikeValueChar := s.map fun ch => ⟨ch, false⟩

/-- A folded character: each code point after the first one continues it. -/
def foldedChar : List Char → List LikeValueChar
  | [] => []
  | c :: folded => ⟨c, false⟩ :: folded.map fun ch => ⟨ch, true⟩

def ilikeValue (caseFold : Char → List Char) (s : Text) : List LikeValueChar :=
  s.flatMap fun c => foldedChar (caseFold c)

/-! ## Matching -/

def nextLikeChar (chars : List LikeValueChar) (i : Nat) : Nat :=
  i + 1 + ((chars.drop (i + 1)).takeWhile (·.continues)).length

/-- The variables of `like_matches`. -/
structure LikeState where
  i : Nat
  j : Nat
  /-- Nothing is -1. -/
  percent : Option Nat
  percentI : Nat
  deriving DecidableEq, Repr

/-- The last `%` takes one more character, and the match is tried again from there. -/
def LikeState.backtrack (chars : List LikeValueChar) (s : LikeState) : Except Unit LikeState :=
  match s.percent with
  | some percent =>
      let percentI := nextLikeChar chars s.percentI
      .ok { s with percentI, i := percentI, j := percent + 1 }
  | none => .error ()

/-- One round of the loop, which fails when the result is false. -/
def likeStep (chars : List LikeValueChar) (pat : List LikeChar) : Loop.Step LikeState Unit :=
  fun _ s =>
    match chars[s.i]? with
    | none => none
    | some c =>
        match pat[s.j]? with
        | none => some (s.backtrack chars)
        | some p =>
            if p.wildcard && !c.continues then
              if p.ch = '%' then
                some (.ok { s with percent := some s.j, percentI := s.i, j := s.j + 1 })
              else some (.ok { s with i := nextLikeChar chars s.i, j := s.j + 1 })
            else if !p.wildcard && p.ch == c.ch then
              some (.ok { s with i := s.i + 1, j := s.j + 1 })
            else some (s.backtrack chars)

def LikeChar.isPercent (c : LikeChar) : Bool := c.wildcard && c.ch == '%'

/-- Only `%` can match the empty rest of the string. -/
def restMatchesEmpty (pat : List LikeChar) (j : Nat) : Bool :=
  ((pat.drop j).dropWhile LikeChar.isPercent).isEmpty

/-- The result, unless the loop has not ended after `fuel` rounds. -/
def likeMatches (fuel : Nat) (chars : List LikeValueChar) (pat : List LikeChar) : Option Bool :=
  (Loop.loop (likeStep chars pat) fuel 0 ⟨0, 0, none, 0⟩).map fun
    | .ok s => restMatchesEmpty pat s.j
    | .error () => false

/-! ## Characters of the value -/

variable {chars : List LikeValueChar} {pat : List LikeChar} {i j : Nat}

/-- The first code point of the rest, if there is one, starts a character. -/
def StartsCharacter (rest : List LikeValueChar) : Prop := ∀ c ∈ rest.head?, c.continues = false

def CharacterAt (chars : List LikeValueChar) (i : Nat) : Prop :=
  i ≤ chars.length ∧ StartsCharacter (chars.drop i)

theorem lt_nextLikeChar : i < nextLikeChar chars i := by
  unfold nextLikeChar
  omega

/-- The code points that continue a character are up to the next one. -/
theorem drop_eq_tail_append (chars : List LikeValueChar) (i : Nat) :
    ∃ tail, chars.drop (i + 1) = tail ++ chars.drop (nextLikeChar chars i) ∧
      nextLikeChar chars i = i + 1 + tail.length ∧ (∀ c ∈ tail, c.continues) ∧
      StartsCharacter (chars.drop (nextLikeChar chars i)) := by
  have hsplit : chars.drop (i + 1) = (chars.drop (i + 1)).takeWhile (·.continues) ++
      (chars.drop (i + 1)).dropWhile (·.continues) := List.takeWhile_append_dropWhile.symm
  have hdrop : chars.drop (nextLikeChar chars i) =
      (chars.drop (i + 1)).dropWhile (·.continues) := by
    have hleft := congrArg (List.drop ((chars.drop (i + 1)).takeWhile (·.continues)).length) hsplit
    rw [List.drop_left, List.drop_drop] at hleft
    exact hleft
  refine ⟨_, by rw [hdrop]; exact hsplit, rfl, fun c hc => List.mem_takeWhile_imp hc, ?_⟩
  rw [hdrop]
  intro c hc
  have hhead := List.head?_dropWhile_not (·.continues) (chars.drop (i + 1))
  rw [Option.mem_def.mp hc] at hhead
  exact hhead

theorem characterAt_nextLikeChar (hi : i < chars.length) :
    CharacterAt chars (nextLikeChar chars i) := by
  obtain ⟨tail, hdrop, hnext, -, hstarts⟩ := drop_eq_tail_append chars i
  have hlength := congrArg List.length hdrop
  rw [List.length_append, List.length_drop, List.length_drop] at hlength
  exact ⟨by omega, hstarts⟩

theorem nextLikeChar_le (hij : i < j) (hj : CharacterAt chars j) : nextLikeChar chars i ≤ j := by
  by_contra! hlt
  obtain ⟨tail, hdrop, hnext, hcontinues, -⟩ := drop_eq_tail_append chars i
  have hlt' : j - (i + 1) < tail.length := by omega
  have hget : chars[j]? = some tail[j - (i + 1)] := by
    have hj' := congrArg (·[j - (i + 1)]?) hdrop
    simp only [List.getElem?_drop, List.getElem?_append_left hlt'] at hj'
    rw [show i + 1 + (j - (i + 1)) = j by omega] at hj'
    rw [hj', List.getElem?_eq_getElem hlt']
  have hstarts := hj.2 _ (by rw [List.head?_drop]; exact hget)
  rw [hcontinues _ (List.getElem_mem hlt')] at hstarts
  cases hstarts

/-! ## Reading a pattern along the value -/

/-- Where an element of the pattern that is not `%` leads to. -/
def LikeChar.step (chars : List LikeValueChar) (p : LikeChar) (i : Nat) : Option Nat :=
  match chars[i]? with
  | none => none
  | some c =>
      if p.wildcard then if c.continues then none else some (nextLikeChar chars i)
      else if p.ch = c.ch then some (i + 1)
      else none

theorem characterAt_iff {c : LikeValueChar} (hc : chars[i]? = some c) :
    CharacterAt chars i ↔ c.continues = false := by
  have hlt := (List.getElem?_eq_some_iff.mp hc).1
  simp [CharacterAt, StartsCharacter, List.head?_drop, hc, hlt.le]

theorem LikeChar.step_cases {p : LikeChar} (h : p.step chars i = some j) :
    i < chars.length ∧ (p.wildcard ∧ CharacterAt chars i ∧ j = nextLikeChar chars i ∨
      p.wildcard = false ∧ chars[i]?.map (·.ch) = some p.ch ∧ j = i + 1) := by
  unfold LikeChar.step at h
  split at h
  · cases h
  · next c hc =>
      refine ⟨(List.getElem?_eq_some_iff.mp hc).1, ?_⟩
      split_ifs at h with hwild hcontinues hch <;> cases h
      · exact .inl ⟨hwild, (characterAt_iff hc).mpr (by simpa using hcontinues), rfl⟩
      · exact .inr ⟨by simpa using hwild, by rw [hc, hch]; rfl, rfl⟩

theorem LikeChar.step_lt_step {p : LikeChar} {i j i' j' : Nat} (h : p.step chars i = some j)
    (h' : p.step chars i' = some j') (hlt : i < i') : j < j' := by
  obtain ⟨-, ⟨hwild, -, rfl⟩ | ⟨hwild, -, rfl⟩⟩ := LikeChar.step_cases h <;>
    obtain ⟨-, ⟨hwild', hi', rfl⟩ | ⟨hwild', -, rfl⟩⟩ := LikeChar.step_cases h'
  · exact (nextLikeChar_le hlt hi').trans_lt lt_nextLikeChar
  · simp [hwild] at hwild'
  · simp [hwild] at hwild'
  · omega

theorem LikeChar.lt_of_step {p : LikeChar} (h : p.step chars i = some j) : i < j := by
  obtain ⟨-, ⟨-, -, rfl⟩ | ⟨-, -, rfl⟩⟩ := LikeChar.step_cases h
  · exact lt_nextLikeChar
  · exact Nat.lt_succ_self _

theorem LikeChar.step_le {p : LikeChar} (h : p.step chars i = some j) : j ≤ chars.length := by
  obtain ⟨hi, ⟨-, -, rfl⟩ | ⟨-, -, rfl⟩⟩ := LikeChar.step_cases h
  · exact (characterAt_nextLikeChar hi).1
  · exact hi

def likeReader (chars : List LikeValueChar) : PatternReader LikeChar where
  size := chars.length
  starts := CharacterAt chars
  takesRun := LikeChar.isPercent
  step := LikeChar.step chars
  starts_le := And.left
  step_lt_step := LikeChar.step_lt_step
  step_le := LikeChar.step_le

/-! ## The rounds of the loop -/

/-- The element of the pattern, if there is one, can't be read where the match has got to. -/
def LikeState.Stuck (chars : List LikeValueChar) (pat : List LikeChar) (s : LikeState) : Prop :=
  ∀ p ∈ pat[s.j]?, (p.isPercent → ¬CharacterAt chars s.i) ∧
    (p.isPercent = false → p.step chars s.i = none)

inductive LikeRound (chars : List LikeValueChar) (pat : List LikeChar) (s : LikeState) :
    Option (Except Unit LikeState) → Prop
  | done (h : chars.length ≤ s.i) : LikeRound chars pat s none
  | percent {p : LikeChar} (hp : pat[s.j]? = some p) (hrun : p.isPercent)
      (hi : CharacterAt chars s.i) :
      LikeRound chars pat s (some (.ok ⟨s.i, s.j + 1, some s.j, s.i⟩))
  | one {p : LikeChar} {i : Nat} (hp : pat[s.j]? = some p) (hrun : p.isPercent = false)
      (hstep : p.step chars s.i = some i) :
      LikeRound chars pat s (some (.ok { s with i, j := s.j + 1 }))
  | back {percent : Nat} (hlt : s.i < chars.length) (hstuck : s.Stuck chars pat)
      (hpercent : s.percent = some percent) :
      LikeRound chars pat s (some (.ok
        ⟨nextLikeChar chars s.percentI, percent + 1, some percent,
          nextLikeChar chars s.percentI⟩))
  | fail (hlt : s.i < chars.length) (hstuck : s.Stuck chars pat) (hpercent : s.percent = none) :
      LikeRound chars pat s (some (.error ()))

theorem likeRound_backtrack {s : LikeState} (hlt : s.i < chars.length)
    (hstuck : s.Stuck chars pat) : LikeRound chars pat s (some (s.backtrack chars)) := by
  unfold LikeState.backtrack
  split
  · next percent hpercent =>
      rw [hpercent]
      exact .back hlt hstuck hpercent
  · next hpercent => exact .fail hlt hstuck hpercent

theorem likeStep_round (chars : List LikeValueChar) (pat : List LikeChar) (n : Nat)
    (s : LikeState) : LikeRound chars pat s (likeStep chars pat n s) := by
  unfold likeStep
  cases hc : chars[s.i]? with
  | none => exact .done (List.getElem?_eq_none_iff.mp hc)
  | some c =>
      have hlt := (List.getElem?_eq_some_iff.mp hc).1
      cases hp : pat[s.j]? with
      | none => exact likeRound_backtrack hlt (by simp [LikeState.Stuck, hp])
      | some p =>
          simp only
          split_ifs with hwild hpercent hchar
          · rw [Bool.and_eq_true, Bool.not_eq_true'] at hwild
            exact .percent hp (by simp [LikeChar.isPercent, hwild.1, hpercent])
              ((characterAt_iff hc).mpr hwild.2)
          · rw [Bool.and_eq_true, Bool.not_eq_true'] at hwild
            exact .one hp (by simp [LikeChar.isPercent, hpercent])
              (by simp [LikeChar.step, hc, hwild])
          · rw [Bool.and_eq_true, Bool.not_eq_true', beq_iff_eq] at hchar
            exact .one hp (by simp [LikeChar.isPercent, hchar.1])
              (by simp [LikeChar.step, hc, hchar])
          · refine likeRound_backtrack hlt ?_
            intro q hq
            rw [Option.mem_def, hp] at hq
            cases hq
            rw [characterAt_iff hc]
            cases hw : p.wildcard <;>
              simp_all [LikeChar.isPercent, LikeChar.step]

/-! ## What every round keeps -/

/-- The last `%`, and the way from where it ends to where the match has got to. -/
structure LikeState.Saved (chars : List LikeValueChar) (pat : List LikeChar) (s : LikeState)
    (percent : Nat) : Prop where
  lt : percent < s.j
  le : s.percentI ≤ s.i
  characterAt : CharacterAt chars s.percentI
  walk : ∃ seg, pat.drop (percent + 1) = seg ++ pat.drop s.j ∧
    (∀ p ∈ seg, (likeReader chars).takesRun p = false) ∧
    (likeReader chars).walk seg s.percentI = some s.i

structure LikeState.Reached (chars : List LikeValueChar) (pat : List LikeChar)
    (s : LikeState) : Prop where
  i_le : s.i ≤ chars.length
  j_le : s.j ≤ pat.length
  saved : ∀ percent ∈ s.percent, s.Saved chars pat percent
  matches_iff : (likeReader chars).Matches pat 0 ↔
    (likeReader chars).Matches (pat.drop s.j) s.i ∨
      ∃ percent ∈ s.percent, (likeReader chars).Later (pat.drop (percent + 1)) s.percentI

theorem LikeState.reached_first : LikeState.Reached chars pat ⟨0, 0, none, 0⟩ where
  i_le := Nat.zero_le _
  j_le := Nat.zero_le _
  saved := by simp
  matches_iff := by simp

theorem drop_eq_cons {p : LikeChar} (hp : pat[j]? = some p) :
    pat.drop j = p :: pat.drop (j + 1) := by
  obtain ⟨hlt, rfl⟩ := List.getElem?_eq_some_iff.mp hp
  exact List.drop_eq_getElem_cons hlt

variable {s : LikeState}

theorem LikeState.Reached.percent (h : s.Reached chars pat) {p : LikeChar}
    (hp : pat[s.j]? = some p) (hrun : p.isPercent) (hi : CharacterAt chars s.i) :
    LikeState.Reached chars pat ⟨s.i, s.j + 1, some s.j, s.i⟩ where
  i_le := h.i_le
  j_le := (List.getElem?_eq_some_iff.mp hp).1
  saved := by
    rintro percent hpercent
    cases hpercent
    exact ⟨Nat.lt_succ_self _, le_rfl, hi, [], rfl, by simp, rfl⟩
  matches_iff := by
    have hrun' : (likeReader chars).takesRun p := hrun
    have hi' : (likeReader chars).starts s.i := hi
    have hlater : ∀ percent ∈ s.percent,
        (likeReader chars).Later (pat.drop (percent + 1)) s.percentI →
          (likeReader chars).Matches (p :: pat.drop (s.j + 1)) s.i := by
      intro percent hpercent hlater
      obtain ⟨seg, hseg, hno, hwalk⟩ := (h.saved percent hpercent).walk
      rw [hseg, drop_eq_cons hp] at hlater
      exact PatternReader.matches_of_later hno hwalk hrun' hi' hlater
    rw [h.matches_iff, drop_eq_cons hp]
    simp only [Option.mem_def, Option.some.injEq, exists_eq_left']
    rw [← PatternReader.matches_takesRun_iff hrun' hi']
    constructor
    · rintro (hmatch | ⟨percent, hpercent, hl⟩)
      · exact hmatch
      · exact hlater percent hpercent hl
    · exact .inl

theorem LikeState.Reached.one (h : s.Reached chars pat) {p : LikeChar} {i : Nat}
    (hp : pat[s.j]? = some p) (hrun : p.isPercent = false) (hstep : p.step chars s.i = some i) :
    LikeState.Reached chars pat { s with i, j := s.j + 1 } where
  i_le := LikeChar.step_le hstep
  j_le := (List.getElem?_eq_some_iff.mp hp).1
  saved := by
    intro percent hpercent
    have hsaved := h.saved percent hpercent
    obtain ⟨seg, hseg, hno, hwalk⟩ := hsaved.walk
    refine ⟨hsaved.lt.trans (Nat.lt_succ_self _), hsaved.le.trans ?_, hsaved.characterAt,
      seg ++ [p], ?_, ?_, ?_⟩
    · exact (LikeChar.lt_of_step hstep).le
    · rw [hseg, drop_eq_cons hp, List.append_assoc]
      rfl
    · intro q hq
      obtain hq | hq := List.mem_append.mp hq
      · exact hno q hq
      · rw [List.mem_singleton.mp hq]
        exact hrun
    · rw [PatternReader.walk_append, hwalk]
      change (p.step chars s.i).bind _ = _
      rw [hstep]
      rfl
  matches_iff := by
    rw [h.matches_iff, drop_eq_cons hp, PatternReader.matches_of_step hrun]
    change ((∃ j, p.step chars s.i = some j ∧ _) ∨ _) ↔ _
    simp only [hstep, Option.some.injEq, exists_eq_left']

theorem LikeState.Stuck.not_matches (hlt : s.i < chars.length) (hstuck : s.Stuck chars pat) :
    ¬(likeReader chars).Matches (pat.drop s.j) s.i := by
  intro hmatch
  cases hp : pat[s.j]? with
  | none =>
      rw [List.drop_eq_nil_of_le (List.getElem?_eq_none_iff.mp hp)] at hmatch
      have hsize : s.i = chars.length := hmatch
      omega
  | some p =>
      rw [drop_eq_cons hp] at hmatch
      cases hrun : p.isPercent with
      | true => exact (hstuck p hp).1 hrun ((PatternReader.matches_of_takesRun hrun).mp hmatch).1
      | false =>
          obtain ⟨k, hk, -⟩ := (PatternReader.matches_of_step hrun).mp hmatch
          have hnone := (hstuck p hp).2 hrun
          cases hnone.symm.trans hk

theorem LikeState.Reached.back (h : s.Reached chars pat) {percent : Nat}
    (hlt : s.i < chars.length) (hstuck : s.Stuck chars pat) (hpercent : s.percent = some percent) :
    LikeState.Reached chars pat ⟨nextLikeChar chars s.percentI, percent + 1, some percent,
      nextLikeChar chars s.percentI⟩ := by
  have hsaved := h.saved percent hpercent
  have hnext : CharacterAt chars (nextLikeChar chars s.percentI) :=
    characterAt_nextLikeChar (hsaved.le.trans_lt hlt)
  have hlater : (likeReader chars).Later (pat.drop (percent + 1)) s.percentI ↔
      (likeReader chars).Matches (pat.drop (percent + 1)) (nextLikeChar chars s.percentI) ∨
        (likeReader chars).Later (pat.drop (percent + 1)) (nextLikeChar chars s.percentI) :=
    PatternReader.later_iff lt_nextLikeChar hnext fun j hij hj => nextLikeChar_le hij hj
  constructor
  · exact hnext.1
  · exact hsaved.lt.trans_le h.j_le
  · rintro q hq
    cases hq
    exact ⟨Nat.lt_succ_self _, le_rfl, hnext, [], rfl, by simp, rfl⟩
  · rw [h.matches_iff]
    simp only [hpercent, Option.mem_def, Option.some.injEq, exists_eq_left',
      hstuck.not_matches hlt, false_or]
    exact hlater

theorem likeStep_reached {n : Nat} {t : LikeState} (h : s.Reached chars pat)
    (hstep : likeStep chars pat n s = some (.ok t)) : t.Reached chars pat := by
  have hround := likeStep_round chars pat n s
  rw [hstep] at hround
  cases hround with
  | percent hp hrun hi => exact h.percent hp hrun hi
  | one hp hrun hi => exact h.one hp hrun hi
  | back hlt hstuck hpercent => exact h.back hlt hstuck hpercent

/-! ## The end of the loop -/

theorem lt_of_first_lt {a a' b b' m : Nat} (ha : a' < a) (hb : b' ≤ m) :
    a' * (m + 1) + b' < a * (m + 1) + b := by
  have hmul := Nat.mul_le_mul_right (m + 1) (Nat.succ_le_of_lt ha)
  rw [Nat.succ_mul] at hmul
  omega

/-- The last `%` moves on, then what it takes grows, then the rest of the pattern shrinks. -/
def likeMeasure (chars : List LikeValueChar) (pat : List LikeChar) (s : LikeState) : Nat :=
  ((pat.length - s.percent.elim 0 (· + 1)) * (chars.length + 1) + (chars.length - s.percentI)) *
    (pat.length + 1) + (pat.length - s.j)

theorem likeMeasure_lt {n : Nat} {t : LikeState} (h : s.Reached chars pat)
    (hstep : likeStep chars pat n s = some (.ok t)) :
    likeMeasure chars pat t < likeMeasure chars pat s := by
  have hround := likeStep_round chars pat n s
  rw [hstep] at hround
  unfold likeMeasure
  cases hround with
  | percent hp hrun hi =>
      have hj := (List.getElem?_eq_some_iff.mp hp).1
      have hbefore : s.percent.elim 0 (· + 1) ≤ s.j := by
        cases hpercent : s.percent with
        | none => exact Nat.zero_le _
        | some percent => exact (h.saved percent hpercent).lt
      apply lt_of_first_lt _ (Nat.sub_le _ _)
      apply lt_of_first_lt _ (Nat.sub_le _ _)
      simp only [Option.elim_some]
      omega
  | one hp hrun hi =>
      have hj := (List.getElem?_eq_some_iff.mp hp).1
      simp only
      omega
  | @back percent hlt hstuck hpercent =>
      have hsaved := h.saved percent hpercent
      have hnext : s.percentI < nextLikeChar chars s.percentI := lt_nextLikeChar
      have hle := hsaved.le
      apply lt_of_first_lt _ (Nat.sub_le _ _)
      rw [hpercent]
      simp only [Option.elim_some]
      omega

/-- The states before each round. -/
theorem reached_of_stateAt {n : Nat}
    (h : Loop.stateAt (likeStep chars pat) ⟨0, 0, none, 0⟩ n = some s) : s.Reached chars pat :=
  Loop.stateAt_invariant LikeState.reached_first (fun _ _ _ => likeStep_reached) n s h

theorem exists_likeMatches (chars : List LikeValueChar) (pat : List LikeChar) :
    ∃ fuel result, likeMatches fuel chars pat = some result := by
  have hmeasure : ∀ n s t, Loop.stateAt (likeStep chars pat) ⟨0, 0, none, 0⟩ n = some s →
      likeStep chars pat n s = some (.ok t) →
        likeMeasure chars pat t < likeMeasure chars pat s :=
    fun n s t hs hstep => likeMeasure_lt (reached_of_stateAt hs) hstep
  obtain ⟨result, hresult⟩ := @Loop.exists_loop _ _ _ (fun _ => likeMeasure chars pat) _ hmeasure
  exact ⟨_, _, by rw [likeMatches, hresult]; rfl⟩

theorem matches_length_iff (rest : List LikeChar) :
    (likeReader chars).Matches rest chars.length ↔
      (rest.dropWhile LikeChar.isPercent).isEmpty := by
  induction rest with
  | nil => exact iff_of_true rfl rfl
  | cons p rest ih =>
      cases hrun : p.isPercent with
      | true =>
          have hend : CharacterAt chars chars.length := ⟨le_rfl, by simp [StartsCharacter]⟩
          rw [PatternReader.matches_of_takesRun hrun, List.dropWhile_cons_of_pos hrun, ← ih]
          constructor
          · rintro ⟨-, j, hle, hj, hrest⟩
            obtain rfl : j = chars.length := le_antisymm hj.1 hle
            exact hrest
          · intro hrest
            exact ⟨hend, _, le_rfl, hend, hrest⟩
      | false =>
          rw [PatternReader.matches_of_step hrun, List.dropWhile_cons_of_neg (by simp [hrun])]
          simp [likeReader, LikeChar.step]

/-- The result of the loop is whether the pattern can be read along the value. -/
theorem likeMatches_iff_matches {fuel : Nat} {result : Bool}
    (h : likeMatches fuel chars pat = some result) :
    result = true ↔ (likeReader chars).Matches pat 0 := by
  obtain ⟨last, hlast, rfl⟩ := Option.map_eq_some_iff.mp h
  have hreached : ∀ (n : Nat) (s t : LikeState), s.Reached chars pat →
      likeStep chars pat n s = some (.ok t) → t.Reached chars pat :=
    fun _ _ _ => likeStep_reached
  obtain ⟨n, s, hs, ⟨hstep, rfl⟩ | ⟨e, hstep, rfl⟩⟩ :=
    Loop.loop_result hreached LikeState.reached_first hlast
  · have hround := likeStep_round chars pat n s
    rw [hstep] at hround
    cases hround with
    | done hend =>
        have hi : s.i = chars.length := le_antisymm hs.i_le hend
        have hlater : ¬∃ percent ∈ s.percent,
            (likeReader chars).Later (pat.drop (percent + 1)) s.percentI := by
          rintro ⟨percent, hpercent, hlater⟩
          obtain ⟨seg, hseg, hno, hwalk⟩ := (hs.saved percent hpercent).walk
          rw [hi] at hwalk
          rw [hseg] at hlater
          exact PatternReader.not_later_of_walk hno hwalk hlater
        rw [hs.matches_iff, or_iff_left hlater, hi, matches_length_iff]
        rfl
  · have hround := likeStep_round chars pat n s
    rw [hstep] at hround
    cases hround with
    | fail hlt hstuck hpercent =>
        rw [hs.matches_iff]
        simp [hpercent, hstuck.not_matches hlt]

/-! ## Parts of the value -/

/-- What the element takes, when the rest of the value comes after it. -/
def LikeChar.Takes (p : LikeChar) (part rest : List LikeValueChar) : Prop :=
  if p.wildcard then
    StartsCharacter (part ++ rest) ∧ StartsCharacter rest ∧
      (p.ch = '%' ∨ ∃ c tail, part = c :: tail ∧ ∀ d ∈ tail, d.continues)
  else ∃ c, part = [c] ∧ c.ch = p.ch

/-- The parts, one after the other, are what the elements of the pattern take. -/
inductive LikePartition : List LikeChar → List (List LikeValueChar) → Prop
  | nil : LikePartition [] []
  | cons {p : LikeChar} {pat : List LikeChar} {part : List LikeValueChar}
      {parts : List (List LikeValueChar)} (h : p.Takes part parts.flatten)
      (hs : LikePartition pat parts) : LikePartition (p :: pat) (part :: parts)

theorem LikeChar.isPercent_iff {p : LikeChar} :
    p.isPercent = true ↔ p.wildcard = true ∧ p.ch = '%' := by
  simp [LikeChar.isPercent]

/-- A character is the code points up to the next one that starts a character. -/
theorem nextLikeChar_eq {c : LikeValueChar} {tail rest : List LikeValueChar}
    (h : chars.drop i = c :: (tail ++ rest)) (htail : ∀ d ∈ tail, d.continues)
    (hrest : StartsCharacter rest) : nextLikeChar chars i = i + 1 + tail.length := by
  have hdrop : chars.drop (i + 1) = tail ++ rest := by
    rw [← List.drop_drop, h]
    rfl
  rw [nextLikeChar, hdrop, List.takeWhile_append_of_pos htail]
  cases rest with
  | nil => simp
  | cons d rest =>
      rw [List.takeWhile_cons_of_neg (by simp [hrest d rfl]), List.append_nil]

theorem takes_iff_of_percent {p : LikeChar} (hrun : p.isPercent) {part rest : List LikeValueChar} :
    p.Takes part rest ↔ StartsCharacter (part ++ rest) ∧ StartsCharacter rest := by
  obtain ⟨hwild, hch⟩ := LikeChar.isPercent_iff.mp hrun
  simp [LikeChar.Takes, hwild, hch]

theorem drop_add_length {part rest : List LikeValueChar} (h : chars.drop i = part ++ rest) :
    chars.drop (i + part.length) = rest := by
  rw [← List.drop_drop, h, List.drop_left]

theorem add_length_le {part rest : List LikeValueChar} (hi : i ≤ chars.length)
    (h : chars.drop i = part ++ rest) : i + part.length ≤ chars.length := by
  have hlength := congrArg List.length h
  rw [List.length_drop, List.length_append] at hlength
  omega

theorem exists_part (hij : i ≤ j) (hj : j ≤ chars.length) :
    ∃ part, chars.drop i = part ++ chars.drop j ∧ i + part.length = j := by
  refine ⟨(chars.drop i).take (j - i), ?_, ?_⟩
  · have hsplit := (List.take_append_drop (j - i) (chars.drop i)).symm
    rw [List.drop_drop, Nat.add_sub_cancel' hij] at hsplit
    exact hsplit
  · rw [List.length_take, List.length_drop]
    omega

/-- An element that is not `%` takes what is up to where it leads to. -/
theorem takes_iff_of_step {p : LikeChar} (hrun : p.isPercent = false)
    {part rest : List LikeValueChar} (hdrop : chars.drop i = part ++ rest) :
    p.Takes part rest ↔ p.step chars i = some (i + part.length) := by
  have hget : chars[i]? = (part ++ rest).head? := by
    rw [← hdrop, List.head?_drop]
  constructor
  · intro htakes
    unfold LikeChar.Takes at htakes
    split at htakes
    · next hwild =>
        obtain ⟨hstarts, hrest, hpercent | ⟨c, tail, rfl, htail⟩⟩ := htakes
        · rw [LikeChar.isPercent_iff.mpr ⟨hwild, hpercent⟩] at hrun
          cases hrun
        · have hc : c.continues = false := hstarts c rfl
          have hnext := nextLikeChar_eq hdrop htail hrest
          rw [List.cons_append, List.head?_cons] at hget
          simp only [LikeChar.step, hget, hwild, hc, hnext, List.length_cons, if_true,
            Bool.false_eq_true, if_false, Option.some.injEq]
          omega
    · next hwild =>
        obtain ⟨c, rfl, hch⟩ := htakes
        rw [List.singleton_append, List.head?_cons] at hget
        simp [LikeChar.step, hget, hwild, hch]
  · intro hstep
    obtain ⟨hlt, ⟨hwild, hi, hnext⟩ | ⟨hwild, hch, hnext⟩⟩ := LikeChar.step_cases hstep
    · obtain ⟨tail, htail, hlength, hcontinues, hstarts⟩ := drop_eq_tail_append chars i
      have hcons : chars.drop i = chars[i] :: tail ++ chars.drop (nextLikeChar chars i) := by
        rw [List.drop_eq_getElem_cons hlt, htail, List.cons_append]
      obtain ⟨rfl, rfl⟩ := List.append_inj (hdrop.symm.trans hcons)
        (by rw [List.length_cons]; omega)
      rw [LikeChar.Takes, if_pos hwild, ← hdrop]
      exact ⟨hi.2, hstarts, .inr ⟨_, _, rfl, hcontinues⟩⟩
    · obtain ⟨c, rfl⟩ := List.length_eq_one_iff.mp (by omega : part.length = 1)
      rw [List.singleton_append, List.head?_cons] at hget
      rw [LikeChar.Takes, if_neg (by simp [hwild])]
      rw [hget] at hch
      exact ⟨c, rfl, Option.some.inj hch⟩

theorem matches_iff_partition (hi : i ≤ chars.length) : (likeReader chars).Matches pat i ↔
    ∃ parts, LikePartition pat parts ∧ parts.flatten = chars.drop i := by
  induction pat generalizing i with
  | nil =>
      constructor
      · intro h
        have hsize : i = chars.length := h
        exact ⟨[], .nil, by simp [hsize]⟩
      · rintro ⟨parts, hparts, hflatten⟩
        cases hparts
        have hnil := List.drop_eq_nil_iff.mp hflatten.symm
        exact le_antisymm hi hnil
  | cons p pat ih =>
      cases hrun : p.isPercent with
      | true =>
          rw [PatternReader.matches_of_takesRun hrun]
          constructor
          · rintro ⟨hstarts, j, hij, hj, hpat⟩
            obtain ⟨parts, hparts, hflatten⟩ := (ih hj.1).mp hpat
            obtain ⟨part, hdrop, -⟩ := exists_part hij hj.1
            refine ⟨part :: parts, .cons ((takes_iff_of_percent hrun).mpr ?_) hparts, ?_⟩
            · rw [hflatten, ← hdrop]
              exact ⟨hstarts.2, hj.2⟩
            · rw [List.flatten_cons, hflatten, hdrop]
          · rintro ⟨_, hparts, hflatten⟩
            cases hparts with
            | @cons _ _ part parts htakes hparts =>
                rw [List.flatten_cons] at hflatten
                have hrest := drop_add_length hflatten.symm
                have hle := add_length_le hi hflatten.symm
                obtain ⟨hstarts, hends⟩ := (takes_iff_of_percent hrun).mp htakes
                rw [hflatten] at hstarts
                rw [← hrest] at hends
                exact ⟨⟨hi, hstarts⟩, i + part.length, Nat.le_add_right _ _, ⟨hle, hends⟩,
                  (ih hle).mpr ⟨parts, hparts, hrest.symm⟩⟩
      | false =>
          rw [PatternReader.matches_of_step hrun]
          constructor
          · rintro ⟨j, hstep, hpat⟩
            have hj := LikeChar.step_le hstep
            obtain ⟨parts, hparts, hflatten⟩ := (ih hj).mp hpat
            obtain ⟨part, hdrop, rfl⟩ := exists_part (LikeChar.lt_of_step hstep).le hj
            rw [← hflatten] at hdrop
            refine ⟨part :: parts, .cons ((takes_iff_of_step hrun hdrop).mpr hstep) hparts, ?_⟩
            rw [List.flatten_cons, hdrop]
          · rintro ⟨_, hparts, hflatten⟩
            cases hparts with
            | @cons _ _ part parts htakes hparts =>
                rw [List.flatten_cons] at hflatten
                exact ⟨i + part.length, (takes_iff_of_step hrun hflatten.symm).mp htakes,
                  (ih (add_length_le hi hflatten.symm)).mpr
                    ⟨parts, hparts, (drop_add_length hflatten.symm).symm⟩⟩

/-! ## LIKE and ILIKE -/

/-- The characters of a pattern, as it is written. -/
inductive PatternText (escape : Option Char) : Text → List LikeChar → Prop
  | nil : PatternText escape [] []
  | escaped {c d : Char} {rest : Text} {pat : List LikeChar} (hc : escape = some c)
      (hd : d = '%' ∨ d = '_' ∨ d = c) (h : PatternText escape rest pat) :
      PatternText escape (c :: d :: rest) (⟨d, false⟩ :: pat)
  | plain {c : Char} {rest : Text} {pat : List LikeChar} (hc : escape ≠ some c)
      (h : PatternText escape rest pat) :
      PatternText escape (c :: rest) (⟨c, isWildcard c⟩ :: pat)

theorem patternText_of_likePattern {escape : Option Char} {pattern : Text}
    (h : likePattern escape pattern = .ok pat) : PatternText escape pattern pat := by
  induction pattern using likePattern.induct escape generalizing pat with
  | case1 =>
      cases h
      exact .nil
  | case2 c hc =>
      rw [likePattern, if_pos hc] at h
      cases h
  | case3 c hc =>
      rw [likePattern, if_neg hc] at h
      cases h
      exact .plain hc .nil
  | case4 c d rest hc hd =>
      rw [likePattern, if_pos hc, if_pos hd] at h
      cases h
  | case5 c d rest hc hd ih =>
      rw [likePattern, if_pos hc, if_neg hd] at h
      obtain ⟨chars, hchars, h⟩ := ok_of_bind h
      cases h
      exact .escaped hc (by simpa only [not_and_or, not_not] using hd) (ih hchars)
  | case6 c d rest hc ih =>
      rw [likePattern, if_neg hc] at h
      obtain ⟨chars, hchars, h⟩ := ok_of_bind h
      cases h
      exact .plain hc (ih hchars)

/-- What an element takes when each code point is a character. -/
def LikeChar.TakesText (p : LikeChar) (part : Text) : Prop :=
  if p.wildcard then p.ch = '%' ∨ part.length = 1 else part = [p.ch]

theorem startsCharacter_of_forall {rest : List LikeValueChar}
    (h : ∀ c ∈ rest, c.continues = false) : StartsCharacter rest :=
  fun c hc => h c (List.mem_of_mem_head? hc)

theorem takes_iff_takesText {p : LikeChar} {part rest : List LikeValueChar}
    (h : ∀ c ∈ part ++ rest, c.continues = false) :
    p.Takes part rest ↔ p.TakesText (part.map (·.ch)) := by
  have hrest : ∀ c ∈ rest, c.continues = false :=
    fun c hc => h c (List.mem_append_right part hc)
  unfold LikeChar.Takes LikeChar.TakesText
  split
  · simp only [startsCharacter_of_forall h, startsCharacter_of_forall hrest, true_and,
      List.length_map]
    apply or_congr_right
    constructor
    · rintro ⟨c, tail, rfl, htail⟩
      cases tail with
      | nil => rfl
      | cons d tail =>
          have hd := h d (by simp)
          rw [htail d (by simp)] at hd
          cases hd
    · intro hlength
      obtain ⟨c, rfl⟩ := List.length_eq_one_iff.mp hlength
      exact ⟨c, [], rfl, by simp⟩
  · constructor
    · rintro ⟨c, rfl, hc⟩
      simp [hc]
    · intro hmap
      obtain ⟨c, hc, hch⟩ := List.map_eq_singleton_iff.mp hmap
      exact ⟨c, hc, hch⟩

theorem partition_iff_forall₂ {parts : List (List LikeValueChar)}
    (h : ∀ c ∈ parts.flatten, c.continues = false) : LikePartition pat parts ↔
      List.Forall₂ LikeChar.TakesText pat (parts.map (·.map (·.ch))) := by
  induction parts generalizing pat with
  | nil =>
      constructor
      · intro hparts
        cases hparts
        exact .nil
      · intro hparts
        cases hparts
        exact .nil
  | cons part parts ih =>
      rw [List.flatten_cons] at h
      have hrest := fun c hc => h c (List.mem_append_right part hc)
      constructor
      · rintro (_ | ⟨htakes, hs⟩)
        exact .cons ((takes_iff_takesText h).mp htakes) ((ih hrest).mp hs)
      · intro hall
        rw [List.map_cons] at hall
        cases hall with
        | cons htakes hs => exact .cons ((takes_iff_takesText h).mpr htakes) ((ih hrest).mpr hs)

theorem exists_partition_likeValue (s : Text) :
    (∃ parts, LikePartition pat parts ∧ parts.flatten = likeValue s) ↔
      ∃ parts : List Text, parts.flatten = s ∧ List.Forall₂ LikeChar.TakesText pat parts := by
  have hvalue : ∀ c ∈ likeValue s, c.continues = false := by
    intro c hc
    obtain ⟨ch, -, rfl⟩ := List.mem_map.mp hc
    rfl
  constructor
  · rintro ⟨parts, hparts, hflatten⟩
    rw [← hflatten] at hvalue
    refine ⟨_, ?_, (partition_iff_forall₂ hvalue).mp hparts⟩
    rw [← List.map_flatten, hflatten]
    simp [likeValue, Function.comp_def]
  · rintro ⟨parts, rfl, hparts⟩
    have hflatten : (parts.map likeValue).flatten = likeValue parts.flatten :=
      (List.map_flatten ..).symm
    refine ⟨parts.map likeValue, (partition_iff_forall₂ ?_).mpr ?_, hflatten⟩
    · rw [hflatten]
      exact hvalue
    · simpa [likeValue, Function.comp_def] using hparts

/-- The loop ends, and its result is true when the proposition is. -/
def LikeDecides (chars : List LikeValueChar) (pat : List LikeChar) (P : Prop) : Prop :=
  (∃ fuel result, likeMatches fuel chars pat = some result) ∧
    ∀ fuel result, likeMatches fuel chars pat = some result → (result = true ↔ P)

theorem likeDecides_partition (chars : List LikeValueChar) (pat : List LikeChar) :
    LikeDecides chars pat (∃ parts, LikePartition pat parts ∧ parts.flatten = chars) := by
  refine ⟨exists_likeMatches chars pat, fun fuel result h => ?_⟩
  rw [likeMatches_iff_matches h, matches_iff_partition (Nat.zero_le _), List.drop_zero]

/-- LIKE takes each code point as a character, and ILIKE the code points that one is folded
into. -/
theorem likeDecides_of_likePattern (caseFold : Char → List Char) {escape : Option Char}
    {pattern : Text} (h : likePattern escape pattern = .ok pat) (s : Text) :
    PatternText escape pattern pat ∧
      LikeDecides (likeValue s) pat
        (∃ parts : List Text, parts.flatten = s ∧ List.Forall₂ LikeChar.TakesText pat parts) ∧
      LikeDecides (ilikeValue caseFold s) (ilikePattern caseFold pat)
        (∃ parts, LikePartition (ilikePattern caseFold pat) parts ∧
          parts.flatten = ilikeValue caseFold s) := by
  refine ⟨patternText_of_likePattern h, ?_, likeDecides_partition _ _⟩
  rw [← exists_partition_likeValue]
  exact likeDecides_partition _ _

theorem likeDecides_of_likePattern_escaped :
    PatternText (some '!') ['a', '!', '%', '%'] [⟨'a', false⟩, ⟨'%', false⟩, ⟨'%', true⟩] ∧
      LikeDecides (likeValue ['a', '%', 'b']) [⟨'a', false⟩, ⟨'%', false⟩, ⟨'%', true⟩]
        (∃ parts : List Text, parts.flatten = ['a', '%', 'b'] ∧
          List.Forall₂ LikeChar.TakesText [⟨'a', false⟩, ⟨'%', false⟩, ⟨'%', true⟩] parts) ∧
      LikeDecides (ilikeValue (fun c => [c.toLower]) ['a', '%', 'b'])
        (ilikePattern (fun c => [c.toLower]) [⟨'a', false⟩, ⟨'%', false⟩, ⟨'%', true⟩])
        (∃ parts, LikePartition
          (ilikePattern (fun c => [c.toLower]) [⟨'a', false⟩, ⟨'%', false⟩, ⟨'%', true⟩]) parts ∧
            parts.flatten = ilikeValue (fun c => [c.toLower]) ['a', '%', 'b']) :=
  @likeDecides_of_likePattern _ (fun c => [c.toLower]) (some '!') ['a', '!', '%', '%'] rfl
    ['a', '%', 'b']

/-- An e and a combining accent are one character that `_` could take, but the loop takes them
as two. -/
theorem not_like_combining_accent :
    likePattern none ['_'] = .ok [⟨'_', true⟩] ∧
      LikePartition [⟨'_', true⟩] [[⟨'e', false⟩, ⟨'\u0301', true⟩]] ∧
      likeMatches 2 (likeValue ['e', '\u0301']) [⟨'_', true⟩] = some false := by
  refine ⟨rfl, .cons ?_ .nil, by decide⟩
  rw [LikeChar.Takes, if_pos rfl]
  exact ⟨by simp [StartsCharacter], by simp [StartsCharacter], .inr ⟨_, _, rfl, by simp⟩⟩

end Vsql
