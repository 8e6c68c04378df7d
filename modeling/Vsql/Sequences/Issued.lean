import Vsql.Sequences.Generator

/-!
# What a sequence generator issues

`Sequence.next` is compared with a generator whose numbers are integers, so that it is
clear that nothing wraps around.  `Sequence.Sound` is what every step keeps.
-/

namespace Vsql

open Foundation

namespace Sequence

/-! ## Sums that wrap around -/

theorem addI64_snd (a b : Int64) :
    (addI64 a b).2 = true ↔ a.toInt + b.toInt < -2 ^ 63 ∨ 2 ^ 63 ≤ a.toInt + b.toInt := by
  have hb := b.toInt_lt
  have hb' := b.le_toInt
  have hmax : b > 0 → (Int64.maxValue - b).toInt = 2 ^ 63 - 1 - b.toInt := by
    intro h
    have : (0 : Int64).toInt < b.toInt := Int64.lt_iff_toInt_lt.1 h
    rw [Int64.toInt_sub, Int64.toInt_maxValue, Int.bmod_eq_of_le] <;> simp at * <;> omega
  have hmin : b < 0 → (Int64.minValue - b).toInt = -2 ^ 63 - b.toInt := by
    intro h
    have : b.toInt < (0 : Int64).toInt := Int64.lt_iff_toInt_lt.1 h
    rw [Int64.toInt_sub, Int64.toInt_minValue, Int.bmod_eq_of_le] <;> simp at * <;> omega
  have ha := a.toInt_lt
  have ha' := a.le_toInt
  simp only [addI64, Bool.or_eq_true, Bool.and_eq_true, decide_eq_true_eq, gt_iff_lt,
    Int64.lt_iff_toInt_lt] at hmax hmin ⊢
  have hzero : (0 : Int64).toInt = 0 := rfl
  rw [hzero] at *
  by_cases hpos : 0 < b.toInt
  · rw [hmax hpos]
    omega
  · by_cases hneg : b.toInt < 0
    · rw [hmin hneg]
      omega
    · omega

theorem toInt_add_of_fits {a b : Int64} (h : (addI64 a b).2 = false) :
    (a + b).toInt = a.toInt + b.toInt := by
  have := (addI64_snd a b).not.1 (by simp [h])
  rw [Int64.toInt_add, Int.bmod_eq_of_le] <;> omega

/-! ## The next value -/

/-- The value that comes next, if it is within the limits. -/
def base (s : Sequence) : Int :=
  if s.unused then (s.currentValue + s.incrementBy).toInt
  else s.currentValue.toInt + s.incrementBy.toInt

def Within (s : Sequence) (x : Int) : Prop := s.min.toInt ≤ x ∧ x ≤ s.max.toInt

structure Sound (s : Sequence) : Prop where
  increment : s.incrementBy ≠ 0
  limits : s.min < s.max
  exhausted : s.exhausted = (!s.unused && (addI64 s.currentValue s.incrementBy).2)

variable {s t : Sequence} {v : Int64} {e : Failure}

theorem Sound.reset_within (h : s.Sound) : s.Within s.reset.toInt := by
  have hlimits := Int64.lt_iff_toInt_lt.1 h.limits
  unfold reset Within
  split <;> omega

instance (x : Int) : Decidable (s.Within x) := inferInstanceAs (Decidable (_ ∧ _))

theorem nextValue_of_fits (h : ((addI64 s.currentValue s.incrementBy).2 && s.exhausted) = false) :
    s.nextValue =
      if s.Within (s.currentValue + s.incrementBy).toInt then some (s.currentValue + s.incrementBy)
      else none := by
  have hlimits : (s.currentValue + s.incrementBy > s.max ∨
      s.currentValue + s.incrementBy < s.min) ↔
        ¬ s.Within (s.currentValue + s.incrementBy).toInt := by
    simp only [Within, gt_iff_lt, Int64.lt_iff_toInt_lt]
    omega
  have hstep : s.nextValue =
      if (false || s.currentValue + s.incrementBy > s.max ||
        s.currentValue + s.incrementBy < s.min) = true then none
      else some (s.currentValue + s.incrementBy) := by
    rw [← h]
    rfl
  simp only [hstep, Bool.false_or, Bool.or_eq_true, decide_eq_true_eq, hlimits, ite_not]

theorem nextValue_eq (h : s.Sound) :
    (s.nextValue = none ∧ ¬ s.Within s.base) ∨
      ∃ v, s.nextValue = some v ∧ v.toInt = s.base ∧ s.Within s.base := by
  have hmin := s.min.le_toInt
  have hmax := s.max.toInt_lt
  have hexhausted := h.exhausted
  by_cases hover : ((addI64 s.currentValue s.incrementBy).2 && s.exhausted) = true
  · -- The sum is past the range of a BIGINT, so it is past the limits.
    simp only [Bool.and_eq_true] at hover
    simp only [hover, Bool.and_true, Bool.true_eq, Bool.not_eq_true'] at hexhausted
    refine .inl ⟨by simp [nextValue, hover], ?_⟩
    have := (addI64_snd _ _).1 hover.1
    simp only [Within, base, hexhausted, Bool.false_eq_true, if_false]
    omega
  · rw [Bool.not_eq_true] at hover
    have hbase : (s.currentValue + s.incrementBy).toInt = s.base := by
      unfold base
      split
      · rfl
      · rename_i hunused
        refine toInt_add_of_fits ?_
        simp only [hunused, Bool.not_false, Bool.true_and] at hexhausted
        simpa [hexhausted] using hover
    rw [nextValue_of_fits hover, hbase]
    by_cases hwithin : s.Within s.base
    · exact .inr ⟨_, if_pos hwithin, hbase, hwithin⟩
    · exact .inl ⟨if_neg hwithin, hwithin⟩

theorem Sound.issue (h : s.Sound) (v : Int64) : (s.issue v).Sound :=
  ⟨h.increment, h.limits, rfl⟩

/-- The next value is the exact one, or the first of a new cycle. -/
theorem next_cases (h : s.Sound) :
    (∃ v, s.next = .ok (s.issue v) ∧ v.toInt = s.base ∧ s.Within s.base) ∨
      (s.next = .ok (s.issue s.reset) ∧ s.cycle = true ∧ ¬ s.Within s.base) ∨
        (s.next = .error (sqlstate2200H s.name.str.str) ∧ s.cycle = false ∧
          ¬ s.Within s.base) := by
  unfold next
  obtain ⟨hnone, hbase⟩ | ⟨v, hsome, hv, hbase⟩ := nextValue_eq h
  · rw [hnone]
    cases s.cycle with
    | true => exact .inr (.inl ⟨rfl, rfl, hbase⟩)
    | false => exact .inr (.inr ⟨rfl, rfl, hbase⟩)
  · rw [hsome]
    exact .inl ⟨v, rfl, hv, hbase⟩

/-! ## Implicit limits -/

/-- The limits of `t` are not narrower, and everything else is the same. -/
structure Widens (s t : Sequence) : Prop where
  same : t = { s with hasMinValue := t.hasMinValue, minValue := t.minValue,
                      hasMaxValue := t.hasMaxValue, maxValue := t.maxValue }
  min : t.min ≤ s.min
  max : s.max ≤ t.max

theorem Widens.keepOldLimits (h : s.Widens t) : s.Widens (s.keepOldLimits t v) := by
  have hlower : s.Widens (if !t.hasMinValue && v < s.min then
      { t with hasMinValue := true, minValue := Int64.minValue } else t) := by
    split
    · refine ⟨?_, ?_, h.max⟩
      · rw [h.same]
      · exact Int64.minValue_le _
    · exact h
  unfold Sequence.keepOldLimits
  dsimp only
  generalize (if !t.hasMinValue && v < s.min then
      { t with hasMinValue := true, minValue := Int64.minValue } else t) = t at hlower ⊢
  split
  · refine ⟨?_, hlower.min, ?_⟩
    · rw [hlower.same]
    · exact Int64.le_maxValue _
  · exact hlower

theorem widens_withOldImplicitLimits (s : Sequence) : s.Widens s.withOldImplicitLimits := by
  have hrefl : s.Widens s := ⟨rfl, Int64.le_refl _, Int64.le_refl _⟩
  unfold withOldImplicitLimits
  cases s.unused with
  | true => exact hrefl.keepOldLimits
  | false => exact hrefl.keepOldLimits.keepOldLimits

theorem Widens.sound (h : s.Widens t) (hs : s.Sound) : t.Sound := by
  obtain ⟨hsame, hmin, hmax⟩ := h
  refine ⟨?_, ?_, ?_⟩
  · rw [hsame]
    exact hs.increment
  · exact Int64.lt_of_le_of_lt hmin (Int64.lt_of_lt_of_le hs.limits hmax)
  · rw [hsame]
    exact hs.exhausted

end Sequence

theorem SequenceOwner.widens_read (owner : SequenceOwner) (s : Sequence) :
    s.Widens (owner.read s) := by
  cases owner with
  | external => exact s.widens_withOldImplicitLimits
  | identity t => exact ⟨rfl, Int64.le_refl _, Int64.le_refl _⟩

/-! ## CREATE and ALTER -/

open Sequence

theorem foldl_defineOption (options : List SequenceGeneratorOption) (p : Sequence × Bool) :
    (options.foldl defineOption p).1.unused = p.1.unused ∧
      (options.foldl defineOption p).1.exhausted = p.1.exhausted ∧
      (options.foldl defineOption p).1.name = p.1.name := by
  induction options generalizing p with
  | nil => exact ⟨rfl, rfl, rfl⟩
  | cons option options ih =>
      have hoption : (defineOption p option).1.unused = p.1.unused ∧
          (defineOption p option).1.exhausted = p.1.exhausted ∧
          (defineOption p option).1.name = p.1.name := by
        cases option with
        | minvalue v | maxvalue v => cases v <;> exact ⟨rfl, rfl, rfl⟩
        | _ => exact ⟨rfl, rfl, rfl⟩
      obtain ⟨hunused, hexhausted, hname⟩ := ih (defineOption p option)
      rw [List.foldl_cons, hunused, hexhausted, hname]
      exact hoption

theorem check_ok {s : Sequence} (h : s.check = .ok ()) : s.incrementBy ≠ 0 ∧ s.min < s.max := by
  unfold check at h
  split at h
  · cases h
  · rename_i hincrement
    split at h
    · cases h
    · rename_i hlimits
      exact ⟨hincrement, Int64.not_le.1 hlimits⟩

theorem sound_of_check {s : Sequence} (h : s.check = .ok ())
    (hexhausted : s.exhausted = (!s.unused && (addI64 s.currentValue s.incrementBy).2)) :
    s.Sound :=
  ⟨(check_ok h).1, (check_ok h).2, hexhausted⟩

@[simp] theorem sequence_unused (stmt : SequenceGeneratorDefinition) (name : Identifier) :
    (stmt.sequence name).unused = true :=
  (foldl_defineOption stmt.options (newSequence name, false)).1

@[simp] theorem sequence_exhausted (stmt : SequenceGeneratorDefinition) (name : Identifier) :
    (stmt.sequence name).exhausted = false :=
  (foldl_defineOption stmt.options (newSequence name, false)).2.1

theorem checkIdentitySequence_ok {t : DataType} {s : Sequence}
    (h : checkIdentitySequence t s = .ok ()) : s.check = .ok () := by
  obtain ⟨_, -, h⟩ := ok_of_bind h
  exact h

theorem SequenceOwner.create_sound {formats : FloatFormat} {owner : SequenceOwner}
    {name : Identifier}
    {options : List SequenceGeneratorOption} {s : Sequence}
    (h : owner.create formats name options = .ok s) : s.Sound := by
  cases owner with
  | external =>
      obtain ⟨_, -, h⟩ := ok_of_bind h
      obtain ⟨_, hcheck, h⟩ := ok_of_bind h
      obtain ⟨_, -, h⟩ := ok_of_bind h
      cases h
      exact sound_of_check hcheck (by simp)
  | identity t =>
      simp only [create, newIdentitySequence] at h
      split at h
      · cases h
      · obtain ⟨_, -, h⟩ := ok_of_bind h
        obtain ⟨_, hcheck, h⟩ := ok_of_bind h
        obtain ⟨_, -, h⟩ := ok_of_bind h
        cases h
        exact sound_of_check (checkIdentitySequence_ok hcheck) (by simp)

/-- A generator that goes on where `old` was, even if it has another increment. -/
structure Continues (old s : Sequence) : Prop where
  unused : s.unused = old.unused
  next : old.unused = true →
    s.currentValue + s.incrementBy = old.currentValue + old.incrementBy
  last : old.unused = false → s.currentValue = old.currentValue

def SequenceGeneratorOption.isRestart : SequenceGeneratorOption → Bool
  | .restart _ => true
  | _ => false

/-- The position of the generator, which only a RESTART changes. -/
theorem foldl_alterOption (options : List SequenceGeneratorOption) (a : Altering) :
    (options.foldl alterOption a).sequence.unused = a.sequence.unused ∧
      (options.foldl alterOption a).sequence.exhausted = a.sequence.exhausted ∧
      (options.foldl alterOption a).sequence.currentValue = a.sequence.currentValue ∧
      (options.any (·.isRestart) = false →
        (options.foldl alterOption a).restart = a.restart) := by
  induction options generalizing a with
  | nil => exact ⟨rfl, rfl, rfl, fun _ => rfl⟩
  | cons option options ih =>
      obtain ⟨hunused, hexhausted, hcurrent, hrestart⟩ := ih (alterOption a option)
      rw [List.foldl_cons, hunused, hexhausted, hcurrent]
      have hoption : (alterOption a option).sequence.unused = a.sequence.unused ∧
          (alterOption a option).sequence.exhausted = a.sequence.exhausted ∧
          (alterOption a option).sequence.currentValue = a.sequence.currentValue := by
        cases option with
        | restart v | minvalue v | maxvalue v => cases v <;> exact ⟨rfl, rfl, rfl⟩
        | _ => exact ⟨rfl, rfl, rfl⟩
      refine ⟨hoption.1, hoption.2.1, hoption.2.2, fun hany => ?_⟩
      rw [List.any_cons, Bool.or_eq_false_iff] at hany
      rw [hrestart hany.2]
      cases option with
      | restart v => cases hany.1
      | minvalue v | maxvalue v => cases v <;> rfl
      | _ => rfl

theorem Altering.keepLimits_position (a : Altering) (old : Sequence) :
    (a.keepLimits old).unused = a.sequence.unused ∧
      (a.keepLimits old).exhausted = a.sequence.exhausted ∧
      (a.keepLimits old).currentValue = a.sequence.currentValue := by
  unfold keepLimits
  dsimp only
  split
  · split <;> split <;> exact ⟨rfl, rfl, rfl⟩
  · exact ⟨rfl, rfl, rfl⟩

theorem Altering.continued_eq {a : Altering} {old s t : Sequence}
    (h : a.continued old s = .ok t) :
    t = if old.unused then
          { s with currentValue := old.currentValue + old.incrementBy - s.incrementBy }
        else { s with exhausted := (addI64 old.currentValue s.incrementBy).2 } := by
  unfold continued at h
  cases hunused : old.unused with
  | true =>
      simp only [hunused, if_true] at h ⊢
      split at h
      · cases h
      · split at h
        · cases h
        · exact (Except.ok.inj h).symm
  | false =>
      simp only [hunused, Bool.false_eq_true, if_false] at h ⊢
      split at h
      · cases h
      · split at h
        · cases h
        · exact (Except.ok.inj h).symm

theorem Altering.continued_ok {a : Altering} {old s t : Sequence} (hold : old.Sound)
    (hs : s.check = .ok ()) (hunused : s.unused = old.unused)
    (hexhausted : s.exhausted = old.exhausted) (hcurrent : s.currentValue = old.currentValue)
    (h : a.continued old s = .ok t) : t.Sound ∧ Continues old t := by
  have ht := continued_eq h
  cases hcase : old.unused with
  | true =>
      rw [hcase, if_pos rfl] at ht
      subst ht
      have hnotExhausted : s.exhausted = false := by
        simp [hexhausted, hold.exhausted, hcase]
      refine ⟨sound_of_check hs (by simp [hnotExhausted, hunused, hcase]), ⟨hunused, ?_, ?_⟩⟩
      · intro _
        simp
      · intro hfalse
        simp [hcase] at hfalse
  | false =>
      rw [hcase, if_neg (by simp)] at ht
      subst ht
      refine ⟨sound_of_check hs (by simp [hunused, hcase, hcurrent]), ⟨hunused, ?_, ?_⟩⟩
      · intro htrue
        simp [hcase] at htrue
      · exact fun _ => hcurrent

theorem alterSequence_ok {old t : Sequence} {options : List SequenceGeneratorOption}
    (hold : old.Sound) (h : alterSequence old options = .ok t) :
    t.Sound ∧ (options.any (·.isRestart) = false → Continues old t) := by
  obtain ⟨_, hcheck, h⟩ := ok_of_bind h
  obtain ⟨hunused, hexhausted, hcurrent, hrestart⟩ :=
    foldl_alterOption options ⟨old, none, false, false⟩
  generalize options.foldl alterOption ⟨old, none, false, false⟩ = a at *
  obtain ⟨hunused', hexhausted', hcurrent'⟩ := a.keepLimits_position old
  cases hcase : a.restart with
  | some restart =>
      rw [hcase] at h
      obtain ⟨_, -, h⟩ := ok_of_bind h
      cases h
      refine ⟨sound_of_check hcheck (by simp), fun hnone => ?_⟩
      rw [hrestart hnone] at hcase
      cases hcase
  | none =>
      rw [hcase] at h
      have hcontinued := Altering.continued_ok hold hcheck (hunused'.trans hunused)
        (hexhausted'.trans hexhausted) (hcurrent'.trans hcurrent) h
      exact ⟨hcontinued.1, fun _ => hcontinued.2⟩

theorem withIdentityRange_same (t : DataType) (s : Sequence) :
    (withIdentityRange t s).incrementBy = s.incrementBy ∧
      (withIdentityRange t s).unused = s.unused ∧
      (withIdentityRange t s).exhausted = s.exhausted ∧
      (withIdentityRange t s).currentValue = s.currentValue := by
  unfold withIdentityRange
  dsimp only
  split <;> split <;> exact ⟨rfl, rfl, rfl, rfl⟩

theorem alterIdentitySequence_ok {typ : DataType} {old t : Sequence}
    {options : List SequenceGeneratorOption} (hold : old.Sound)
    (h : alterIdentitySequence typ old options = .ok t) :
    t.Sound ∧ (options.any (·.isRestart) = false → Continues old t) := by
  obtain ⟨s, halter, h⟩ := ok_of_bind h
  obtain ⟨_, hcheck, h⟩ := ok_of_bind h
  cases h
  obtain ⟨hsound, hcontinues⟩ := alterSequence_ok hold halter
  obtain ⟨hincrement, hunused, hexhausted, hcurrent⟩ := withIdentityRange_same typ s
  refine ⟨sound_of_check (checkIdentitySequence_ok hcheck) ?_, fun hnone => ?_⟩
  · rw [hexhausted, hunused, hcurrent, hincrement]
    exact hsound.exhausted
  · obtain ⟨hunused', hnext, hlast⟩ := hcontinues hnone
    refine ⟨hunused.trans hunused', ?_, ?_⟩
    · rw [hcurrent, hincrement]
      exact hnext
    · rw [hcurrent]
      exact hlast

namespace SequenceOwner

variable {formats : FloatFormat} {owner : SequenceOwner} {s t : Sequence}
  {options : List SequenceGeneratorOption}

theorem read_sound (h : s.Sound) : (owner.read s).Sound := (owner.widens_read s).sound h

theorem alter_ok (hs : s.Sound) (h : owner.alter formats s options = .ok t) :
    t.Sound ∧ (options.any (·.isRestart) = false → Continues s t) := by
  have hsame := (owner.widens_read s).same
  have hread : t.Sound ∧ (options.any (·.isRestart) = false → Continues (owner.read s) t) := by
    obtain ⟨_, -, h⟩ := ok_of_bind h
    cases owner with
    | external => exact alterSequence_ok (read_sound hs) h
    | identity typ => exact alterIdentitySequence_ok (read_sound hs) h
  refine ⟨hread.1, fun hnone => ?_⟩
  obtain ⟨hunused, hnext, hlast⟩ := hread.2 hnone
  rw [hsame] at hunused hnext hlast
  exact ⟨hunused, hnext, hlast⟩

theorem nextValue_cases (owner : SequenceOwner) (h : s.Sound) :
    (∃ v, owner.nextValue s = .ok (s.issue v, v) ∧ v.toInt = s.base ∧
      (owner.read s).Within s.base) ∨
      (owner.nextValue s = .ok (s.issue (owner.read s).reset, (owner.read s).reset) ∧
        s.cycle = true ∧ ¬ (owner.read s).Within s.base) ∨
        (owner.nextValue s = .error (sqlstate2200H s.name.str.str) ∧ s.cycle = false ∧
          ¬ (owner.read s).Within s.base) := by
  have hsame := (owner.widens_read s).same
  have hbase : (owner.read s).base = s.base := by
    rw [hsame]
    rfl
  have hcycle : (owner.read s).cycle = s.cycle := by rw [hsame]
  have hname : (owner.read s).name = s.name := by rw [hsame]
  have hissue (v : Int64) (hnext : (owner.read s).next = .ok ((owner.read s).issue v)) :
      owner.nextValue s = .ok (s.issue v, v) := by
    have hincrement : (owner.read s).incrementBy = s.incrementBy := by rw [hsame]
    rw [nextValue, hnext, issue, issue, hincrement]
    rfl
  have hcases := next_cases (owner.read_sound h)
  rw [hbase, hcycle, hname] at hcases
  obtain ⟨v, hnext, hv⟩ | ⟨hnext, hv⟩ | ⟨hnext, hv⟩ := hcases
  · exact .inl ⟨v, hissue v hnext, hv⟩
  · exact .inr (.inl ⟨hissue _ hnext, hv⟩)
  · refine .inr (.inr ⟨?_, hv⟩)
    rw [nextValue, hnext]
    rfl

theorem respond_nextValue_ok {v : Int64} (h : owner.nextValue s = .ok (t, v)) :
    owner.respond formats s .nextValue = (.ok (some v), t) := by
  rw [respond, h]
  rfl

theorem respond_nextValue_error {e : Failure} (h : owner.nextValue s = .error e) :
    owner.respond formats s .nextValue = (.error e, s) := by
  rw [respond, h]
  rfl

theorem respond_alter_ok (h : owner.alter formats s options = .ok t) :
    owner.respond formats s (.alter options) = (.ok none, t) := by
  rw [respond, h]
  rfl

theorem respond_alter_error {e : Failure} (h : owner.alter formats s options = .error e) :
    owner.respond formats s (.alter options) = (.error e, s) := by
  rw [respond, h]
  rfl

theorem respond_sound (h : s.Sound) (request : SequenceRequest) :
    (owner.respond formats s request).2.Sound := by
  cases request with
  | nextValue =>
      obtain ⟨v, hnext, -⟩ | ⟨hnext, -⟩ | ⟨hnext, -⟩ := nextValue_cases owner h
      · rw [respond_nextValue_ok hnext]
        exact h.issue v
      · rw [respond_nextValue_ok hnext]
        exact h.issue _
      · rw [respond_nextValue_error hnext]
        exact h
  | alter options =>
      cases halter : owner.alter formats s options with
      | ok t =>
          rw [respond_alter_ok halter]
          exact (alter_ok h halter).1
      | error e =>
          rw [respond_alter_error halter]
          exact h

/-! ## Runs -/

def Reachable (formats : FloatFormat) (owner : SequenceOwner) (s : Sequence) : Prop :=
  ∃ name options created requests, owner.create formats name options = .ok created ∧
    s = (owner.generator formats).after created requests

theorem Reachable.sound (h : owner.Reachable formats s) : s.Sound := by
  obtain ⟨name, options, created, requests, hcreate, rfl⟩ := h
  have hcreated := create_sound hcreate
  refine Machine.after_invariant ?_ hcreated
  exact fun _ request hs => respond_sound hs request

def issuedValue : Except Failure (Option Int64) → Option Int64
  | .ok v => v
  | .error _ => none

def issued (formats : FloatFormat) (owner : SequenceOwner) (s : Sequence)
    (requests : List SequenceRequest) : List Int64 :=
  ((owner.generator formats).outputs s requests).filterMap issuedValue

/-- A next value without CYCLE, or an ALTER without RESTART (if it does not fail). -/
def KeepsOn (formats : FloatFormat) (owner : SequenceOwner) (s : Sequence) : SequenceRequest → Prop
  | .nextValue => s.cycle = false
  | .alter options =>
      ∀ t, owner.alter formats s options = .ok t → options.any (·.isRestart) = false

def KeepsDirection (formats : FloatFormat) (owner : SequenceOwner) (s : Sequence)
    (request : SequenceRequest) : Prop :=
  0 < s.incrementBy ↔ 0 < (owner.respond formats s request).2.incrementBy

/-- What every value is beyond, as long as the generator keeps its direction. -/
def Ahead (s : Sequence) (x : Int) : Prop :=
  if 0 < s.incrementBy then if s.unused then s.base ≤ x else s.currentValue.toInt < x
  else if s.unused then x ≤ s.base else x < s.currentValue.toInt

theorem ahead_base (h : s.incrementBy ≠ 0) : Ahead s s.base := by
  have hzero : (0 : Int64).toInt = 0 := rfl
  have hne : s.incrementBy.toInt ≠ 0 := by
    intro hincrement
    exact h (Int64.toInt_inj.1 (hincrement.trans hzero.symm))
  simp only [Ahead, Sequence.base, Int64.lt_iff_toInt_lt, hzero]
  cases s.unused with
  | true => simp
  | false =>
      simp only [Bool.false_eq_true, if_false]
      split <;> omega

theorem Continues.ahead {x : Int} (h : Continues s t)
    (hdirection : 0 < s.incrementBy ↔ 0 < t.incrementBy) : Ahead t x ↔ Ahead s x := by
  simp only [Ahead, ← hdirection, h.unused]
  cases hunused : s.unused with
  | true =>
      have hbase : t.base = s.base := by
        simp only [Sequence.base, h.unused, hunused, if_true, h.next hunused]
      simp only [hbase, if_true]
  | false => simp only [h.last hunused, Bool.false_eq_true, if_false]

theorem Ahead.mono {x y : Int} (h : Ahead s y)
    (hxy : if 0 < s.incrementBy then y ≤ x else x ≤ y) : Ahead s x := by
  unfold Ahead at h ⊢
  split at h <;> rename_i hdirection
  · rw [if_pos hdirection] at hxy ⊢
    split at h <;> rename_i hunused
    · rw [if_pos hunused]
      omega
    · rw [if_neg hunused]
      omega
  · rw [if_neg hdirection] at hxy ⊢
    split at h <;> rename_i hunused
    · rw [if_pos hunused]
      omega
    · rw [if_neg hunused]
      omega

theorem ahead_issue {v : Int64} {x : Int} :
    Ahead (s.issue v) x ↔ if 0 < s.incrementBy then v.toInt < x else x < v.toInt := by
  simp only [Ahead, Sequence.issue, Bool.false_eq_true, if_false]

/-- Everything that is issued is ahead, and then the rest is ahead of it. -/
theorem ahead_respond (hs : s.Sound) {request : SequenceRequest}
    (hon : KeepsOn formats owner s request)
    (hdirection : KeepsDirection formats owner s request) :
    (∀ x, Ahead (owner.respond formats s request).2 x → Ahead s x) ∧
      ∀ v, issuedValue (owner.respond formats s request).1 = some v →
        Ahead s v.toInt ∧ ¬ Ahead (owner.respond formats s request).2 v.toInt := by
  cases request with
  | nextValue =>
      obtain ⟨v, hnext, hv, -⟩ | ⟨-, hcycle, -⟩ | ⟨hnext, -⟩ := nextValue_cases owner hs
      · have hbase := ahead_base hs.increment
        rw [respond_nextValue_ok hnext]
        refine ⟨fun x hx => hbase.mono ?_, fun w hw => ?_⟩
        · rw [ahead_issue, hv] at hx
          split <;> rename_i hup
          · rw [if_pos hup] at hx
            omega
          · rw [if_neg hup] at hx
            omega
        · cases hw
          rw [ahead_issue, hv]
          refine ⟨hbase, ?_⟩
          split <;> omega
      · rw [hon] at hcycle
        cases hcycle
      · rw [respond_nextValue_error hnext]
        exact ⟨fun _ hx => hx, by simp [issuedValue]⟩
  | alter options =>
      cases halter : owner.alter formats s options with
      | ok t =>
          have hcontinues := (alter_ok hs halter).2 (hon t halter)
          rw [KeepsDirection, respond_alter_ok halter] at hdirection
          rw [respond_alter_ok halter]
          exact ⟨fun x hx => (Continues.ahead hcontinues hdirection).1 hx, by simp [issuedValue]⟩
      | error e =>
          rw [respond_alter_error halter]
          exact ⟨fun _ hx => hx, by simp [issuedValue]⟩

theorem issued_nodup (hs : s.Sound) {requests : List SequenceRequest}
    (h : (owner.generator formats).Each (fun s request => KeepsOn formats owner s request ∧
      KeepsDirection formats owner s request) s requests) :
    (owner.issued formats s requests).Nodup ∧
      ∀ v ∈ owner.issued formats s requests, Ahead s v.toInt := by
  induction requests generalizing s with
  | nil => exact ⟨List.nodup_nil, by simp [issued, Machine.outputs]⟩
  | cons request requests ih =>
      obtain ⟨⟨hon, hdirection⟩, hrest⟩ := h
      obtain ⟨hbehind, hissued⟩ := ahead_respond hs hon hdirection
      obtain ⟨hnodup, hahead⟩ := ih (respond_sound hs request) hrest
      have hbehindRest : ∀ v ∈ owner.issued formats (owner.respond formats s request).2 requests,
          Ahead s v.toInt := fun v hv => hbehind _ (hahead v hv)
      cases hvalue : issuedValue (owner.respond formats s request).1 with
      | none =>
          have hcons : owner.issued formats s (request :: requests) =
              owner.issued formats (owner.respond formats s request).2 requests :=
            List.filterMap_cons_none hvalue
          rw [hcons]
          exact ⟨hnodup, hbehindRest⟩
      | some v =>
          have hcons : owner.issued formats s (request :: requests) =
              v :: owner.issued formats (owner.respond formats s request).2 requests :=
            List.filterMap_cons_some hvalue
          obtain ⟨hv, hnext⟩ := hissued v hvalue
          rw [hcons, List.nodup_cons, List.forall_mem_cons]
          exact ⟨⟨fun hmem => hnext (hahead v hmem), hnodup⟩, hv, hbehindRest⟩

theorem outputs_of_error {e : Failure} (h : owner.nextValue s = .error e) (n : Nat) :
    (owner.generator formats).outputs s (List.replicate n .nextValue) =
    List.replicate n (.error e) := by
  induction n with
  | zero => rfl
  | succ n ih =>
      simp only [List.replicate_succ, Machine.outputs, generator, respond_nextValue_error h]
      exact congrArg _ ih

theorem nextValue_ok {v : Int64} (hs : s.Sound) (h : owner.nextValue s = .ok (t, v)) :
    t = s.issue v ∧ (owner.read s).Within v.toInt ∧ (v.toInt = s.base ∨
      s.cycle = true ∧ ¬ (owner.read s).Within s.base ∧ v = (owner.read s).reset) := by
  obtain ⟨w, hnext, hw, hwithin⟩ | ⟨hnext, hcycle, hbase⟩ | ⟨hnext, -⟩ := nextValue_cases owner hs
  · cases hnext.symm.trans h
    exact ⟨rfl, hw ▸ hwithin, .inl hw⟩
  · cases hnext.symm.trans h
    exact ⟨rfl, (owner.read_sound hs).reset_within, .inr ⟨hcycle, hbase, rfl⟩⟩
  · cases hnext.symm.trans h

/-- The limits are those that `read` gives the generator. -/
theorem sequence_generator (h : owner.Reachable formats s) :
    (∀ t v, owner.nextValue s = .ok (t, v) → (owner.read s).Within v.toInt) ∧
    (∀ t v u w, owner.nextValue s = .ok (t, v) → owner.nextValue t = .ok (u, w) →
      w.toInt = v.toInt + s.incrementBy.toInt ∨
        s.cycle = true ∧ ¬ (owner.read t).Within (v.toInt + s.incrementBy.toInt) ∧
          w = if 0 < s.incrementBy then (owner.read t).min else (owner.read t).max) ∧
    (∀ requests, (owner.generator formats).Each (fun s request => KeepsOn formats owner s request ∧
      KeepsDirection formats owner s request) s requests →
        (owner.issued formats s requests).Nodup) ∧
    (∀ t v, owner.nextValue s = .ok (t, v) → s.cycle = false →
      ¬ (owner.read t).Within (v.toInt + s.incrementBy.toInt) → ∀ n,
        (owner.generator formats).outputs t (List.replicate n .nextValue) =
          List.replicate n (.error (sqlstate2200H s.name.str.str))) ∧
    (∀ e, owner.nextValue s = .error e →
      e = sqlstate2200H s.name.str.str ∧ s.cycle = false ∧ ∀ n,
        (owner.generator formats).outputs s (List.replicate n .nextValue) =
          List.replicate n (.error e)) := by
  have hs := h.sound
  refine ⟨fun t v hnext => (nextValue_ok hs hnext).2.1, ?_,
    fun requests heach => (issued_nodup hs heach).1, ?_, ?_⟩
  · intro t v u w hfirst hsecond
    obtain ⟨rfl, -⟩ := nextValue_ok hs hfirst
    have hincrement : (owner.read (s.issue v)).incrementBy = s.incrementBy := by
      rw [(owner.widens_read _).same]
      rfl
    have hsecond := (nextValue_ok (hs.issue v) hsecond).2.2
    rw [reset, hincrement] at hsecond
    exact hsecond
  · intro t v hnext hcycle hlimit n
    obtain ⟨rfl, -⟩ := nextValue_ok hs hnext
    obtain ⟨w, -, -, hwithin⟩ | ⟨-, htrue, -⟩ | ⟨herror, -⟩ :=
      nextValue_cases owner (hs.issue v)
    · exact absurd hwithin hlimit
    · exact absurd (hcycle.symm.trans htrue) (by decide)
    · exact outputs_of_error herror n
  · intro e herror
    obtain ⟨w, hnext, -⟩ | ⟨hnext, -⟩ | ⟨hnext, hcycle, -⟩ := nextValue_cases owner hs
    · cases hnext.symm.trans herror
    · cases hnext.symm.trans herror
    · cases hnext.symm.trans herror
      exact ⟨rfl, hcycle, outputs_of_error hnext⟩

def lastValues : List SequenceGeneratorOption :=
  [.startWith (newBigintValue (Int64.maxValue - 3)), .incrementBy (newBigintValue 3)]

def lastSequence : Sequence where
  exhausted := false
  unused := true
  name := { entityName := ['S'] }
  startValue := Int64.maxValue - 3
  currentValue := Int64.maxValue - 6
  incrementBy := 3
  cycle := false
  hasMinValue := false
  minValue := 0
  hasMaxValue := false
  maxValue := 0

/-- No number of the runs below is an approximate one. -/
def exactFormats : FloatFormat := ⟨fun _ _ => []⟩

theorem lastSequence_reachable : external.Reachable exactFormats lastSequence := by
  refine ⟨{ entityName := ['S'] }, lastValues, lastSequence, [], by decide +kernel, rfl⟩

theorem sequence_generator_lastValues :
    (external.generator exactFormats).outputs lastSequence [.nextValue, .nextValue, .nextValue] =
      [.ok (some (Int64.maxValue - 3)), .ok (some Int64.maxValue),
        .error (sqlstate2200H "S")] ∧
      (external.issued exactFormats lastSequence [.nextValue, .nextValue, .nextValue]).Nodup :=
  ⟨by decide +kernel, (sequence_generator lastSequence_reachable).2.2.1 _
    ⟨⟨rfl, Iff.rfl⟩, ⟨rfl, Iff.rfl⟩, ⟨rfl, Iff.rfl⟩, trivial⟩⟩

/-- An ALTER that reverses the direction. -/
def reversed : List SequenceRequest :=
  [.nextValue, .nextValue, .alter [.incrementBy (newBigintValue (-1))], .nextValue]

theorem not_sequence_generator_reversed :
    ¬ ∀ s, external.Reachable exactFormats s → ∀ requests,
      (external.generator exactFormats).Each (KeepsOn exactFormats external) s requests →
        (external.issued exactFormats s requests).Nodup := by
  intro h
  have hnodup := h (SequenceGeneratorDefinition.sequence ⟨{}, [], false⟩ {})
    ⟨{}, [], _, [], rfl, rfl⟩ reversed ⟨rfl, rfl, fun _ _ => rfl, rfl, trivial⟩
  have hissued : external.issued exactFormats
      (SequenceGeneratorDefinition.sequence ⟨{}, [], false⟩ {}) reversed = [1, 2, 1] := by
    decide +kernel
  rw [hissued] at hnodup
  exact absurd hnodup (by decide)

end SequenceOwner

end Vsql
