import Vsql.Sequences.Stored

/-!
# Dumping sequence generators

The dump has the statement that makes a generator with the same options, and then statements
that bring it to the same position.  The value that the generator would issue next, or its last
value if that was issued, is given by a RESTART WITH.
-/

namespace Vsql

open Foundation SequenceGeneratorOption

/-! ## The statements -/

/-- The options of CREATE SEQUENCE or of an identity column, and the statements that come after
it.  The next value is selected for one row. -/
structure DumpedSequence where
  options : List SequenceGeneratorOption
  statements : List SequenceRequest

namespace Sequence

/-- The options of `str`. -/
def options (s : Sequence) : List SequenceGeneratorOption :=
  [startWith (newBigintValue s.startValue)] ++
    ((if s.incrementBy ≠ 1 then [.incrementBy (newBigintValue s.incrementBy)] else []) ++
      ((if s.hasMinValue then [minvalue (some (newBigintValue s.minValue))] else []) ++
        ((if s.hasMaxValue then [maxvalue (some (newBigintValue s.maxValue))] else []) ++
          if s.cycle then [.cycle true] else [])))

def identityOptions (s : Sequence) : List SequenceGeneratorOption :=
  [startWith (newBigintValue s.startValue), .incrementBy (newBigintValue s.incrementBy),
    minvalue (some (newBigintValue s.minValue)), maxvalue (some (newBigintValue s.maxValue))] ++
    if s.cycle then [.cycle true] else []

def restartWith (v : Int64) : SequenceRequest := .alter [restart (some (newBigintValue v))]

/-- A sequence that was used returns its last value again. -/
def restartValue (s : Sequence) : Int64 :=
  if s.unused then s.nextValue.getD s.startValue else s.currentValue

/-- The value that the next row would get.  A sequence that has reached its limit is restarted at
its last value. -/
def identityValue (s : Sequence) : Int64 :=
  match s.next with
  | .ok next => next.currentValue
  | .error _ => s.currentValue

def dump (s : Sequence) : DumpedSequence where
  options := s.options
  statements :=
    if s.unused then if s.restartValue ≠ s.startValue then [restartWith s.restartValue] else []
    else [restartWith s.restartValue, .nextValue]

def dumpIdentity (s : Sequence) : DumpedSequence where
  options := s.identityOptions
  statements :=
    if !s.unused || s.identityValue ≠ s.startValue then [restartWith s.identityValue] else []

end Sequence

namespace SequenceOwner

def dump (owner : SequenceOwner) (s : Sequence) : DumpedSequence :=
  match owner with
  | external => (owner.read s).dump
  | identity _ => (owner.read s).dumpIdentity

def run (formats : FloatFormat) (owner : SequenceOwner) (s : Sequence) :
    SequenceRequest → Except Failure Sequence
  | .nextValue => Prod.fst <$> owner.nextValue s
  | .alter options => owner.alter formats s options

/-- Runs the statements in a database without the generator. -/
def restore (formats : FloatFormat) (owner : SequenceOwner) (name : Identifier)
    (dumped : DumpedSequence) : Except Failure Sequence := do
  let s ← owner.create formats name dumped.options
  dumped.statements.foldlM (owner.run formats) s

end SequenceOwner

/-! ## Making the generator again -/

open Sequence

theorem asInt_newBigintValue (x : Int64) : (newBigintValue x).asInt = x := by
  have hint : (newBigintValue x).asInt = Int64.ofInt x.toInt := rfl
  rw [hint, Int64.ofInt_toInt]

/-- A generator with the same options at its first value. -/
def Sequence.recreated (s : Sequence) (name : Identifier) : Sequence :=
  { newSequence name with
    startValue := s.startValue
    currentValue := s.startValue - s.incrementBy
    incrementBy := s.incrementBy
    cycle := s.cycle
    hasMinValue := s.hasMinValue
    minValue := if s.hasMinValue then s.minValue else 0
    hasMaxValue := s.hasMaxValue
    maxValue := if s.hasMaxValue then s.maxValue else 0 }

variable {formats : FloatFormat} {s : Sequence} {name : Identifier}

theorem sequence_options (s : Sequence) (name : Identifier) :
    SequenceGeneratorDefinition.sequence { name := name, options := s.options } name =
      s.recreated name := by
  unfold SequenceGeneratorDefinition.sequence Sequence.options recreated
  by_cases hincrement : s.incrementBy = 1 <;> cases s.hasMinValue <;> cases s.hasMaxValue <;>
    cases s.cycle <;> simp [hincrement, defineOption, asInt_newBigintValue, newSequence]

theorem sequence_identityOptions (hmin : s.hasMinValue = true) (hmax : s.hasMaxValue = true)
    (name name' : Identifier) :
    SequenceGeneratorDefinition.sequence { name := name', options := s.identityOptions } name =
      s.recreated name := by
  unfold SequenceGeneratorDefinition.sequence identityOptions recreated
  cases s.cycle <;> simp [hmin, hmax, defineOption, asInt_newBigintValue, newSequence]

theorem checkSequenceOptions_options (s : Sequence) :
    checkSequenceOptions formats s.options = .ok () := by
  unfold Sequence.options
  by_cases hincrement : s.incrementBy = 1 <;> cases s.hasMinValue <;> cases s.hasMaxValue <;>
    cases s.cycle <;> simp only [hincrement, ne_eq, not_true_eq_false, not_false_eq_true, if_true,
      if_false, Bool.false_eq_true] <;> rfl

theorem checkSequenceOptions_identityOptions (s : Sequence) :
    checkSequenceOptions formats s.identityOptions = .ok () := by
  unfold identityOptions
  cases s.cycle <;> rfl

theorem min_recreated (s : Sequence) (name : Identifier) : (s.recreated name).min = s.min := by
  unfold recreated Sequence.min
  cases s.hasMinValue <;> rfl

theorem max_recreated (s : Sequence) (name : Identifier) : (s.recreated name).max = s.max := by
  unfold recreated Sequence.max
  cases s.hasMaxValue <;> rfl

theorem check_eq_ok (hincrement : s.incrementBy ≠ 0) (hlimits : s.min < s.max) :
    s.check = .ok () := by
  rw [check, if_neg hincrement, if_neg (Int64.not_le.mpr hlimits)]

theorem checkInRange_eq_ok {v : Int64} (h : s.Within v.toInt) (name : String) :
    s.checkInRange name v = .ok () := by
  have hmin : ¬v < s.min := by
    rw [Int64.lt_iff_toInt_lt]
    exact not_lt.mpr h.1
  have hmax : ¬v > s.max := by
    rw [gt_iff_lt, Int64.lt_iff_toInt_lt]
    exact not_lt.mpr h.2
  rw [checkInRange, if_neg hmin, if_neg hmax]

theorem within_of_checkInRange {v : Int64} {name : String} (h : s.checkInRange name v = .ok ()) :
    s.Within v.toInt := by
  unfold checkInRange at h
  split at h
  · cases h
  · rename_i hmin
    split at h
    · cases h
    · rename_i hmax
      exact ⟨Int64.le_iff_toInt_le.mp (Int64.not_lt.mp hmin),
        Int64.le_iff_toInt_le.mp (Int64.not_lt.mp hmax)⟩

theorem sound_recreated (hs : s.Sound) (name : Identifier) : (s.recreated name).Sound := by
  refine ⟨hs.increment, ?_, rfl⟩
  rw [min_recreated, max_recreated]
  exact hs.limits

theorem within_recreated {x : Int} : (s.recreated name).Within x ↔ s.Within x := by
  rw [Within, min_recreated, max_recreated, Within]

theorem create_options (hs : s.Sound) (hstart : s.Within s.startValue.toInt) :
    SequenceOwner.external.create formats name s.options = .ok (s.recreated name) := by
  have hsound := sound_recreated hs name
  have hcheck := check_eq_ok hsound.increment hsound.limits
  have hrange : (s.recreated name).checkInRange "START WITH" (s.recreated name).startValue =
      .ok () :=
    checkInRange_eq_ok (within_recreated.mpr hstart) _
  unfold SequenceOwner.create SequenceGeneratorDefinition.create
  simp only [checkSequenceOptions_options, sequence_options]
  simp only [Bind.bind, Except.bind, hcheck, hrange]
  rfl

/-! ## The position -/

/-- The generator whose next value is `v`. -/
def Sequence.restarted (s : Sequence) (v : Int64) : Sequence :=
  { s with currentValue := v - s.incrementBy, exhausted := false, unused := true }

theorem alterSequence_restart (hs : s.Sound) {v : Int64} (hv : s.Within v.toInt) :
    alterSequence s [restart (some (newBigintValue v))] = .ok (s.restarted v) := by
  have hcheck := check_eq_ok hs.increment hs.limits
  have hrange := checkInRange_eq_ok hv "RESTART WITH"
  have hkept : Altering.keepLimits ⟨s, some (v, "RESTART WITH"), false, false⟩ s = s := by
    simp [Altering.keepLimits]
  unfold alterSequence
  simp only [List.foldl, alterOption, asInt_newBigintValue, hkept, Bind.bind, Except.bind, hcheck,
    hrange]
  rfl

theorem sound_restarted (hs : s.Sound) (v : Int64) : (s.restarted v).Sound :=
  ⟨hs.increment, hs.limits, rfl⟩

theorem within_restarted {v : Int64} {x : Int} : (s.restarted v).Within x ↔ s.Within x :=
  Iff.rfl

theorem base_restarted (s : Sequence) (v : Int64) : (s.restarted v).base = v.toInt := by
  simp [Sequence.base, restarted]

namespace SequenceOwner

variable {owner : SequenceOwner} {t : Sequence} {v : Int64}

/-- The limits that the sequence is read with, whatever its last value was. -/
def limited (owner : SequenceOwner) (s : Sequence) : Sequence :=
  match owner with
  | external => s.keepOldLimits s s.startValue
  | identity _ => s

theorem widens_limited (owner : SequenceOwner) (s : Sequence) :
    s.Widens (owner.limited s) := by
  have hrefl : s.Widens s := ⟨rfl, Int64.le_refl _, Int64.le_refl _⟩
  cases owner with
  | external => exact hrefl.keepOldLimits
  | identity typ => exact hrefl

theorem keepOldLimits_eq_self (hmin : t.hasMinValue = false → s.min ≤ v)
    (hmax : t.hasMaxValue = false → v ≤ s.max) : s.keepOldLimits t v = t := by
  have hlow : ¬(!t.hasMinValue && v < s.min) = true := by
    cases hhas : t.hasMinValue with
    | true => simp
    | false => simpa using hmin hhas
  have hhigh : ¬(!t.hasMaxValue && v > s.max) = true := by
    cases hhas : t.hasMaxValue with
    | true => simp
    | false => simpa using hmax hhas
  unfold keepOldLimits
  rw [if_neg hlow, if_neg hhigh]

theorem limited_eq_self (h : s.Within s.startValue.toInt) : owner.limited s = s := by
  cases owner with
  | external =>
      exact keepOldLimits_eq_self (fun _ => Int64.le_iff_toInt_le.mpr h.1)
        (fun _ => Int64.le_iff_toInt_le.mpr h.2)
  | identity typ => rfl

theorem limited_issue (owner : SequenceOwner) (s : Sequence) (v : Int64) :
    owner.limited (s.issue v) = (owner.limited s).issue v := by
  cases owner with
  | external =>
      unfold limited keepOldLimits
      dsimp only
      have hmin : (s.issue v).min = s.min := rfl
      have hmax : (s.issue v).max = s.max := rfl
      have hstart : (s.issue v).startValue = s.startValue := rfl
      rw [hmin, hmax, hstart]
      generalize decide (s.startValue < s.min) = low, decide (s.startValue > s.max) = high
      cases low <;> cases high <;> cases hlow : s.hasMinValue <;> cases hhigh : s.hasMaxValue <;>
        simp [Sequence.issue, hlow, hhigh]
  | identity typ => rfl

theorem read_eq_limited
    (h : s.unused = false → (owner.limited s).Within s.currentValue.toInt) :
    owner.read s = owner.limited s := by
  cases owner with
  | identity typ => rfl
  | external =>
      unfold read limited withOldImplicitLimits
      cases hunused : s.unused with
      | true => rfl
      | false =>
          have hwithin := h hunused
          refine keepOldLimits_eq_self (fun hhas => ?_) (fun hhas => ?_)
          · rw [hasMinValue_keepOldLimits, Bool.or_eq_false_iff] at hhas
            have hlow := hwithin.1
            rw [limited, min_keepOldLimits, if_neg (by simpa using fun _ => hhas.2)] at hlow
            exact Int64.le_iff_toInt_le.mpr hlow
          · rw [hasMaxValue_keepOldLimits, Bool.or_eq_false_iff] at hhas
            have hhigh := hwithin.2
            rw [limited, max_keepOldLimits, if_neg (by simpa using fun _ => hhas.2)] at hhigh
            exact Int64.le_iff_toInt_le.mpr hhigh

/-! ## Issuing the same values -/

/-- Two generators of one name that are at the same position. -/
structure Alike (owner : SequenceOwner) (s t : Sequence) : Prop where
  sound : s.Sound
  sound' : t.Sound
  read : owner.read s = owner.limited s
  read' : owner.read t = owner.limited t
  issues : (owner.limited s).IssuesAlike (owner.limited t)
  name : t.name = s.name

theorem read_issue (h : (owner.limited s).Within v.toInt) :
    owner.read (s.issue v) = owner.limited (s.issue v) := by
  refine read_eq_limited fun _ => ?_
  rw [limited_issue]
  exact h

theorem Alike.issue (h : owner.Alike s t) (hv : (owner.limited s).Within v.toInt) :
    owner.Alike (s.issue v) (t.issue v) := by
  have hv' : (owner.limited t).Within v.toInt := by
    rw [Within, h.issues.min, h.issues.max]
    exact hv
  refine ⟨h.sound.issue v, h.sound'.issue v, read_issue hv, read_issue hv', ?_, h.name⟩
  rw [limited_issue, limited_issue]
  exact h.issues.issue v

/-- The next value is decided by the limits and the position. -/
theorem nextValue_limited (hread : owner.read s = owner.limited s) :
    owner.nextValue s = match (owner.limited s).nextValue with
      | some v => .ok (s.issue v, v)
      | none =>
          if (owner.limited s).cycle then
            .ok (s.issue (owner.limited s).reset, (owner.limited s).reset)
          else .error (sqlstate2200H s.name.str.str) := by
  have hsame := (owner.widens_limited s).same
  have hincrement : (owner.limited s).incrementBy = s.incrementBy := by rw [hsame]
  have hname : (owner.limited s).name = s.name := by rw [hsame]
  have hissue (v : Int64) : s.withValueOf ((owner.limited s).issue v) = s.issue v := by
    rw [Sequence.issue, Sequence.issue, hincrement]
    rfl
  rw [nextValue, hread, next]
  cases (owner.limited s).nextValue with
  | some v => exact congrArg (fun t => Except.ok (t, v)) (hissue v)
  | none =>
      cases (owner.limited s).cycle with
      | true => exact congrArg (fun t => Except.ok (t, _)) (hissue _)
      | false =>
          rw [hname]
          rfl

variable (formats) in
theorem Alike.respond_nextValue (h : owner.Alike s t) :
    (owner.respond formats t .nextValue).1 = (owner.respond formats s .nextValue).1 ∧
      owner.Alike (owner.respond formats s .nextValue).2
        (owner.respond formats t .nextValue).2 := by
  have hs := nextValue_limited h.read
  have ht := nextValue_limited h.read'
  rw [h.issues.nextValue, h.issues.cycle, h.issues.reset, h.name] at ht
  have hwithin : ∀ u w, owner.nextValue s = .ok (u, w) → (owner.limited s).Within w.toInt := by
    intro u w hnext
    rw [← h.read]
    exact (nextValue_ok h.sound hnext).2.1
  have hissued (w : Int64) (hs : owner.nextValue s = .ok (s.issue w, w))
      (ht : owner.nextValue t = .ok (t.issue w, w)) :
      (owner.respond formats t .nextValue).1 = (owner.respond formats s .nextValue).1 ∧
        owner.Alike (owner.respond formats s .nextValue).2
          (owner.respond formats t .nextValue).2 := by
    rw [respond_nextValue_ok hs, respond_nextValue_ok ht]
    exact ⟨rfl, h.issue (hwithin _ _ hs)⟩
  cases hnext : (owner.limited s).nextValue with
  | some w =>
      rw [hnext] at hs ht
      exact hissued w hs ht
  | none =>
      cases hcycle : (owner.limited s).cycle with
      | true =>
          rw [hnext, hcycle, if_pos rfl] at hs ht
          exact hissued _ hs ht
      | false =>
          rw [hnext, hcycle, if_neg (by decide)] at hs ht
          rw [respond_nextValue_error hs, respond_nextValue_error ht]
          exact ⟨rfl, h⟩

variable (formats) in
theorem Alike.outputs (h : owner.Alike s t) (n : Nat) :
    (owner.generator formats).outputs t (List.replicate n .nextValue) =
      (owner.generator formats).outputs s (List.replicate n .nextValue) := by
  induction n generalizing s t with
  | zero => rfl
  | succ n ih =>
      obtain ⟨houtput, hafter⟩ := h.respond_nextValue formats
      simp only [List.replicate_succ, Machine.outputs, generator, houtput]
      exact congrArg _ (ih hafter)

/-- Generators that issue the same value and are then at the same position. -/
theorem outputs_of_nextValue {s' t' : Sequence} (hs : owner.nextValue s = .ok (s', v))
    (ht : owner.nextValue t = .ok (t', v)) (h : owner.Alike s' t') (n : Nat) :
    (owner.generator formats).outputs t (List.replicate n .nextValue) =
      (owner.generator formats).outputs s (List.replicate n .nextValue) := by
  cases n with
  | zero => rfl
  | succ n =>
      simp only [List.replicate_succ, Machine.outputs, generator, respond_nextValue_ok hs,
        respond_nextValue_ok ht]
      exact congrArg _ (h.outputs formats n)

/-! ## Restarting -/

theorem read_restarted (hstart : s.Within s.startValue.toInt) (v : Int64) :
    owner.read (s.restarted v) = s.restarted v := by
  have hstart' : (s.restarted v).Within (s.restarted v).startValue.toInt := hstart
  have hunused : (s.restarted v).unused ≠ false := by simp [restarted]
  rw [read_eq_limited (fun hused => absurd hused hunused), limited_eq_self hstart']

theorem nextValue_restarted (hs : s.Sound) (hstart : s.Within s.startValue.toInt)
    (hv : s.Within v.toInt) :
    owner.nextValue (s.restarted v) = .ok ((s.restarted v).issue v, v) := by
  have hcases := nextValue_cases owner (sound_restarted hs v)
  rw [read_restarted hstart, base_restarted] at hcases
  obtain ⟨w, hnext, hw, -⟩ | ⟨-, -, hwithin⟩ | ⟨-, -, hwithin⟩ := hcases
  · rw [Int64.toInt_inj.1 hw] at hnext
    exact hnext
  · exact absurd hv hwithin
  · exact absurd hv hwithin

/-- A generator that was made again is already at its first value. -/
theorem restarted_recreated (s : Sequence) (name : Identifier) :
    (s.recreated name).restarted s.startValue = s.recreated name := rfl

variable (formats) in
theorem run_restartWith (hs : s.Sound) (hstart : s.Within s.startValue.toInt)
    (hunused : s.unused = true) (hv : s.Within v.toInt) :
    external.run formats s (restartWith v) = .ok (s.restarted v) := by
  have hread : external.read s = s := by
    rw [read_eq_limited (fun hused => absurd hused (by rw [hunused]; decide)),
      limited_eq_self hstart]
  have hoptions : checkSequenceOptions formats [restart (some (newBigintValue v))] = .ok () := rfl
  rw [restartWith, run, alter, hoptions, hread]
  exact alterSequence_restart hs hv

theorem within_of_widens {x : Int} (h : s.Widens t) (hx : s.Within x) : t.Within x := by
  have hmin := Int64.le_iff_toInt_le.mp h.min
  have hmax := Int64.le_iff_toInt_le.mp h.max
  exact ⟨hmin.trans hx.1, hx.2.trans hmax⟩

/-- The value that comes first is within the limits, because ALTER compares it with every limit
that it changes. -/
def FirstWithin (s : Sequence) : Prop := s.unused = true → s.Within s.base

variable (formats) in
theorem restore_external {u : Sequence} (hs : u.Sound) (hstart : u.Within u.startValue.toInt)
    (hrestart : u.Within u.restartValue.toInt) (name : Identifier) :
    external.restore formats name u.dump = .ok (
      if u.unused then (u.recreated name).restarted u.restartValue
      else ((u.recreated name).restarted u.restartValue).issue u.restartValue) := by
  have hsound := sound_recreated hs name
  have hstart' : (u.recreated name).Within (u.recreated name).startValue.toInt :=
    within_recreated.mpr hstart
  have hrestart' : (u.recreated name).Within u.restartValue.toInt := within_recreated.mpr hrestart
  have hrun := run_restartWith formats hsound hstart' rfl hrestart'
  rw [restore, Sequence.dump, create_options hs hstart]
  cases hunused : u.unused with
  | true =>
      by_cases hsame : u.restartValue = u.startValue
      · simp only [hsame, ne_eq, not_true_eq_false, if_true, if_false, restarted_recreated]
        rfl
      · simp only [if_pos hsame, if_true, List.foldlM, Bind.bind, Except.bind, hrun]
        rfl
  | false =>
      have hnext : external.run formats ((u.recreated name).restarted u.restartValue) .nextValue =
          .ok (((u.recreated name).restarted u.restartValue).issue u.restartValue) := by
        rw [run, nextValue_restarted hsound hstart' hrestart']
        rfl
      simp only [Bool.false_eq_true, if_false, List.foldlM, Bind.bind, Except.bind, hrun, hnext]
      rfl

theorem restartValue_unused (hs : s.Sound) (hunused : s.unused = true)
    (hwithin : s.Within s.base) : s.restartValue - s.incrementBy = s.currentValue := by
  obtain ⟨-, hout⟩ | ⟨v, hnext, hv, -⟩ := nextValue_eq hs
  · exact absurd hwithin hout
  · rw [Sequence.base, if_pos hunused] at hv
    rw [Sequence.restartValue, if_pos hunused, hnext, Option.getD_some, Int64.toInt_inj.1 hv]
    simp

theorem restored_external (hs : s.Sound) (hfirst : FirstWithin s)
    (hstart : (external.limited s).Within s.startValue.toInt)
    (hrestart : (external.limited s).Within (external.read s).restartValue.toInt) :
    ∃ t, external.restore formats s.name (external.dump s) = .ok t ∧ external.Alike s t := by
  have hsame := (external.widens_limited s).same
  have hread : external.read s = external.limited s := by
    refine read_eq_limited fun hused => ?_
    have hreadSame := (external.widens_read s).same
    have hunused : (external.read s).unused = false := by rw [hreadSame, hused]
    rw [Sequence.restartValue, hunused, if_neg (by decide), hreadSame] at hrestart
    exact hrestart
  have hsound : (external.limited s).Sound := (external.widens_limited s).sound hs
  have hbase : (external.limited s).base = s.base := by
    rw [hsame]
    rfl
  have hunused : (external.limited s).unused = s.unused := by rw [hsame]
  have hname : (external.limited s).name = s.name := by rw [hsame]
  have hfirst' : FirstWithin (external.limited s) := by
    intro hlimited
    rw [hbase]
    exact within_of_widens (external.widens_limited s) (hfirst (hunused ▸ hlimited))
  have hstart' : (external.limited s).Within (external.limited s).startValue.toInt := by
    have hstartValue : (external.limited s).startValue = s.startValue := by rw [hsame]
    rw [hstartValue]
    exact hstart
  rw [hread] at hrestart
  have hrestored := restore_external formats hsound hstart' hrestart s.name
  rw [dump, hread, hrestored]
  generalize hlimited : external.limited s = u at *
  have hrecreated := sound_recreated hsound s.name
  have hrecreatedStart : (u.recreated s.name).Within (u.recreated s.name).startValue.toInt :=
    within_recreated.mpr hstart'
  have hrestarted (v : Int64) : external.limited ((u.recreated s.name).restarted v) =
      (u.recreated s.name).restarted v := limited_eq_self hrecreatedStart
  have hexhausted := hsound.exhausted
  refine ⟨_, rfl, ?_⟩
  cases hcase : u.unused with
  | true =>
      rw [if_pos rfl]
      refine ⟨hs, sound_restarted hrecreated _, hread.trans hlimited.symm, ?_, ?_, rfl⟩
      · rw [read_restarted hrecreatedStart, hrestarted]
      · rw [hlimited, hrestarted]
        have hcurrent := restartValue_unused hsound hcase (hfirst' hcase)
        rw [hcase, Bool.not_true, Bool.false_and] at hexhausted
        exact ⟨hcurrent, hexhausted.symm, rfl, rfl, min_recreated u s.name,
          max_recreated u s.name⟩
  | false =>
      rw [if_neg (by decide)]
      have hvalue : u.restartValue = u.currentValue := by
        rw [Sequence.restartValue, hcase, if_neg (by decide)]
      have hwithin : (external.limited ((u.recreated s.name).restarted u.restartValue)).Within
          u.restartValue.toInt := by
        rw [hrestarted, within_restarted, within_recreated]
        exact hrestart
      have hread' := read_issue hwithin
      have hsound' := (sound_restarted hrecreated u.restartValue).issue u.restartValue
      refine ⟨hs, hsound', hread.trans hlimited.symm, hread', ?_, rfl⟩
      rw [hlimited, limited_issue, hrestarted, hvalue]
      rw [hcase, Bool.not_false, Bool.true_and] at hexhausted
      exact ⟨rfl, hexhausted.symm, rfl, rfl, min_recreated u s.name, max_recreated u s.name⟩

/-! ## What every request keeps -/

theorem foldl_alterOption_limits (options : List SequenceGeneratorOption) (a : Altering) :
    ((options.foldl alterOption a).newMinValue = false →
      a.newMinValue = false ∧
        (options.foldl alterOption a).sequence.hasMinValue = a.sequence.hasMinValue ∧
        (options.foldl alterOption a).sequence.minValue = a.sequence.minValue) ∧
    ((options.foldl alterOption a).newMaxValue = false →
      a.newMaxValue = false ∧
        (options.foldl alterOption a).sequence.hasMaxValue = a.sequence.hasMaxValue ∧
        (options.foldl alterOption a).sequence.maxValue = a.sequence.maxValue) := by
  induction options generalizing a with
  | nil => exact ⟨fun h => ⟨h, rfl, rfl⟩, fun h => ⟨h, rfl, rfl⟩⟩
  | cons option options ih =>
      obtain ⟨hmin, hmax⟩ := ih (alterOption a option)
      rw [List.foldl_cons]
      constructor
      · intro hnew
        obtain ⟨hfirst, hhas, hvalue⟩ := hmin hnew
        rw [hhas, hvalue]
        cases option with
        | minvalue v => cases v <;> cases hfirst
        | restart v | maxvalue v => cases v <;> exact ⟨hfirst, rfl, rfl⟩
        | _ => exact ⟨hfirst, rfl, rfl⟩
      · intro hnew
        obtain ⟨hfirst, hhas, hvalue⟩ := hmax hnew
        rw [hhas, hvalue]
        cases option with
        | maxvalue v => cases v <;> cases hfirst
        | restart v | minvalue v => cases v <;> exact ⟨hfirst, rfl, rfl⟩
        | _ => exact ⟨hfirst, rfl, rfl⟩

theorem min_keepLimits {a : Altering} {old : Sequence} (hnew : a.newMinValue = false)
    (hhas : a.sequence.hasMinValue = old.hasMinValue)
    (hvalue : a.sequence.minValue = old.minValue) : (a.keepLimits old).min = old.min := by
  unfold Altering.keepLimits Sequence.min
  dsimp only
  rw [hnew]
  cases hmin : old.hasMinValue <;> cases hmax : (!a.newMaxValue && !old.hasMaxValue) <;>
    by_cases hdirection : decide (old.incrementBy > 0) = decide (a.sequence.incrementBy > 0) <;>
    simp_all

theorem max_keepLimits {a : Altering} {old : Sequence} (hnew : a.newMaxValue = false)
    (hhas : a.sequence.hasMaxValue = old.hasMaxValue)
    (hvalue : a.sequence.maxValue = old.maxValue) : (a.keepLimits old).max = old.max := by
  unfold Altering.keepLimits Sequence.max
  dsimp only
  rw [hnew]
  cases hmin : (!a.newMinValue && !old.hasMinValue) <;> cases hmax : old.hasMaxValue <;>
    by_cases hdirection : decide (old.incrementBy > 0) = decide (a.sequence.incrementBy > 0) <;>
    simp_all

/-- A limit that was changed is compared with the value that comes first. -/
theorem continued_within {a : Altering} {old s t : Sequence} (hunused : old.unused = true)
    (h : a.continued old s = .ok t) :
    (a.newMinValue = true → s.min ≤ old.currentValue + old.incrementBy) ∧
      (a.newMaxValue = true → old.currentValue + old.incrementBy ≤ s.max) := by
  unfold Altering.continued at h
  have hmin : ({ s with
      currentValue := old.currentValue + old.incrementBy - s.incrementBy } : Sequence).min =
      s.min := rfl
  have hmax : ({ s with
      currentValue := old.currentValue + old.incrementBy - s.incrementBy } : Sequence).max =
      s.max := rfl
  simp only [hunused, if_true, Bool.true_and, hmin, hmax] at h
  split at h
  · cases h
  · rename_i hlow
    split at h
    · cases h
    · rename_i hhigh
      refine ⟨fun hnew => ?_, fun hnew => ?_⟩
      · simpa [hnew] using hlow
      · simpa [hnew] using hhigh

theorem alterSequence_first {old t : Sequence} {options : List SequenceGeneratorOption}
    (hold : FirstWithin old) (h : alterSequence old options = .ok t) : FirstWithin t := by
  obtain ⟨_, -, h⟩ := ok_of_bind h
  obtain ⟨hmin, hmax⟩ := foldl_alterOption_limits options ⟨old, none, false, false⟩
  obtain ⟨hunused, -, -, -⟩ := foldl_alterOption options ⟨old, none, false, false⟩
  generalize options.foldl alterOption ⟨old, none, false, false⟩ = a at *
  obtain ⟨hunused', -, -⟩ := a.keepLimits_position old
  intro ht
  cases hcase : a.restart with
  | some restart =>
      rw [hcase] at h
      obtain ⟨_, hrange, h⟩ := ok_of_bind h
      have heq : t = (a.keepLimits old).restarted restart.1 := (Except.ok.inj h).symm
      rw [heq, base_restarted, within_restarted]
      exact within_of_checkInRange hrange
  | none =>
      rw [hcase] at h
      have heq := Altering.continued_eq h
      have hfirst : old.unused = true := by
        rw [heq] at ht
        rw [← hunused, ← hunused']
        split at ht <;> exact ht
      obtain ⟨hlow, hhigh⟩ := continued_within hfirst h
      have hbase : old.base = (old.currentValue + old.incrementBy).toInt := if_pos hfirst
      have hbase' : t.base = (old.currentValue + old.incrementBy).toInt := by
        rw [Sequence.base, if_pos ht, heq, if_pos hfirst]
        simp
      have hwithin := hold hfirst
      have hlimits : t.Within t.base ↔ (a.keepLimits old).Within t.base := by
        rw [heq, if_pos hfirst]
        exact Iff.rfl
      rw [hlimits, hbase']
      rw [hbase] at hwithin
      constructor
      · cases hnew : a.newMinValue with
        | true => exact Int64.le_iff_toInt_le.mp (hlow hnew)
        | false =>
            obtain ⟨-, hhas, hvalue⟩ := hmin hnew
            rw [min_keepLimits hnew hhas hvalue]
            exact hwithin.1
      · cases hnew : a.newMaxValue with
        | true => exact Int64.le_iff_toInt_le.mp (hhigh hnew)
        | false =>
            obtain ⟨-, hhas, hvalue⟩ := hmax hnew
            rw [max_keepLimits hnew hhas hvalue]
            exact hwithin.2

theorem FirstWithin.read (h : FirstWithin s) : FirstWithin (external.read s) := by
  have hwidens := external.widens_read s
  have hbase : (external.read s).base = s.base := by
    rw [hwidens.same]
    rfl
  intro hunused
  rw [hwidens.same] at hunused
  rw [hbase]
  exact within_of_widens hwidens (h hunused)

theorem next_unused (h : s.next = .ok t) : t.unused = false := by
  unfold next at h
  split at h
  · cases h
    rfl
  · split at h
    · cases h
      rfl
    · cases h

theorem base_sequence (stmt : SequenceGeneratorDefinition) (name : Identifier) :
    (stmt.sequence name).base = (stmt.sequence name).startValue.toInt := by
  rw [Sequence.base, sequence_unused, if_pos rfl]
  simp [SequenceGeneratorDefinition.sequence]

theorem Reachable.first (h : external.Reachable formats s) : FirstWithin s := by
  obtain ⟨name, options, created, requests, hcreate, rfl⟩ := h
  have hcreated : FirstWithin created := by
    obtain ⟨_, -, hcreate⟩ := ok_of_bind hcreate
    obtain ⟨_, -, hcreate⟩ := ok_of_bind hcreate
    obtain ⟨_, hrange, hcreate⟩ := ok_of_bind hcreate
    cases hcreate
    intro _
    rw [base_sequence]
    exact within_of_checkInRange hrange
  refine Machine.after_invariant ?_ hcreated
  intro s request hs
  cases request with
  | nextValue =>
      cases hnext : external.nextValue s with
      | ok p =>
          show FirstWithin (external.respond formats s .nextValue).2
          rw [respond_nextValue_ok hnext]
          obtain ⟨next, hissue, hp⟩ := ok_of_bind hnext
          cases hp
          intro hunused
          have hused : next.unused = false := next_unused hissue
          exact absurd (hused.symm.trans hunused) (by decide)
      | error e =>
          show FirstWithin (external.respond formats s .nextValue).2
          rw [respond_nextValue_error hnext]
          exact hs
  | alter options =>
      cases halter : external.alter formats s options with
      | ok t =>
          show FirstWithin (external.respond formats s (.alter options)).2
          rw [respond_alter_ok halter]
          obtain ⟨_, -, halter⟩ := ok_of_bind halter
          exact alterSequence_first hs.read halter
      | error e =>
          show FirstWithin (external.respond formats s (.alter options)).2
          rw [respond_alter_error halter]
          exact hs

/-! ## Identity columns -/

/-- An identity column has both limits, which are in the range of its type. -/
structure OfType (typ : DataType) (s : Sequence) : Prop where
  exact : (typ.typ.isInteger || typ.typ.isExactDecimal) = true
  scale : typ.scale = 0
  hasMinValue : s.hasMinValue = true
  hasMaxValue : s.hasMaxValue = true
  check : checkIdentitySequence typ s = .ok ()

/-- A limit that is not given is added to the options. -/
theorem sequence_limits (options : List SequenceGeneratorOption) (name : Identifier)
    (v w : Value) :
    let s := SequenceGeneratorDefinition.sequence { name := {}, options := options } name
    let t := SequenceGeneratorDefinition.sequence
      { name := {}
        options := options ++ (if s.hasMinValue then [] else [minvalue (some v)]) ++
          (if s.hasMaxValue then [] else [maxvalue (some w)]) } name
    t.hasMinValue = true ∧ t.hasMaxValue = true := by
  intro s t
  have hmin : s.hasMinValue =
      (options.foldl defineOption (newSequence name, false)).1.hasMinValue := rfl
  have hmax : s.hasMaxValue =
      (options.foldl defineOption (newSequence name, false)).1.hasMaxValue := rfl
  simp only [t, SequenceGeneratorDefinition.sequence, List.foldl_append]
  rw [hmin, hmax]
  generalize options.foldl defineOption (newSequence name, false) = p
  cases hhas : p.1.hasMinValue <;> cases hhas' : p.1.hasMaxValue <;>
    simp [defineOption, hhas, hhas']

theorem withIdentityRange_limits (typ : DataType) (s : Sequence) :
    (withIdentityRange typ s).hasMinValue = true ∧
      (withIdentityRange typ s).hasMaxValue = true := by
  unfold withIdentityRange
  dsimp only
  cases hmin : s.hasMinValue <;> cases hmax : s.hasMaxValue <;> simp [hmin, hmax]

theorem ofType_create {typ : DataType} {name : Identifier}
    {options : List SequenceGeneratorOption}
    (h : (identity typ).create formats name options = .ok s) : OfType typ s := by
  simp only [create, newIdentitySequence] at h
  split at h
  · cases h
  · rename_i htype
    rw [Bool.or_eq_true, not_or] at htype
    obtain ⟨_, -, h⟩ := ok_of_bind h
    obtain ⟨_, hcheck, h⟩ := ok_of_bind h
    obtain ⟨_, -, h⟩ := ok_of_bind h
    cases h
    have hexact : (typ.typ.isInteger || typ.typ.isExactDecimal) = true := by
      simpa only [Bool.not_eq_true', Bool.not_eq_false] using htype.1
    exact ⟨hexact, by simpa using htype.2, (sequence_limits options name _ _).1,
      (sequence_limits options name _ _).2, hcheck⟩

theorem ofType_respond {typ : DataType} (h : OfType typ s) (request : SequenceRequest) :
    OfType typ ((identity typ).respond formats s request).2 := by
  cases request with
  | nextValue =>
      cases hnext : (identity typ).nextValue s with
      | ok p =>
          rw [respond_nextValue_ok hnext]
          obtain ⟨next, -, hp⟩ := ok_of_bind hnext
          cases hp
          exact ⟨h.exact, h.scale, h.hasMinValue, h.hasMaxValue, h.check⟩
      | error e =>
          rw [respond_nextValue_error hnext]
          exact h
  | alter options =>
      cases halter : (identity typ).alter formats s options with
      | ok t =>
          rw [respond_alter_ok halter]
          obtain ⟨_, -, halter⟩ := ok_of_bind halter
          obtain ⟨u, -, halter⟩ := ok_of_bind halter
          obtain ⟨_, hcheck, halter⟩ := ok_of_bind halter
          cases halter
          obtain ⟨hmin, hmax⟩ := withIdentityRange_limits typ u
          exact ⟨h.exact, h.scale, hmin, hmax, hcheck⟩
      | error e =>
          rw [respond_alter_error halter]
          exact h

theorem Reachable.ofType {typ : DataType} (h : (identity typ).Reachable formats s) :
    OfType typ s := by
  obtain ⟨name, options, created, requests, hcreate, rfl⟩ := h
  have hcreated := ofType_create hcreate
  refine Machine.after_invariant ?_ hcreated
  exact fun _ request hs => ofType_respond hs request

theorem checkIdentitySequence_recreated {typ : DataType} (h : OfType typ s) (name : Identifier) :
    checkIdentitySequence typ (s.recreated name) = .ok () := by
  have hcheck : (s.recreated name).check = s.check := by
    rw [Sequence.check, Sequence.check, min_recreated, max_recreated]
    rfl
  have hmin : (s.recreated name).minValue = s.minValue := if_pos h.hasMinValue
  have hmax : (s.recreated name).maxValue = s.maxValue := if_pos h.hasMaxValue
  have hincrement : (s.recreated name).incrementBy = s.incrementBy := rfl
  rw [← h.check, checkIdentitySequence, checkIdentitySequence, hcheck, hmin, hmax, hincrement]

theorem create_identityOptions {typ : DataType} (h : OfType typ s)
    (hstart : s.Within s.startValue.toInt) (name : Identifier) :
    (identity typ).create formats name s.identityOptions = .ok (s.recreated name) := by
  have htype :
      (!(typ.typ.isInteger || typ.typ.isExactDecimal) || decide (typ.scale ≠ 0)) = false := by
    simp [h.exact, h.scale]
  have hrecreated := sequence_identityOptions h.hasMinValue h.hasMaxValue name {}
  have hrange : (s.recreated name).checkInRange "START WITH" (s.recreated name).startValue =
      .ok () := checkInRange_eq_ok (within_recreated.mpr hstart) _
  have hmin : (s.recreated name).hasMinValue = true := h.hasMinValue
  have hmax : (s.recreated name).hasMaxValue = true := h.hasMaxValue
  rw [create, newIdentitySequence, htype, checkSequenceOptions_identityOptions]
  simp only [hrecreated, hmin, hmax, if_true, List.append_nil, Bind.bind, Except.bind,
    checkIdentitySequence_recreated h, hrange]
  rfl

theorem OfType.recreated {typ : DataType} (h : OfType typ s) (name : Identifier) :
    OfType typ (s.recreated name) :=
  ⟨h.exact, h.scale, h.hasMinValue, h.hasMaxValue, checkIdentitySequence_recreated h name⟩

variable (formats) in
theorem run_restartWith_identity {typ : DataType} (hs : s.Sound) (h : OfType typ s)
    (hv : s.Within v.toInt) :
    (identity typ).run formats s (restartWith v) = .ok (s.restarted v) := by
  have hoptions : checkSequenceOptions formats [restart (some (newBigintValue v))] = .ok () := rfl
  have hrange : withIdentityRange typ (s.restarted v) = s.restarted v := by
    have hmin : (s.restarted v).hasMinValue = true := h.hasMinValue
    have hmax : (s.restarted v).hasMaxValue = true := h.hasMaxValue
    simp only [withIdentityRange, hmin, hmax, if_true]
  have hcheck : checkIdentitySequence typ (s.restarted v) = .ok () := h.check
  rw [restartWith, run, alter, hoptions]
  simp only [Bind.bind, Except.bind, alterIdentitySequence, read, alterSequence_restart hs hv,
    hrange, hcheck]
  rfl

theorem restore_identity {typ : DataType} (hs : s.Sound) (h : OfType typ s)
    (hstart : s.Within s.startValue.toInt) (hrestart : s.Within s.identityValue.toInt)
    (name : Identifier) :
    (identity typ).restore formats name s.dumpIdentity =
      .ok ((s.recreated name).restarted s.identityValue) := by
  have hrun := run_restartWith_identity formats (sound_recreated hs name) (h.recreated name)
    (within_recreated.mpr hrestart)
  rw [restore, Sequence.dumpIdentity, create_identityOptions h hstart]
  by_cases hmoved : (!s.unused || decide (s.identityValue ≠ s.startValue)) = true
  · simp only [if_pos hmoved, List.foldlM, Bind.bind, Except.bind, hrun]
    rfl
  · rw [if_neg hmoved]
    have hsame : s.identityValue = s.startValue := by
      simp only [Bool.or_eq_true, decide_eq_true_eq, not_or, not_not] at hmoved
      exact hmoved.2
    rw [hsame, restarted_recreated]
    rfl

/-! ## The restored generator -/

/-- The value that the dump restarts the generator at. -/
def restartValue (owner : SequenceOwner) (s : Sequence) : Int64 :=
  match owner with
  | external => (owner.read s).restartValue
  | identity _ => s.identityValue

/-- An identity column that has reached its limit without CYCLE. -/
def IdentityExhausted (owner : SequenceOwner) (s : Sequence) : Prop :=
  match owner with
  | external => False
  | identity _ => s.next.toOption = none

theorem alike_issue (typ : DataType) (hs : s.Sound) (v : Int64) :
    (identity typ).Alike (s.issue v) (((s.recreated s.name).restarted v).issue v) := by
  have hsound := (sound_restarted (sound_recreated hs s.name) v).issue v
  refine ⟨hs.issue v, hsound, rfl, rfl, ?_, rfl⟩
  exact ⟨rfl, rfl, rfl, rfl, min_recreated s s.name, max_recreated s s.name⟩

/-- The last value again is past the limits too, so that nothing comes after it. -/
theorem nextValue_issue_currentValue (typ : DataType) (hs : s.Sound)
    (h : s.next.toOption = none) :
    (identity typ).nextValue s = .error (sqlstate2200H s.name.str.str) ∧
      (identity typ).nextValue (s.issue s.currentValue) =
        .error (sqlstate2200H s.name.str.str) := by
  obtain ⟨v, hnext, -⟩ | ⟨hnext, -⟩ | ⟨hnext, hcycle, hout⟩ := next_cases hs
  · rw [hnext] at h
    cases h
  · rw [hnext] at h
    cases h
  · have hbase : s.Within (s.issue s.currentValue).base → s.Within s.base := by
      intro hwithin
      have hsum : (s.issue s.currentValue).base =
          s.currentValue.toInt + s.incrementBy.toInt := rfl
      rw [hsum] at hwithin
      unfold Sequence.base
      split
      · have hmin := s.min.le_toInt
        have hmax := s.max.toInt_lt
        have hfits : (addI64 s.currentValue s.incrementBy).2 = false := by
          rw [← Bool.not_eq_true, addI64_snd]
          unfold Within at hwithin
          omega
        rw [toInt_add_of_fits hfits]
        exact hwithin
      · exact hwithin
    refine ⟨by rw [nextValue, read, hnext]; rfl, ?_⟩
    obtain ⟨v, -, -, hwithin⟩ | ⟨-, hcycle', -⟩ | ⟨hnext', -⟩ :=
      nextValue_cases (identity typ) (hs.issue s.currentValue)
    · exact absurd (hbase hwithin) hout
    · exact absurd (hcycle.symm.trans hcycle') (by decide)
    · exact hnext'

theorem identityValue_exhausted (h : s.next.toOption = none) :
    s.identityValue = s.currentValue := by
  unfold identityValue
  cases hnext : s.next with
  | ok t =>
      rw [hnext] at h
      cases h
  | error e => rfl

theorem nextValue_identityValue {typ : DataType} (hs : s.Sound) (h : s.next.toOption ≠ none) :
    (identity typ).nextValue s = .ok (s.issue s.identityValue, s.identityValue) ∧
      s.Within s.identityValue.toInt := by
  have hcases := next_cases hs
  obtain ⟨v, hnext, hv, hwithin⟩ | ⟨hnext, -⟩ | ⟨hnext, -⟩ := hcases
  · have hvalue : s.identityValue = v := by rw [identityValue, hnext]; rfl
    rw [hvalue, nextValue, read, hnext, hv]
    exact ⟨rfl, hwithin⟩
  · have hvalue : s.identityValue = s.reset := by rw [identityValue, hnext]; rfl
    rw [hvalue, nextValue, read, hnext]
    exact ⟨rfl, hs.reset_within⟩
  · rw [hnext] at h
    exact absurd rfl h

/-- The statements are accepted, and the restored generator issues the same values.  An identity
column that has none is restarted at its last value, which it issues once more. -/
theorem restore_dump (h : owner.Reachable formats s)
    (hstart : (owner.limited s).Within s.startValue.toInt)
    (hrestart : (owner.limited s).Within (owner.restartValue s).toInt) :
    ∃ t, owner.restore formats s.name (owner.dump s) = .ok t ∧
      (¬ owner.IdentityExhausted s → ∀ n,
        (owner.generator formats).outputs t (List.replicate n .nextValue) =
          (owner.generator formats).outputs s (List.replicate n .nextValue)) ∧
      (owner.IdentityExhausted s → ∀ n,
        (owner.generator formats).outputs t (List.replicate (n + 1) .nextValue) =
          .ok (some s.currentValue) :: (owner.generator formats).outputs s
            (List.replicate n .nextValue)) := by
  have hs := h.sound
  cases owner with
  | external =>
      obtain ⟨t, hrestore, halike⟩ := restored_external hs h.first hstart hrestart
      exact ⟨t, hrestore, fun _ n => halike.outputs formats n, fun hfalse => hfalse.elim⟩
  | identity typ =>
      have hstart' : (s.recreated s.name).Within (s.recreated s.name).startValue.toInt :=
        within_recreated.mpr hstart
      have ht : (identity typ).nextValue ((s.recreated s.name).restarted s.identityValue) =
          .ok (((s.recreated s.name).restarted s.identityValue).issue s.identityValue,
            s.identityValue) :=
        nextValue_restarted (sound_recreated hs s.name) hstart' (within_recreated.mpr hrestart)
      have halike := alike_issue typ hs s.identityValue
      refine ⟨_, restore_identity hs h.ofType hstart hrestart s.name, ?_, ?_⟩
      · intro hnext n
        exact outputs_of_nextValue (nextValue_identityValue hs hnext).1 ht halike n
      · intro hnext n
        obtain ⟨herror, herror'⟩ := nextValue_issue_currentValue typ hs hnext
        have hvalue : s.identityValue = s.currentValue := identityValue_exhausted hnext
        have houtputs := halike.outputs formats n
        rw [hvalue, outputs_of_error herror' n] at houtputs
        rw [hvalue] at ht
        simp only [List.replicate_succ, Machine.outputs, generator, hvalue,
          respond_nextValue_ok ht]
        exact congrArg _ (houtputs.trans (outputs_of_error herror n).symm)

/-- START WITH 9223372036854775804 INCREMENT BY 3, after its first value. -/
def lastSequenceUsed : Sequence := lastSequence.issue (Int64.maxValue - 3)

theorem restore_dump_lastSequenceUsed :
    ∃ t, external.restore exactFormats lastSequenceUsed.name
        (external.dump lastSequenceUsed) = .ok t ∧
      (¬ external.IdentityExhausted lastSequenceUsed → ∀ n,
        (external.generator exactFormats).outputs t (List.replicate n .nextValue) =
          (external.generator exactFormats).outputs lastSequenceUsed
            (List.replicate n .nextValue)) ∧
      (external.IdentityExhausted lastSequenceUsed → ∀ n,
        (external.generator exactFormats).outputs t (List.replicate (n + 1) .nextValue) =
          .ok (some lastSequenceUsed.currentValue) ::
            (external.generator exactFormats).outputs lastSequenceUsed
              (List.replicate n .nextValue)) := by
  have hreachable : external.Reachable exactFormats lastSequenceUsed :=
    ⟨{ entityName := ['S'] }, lastValues, lastSequence, [.nextValue], by decide +kernel,
      by decide +kernel⟩
  exact restore_dump hreachable (by decide +kernel) (by decide +kernel)

/-- SMALLINT GENERATED BY DEFAULT AS IDENTITY (MAXVALUE 2), after both of its values. -/
def twoValues : Sequence where
  exhausted := false
  unused := false
  name := {}
  startValue := 1
  currentValue := 2
  incrementBy := 1
  cycle := false
  hasMinValue := true
  minValue := 1
  hasMaxValue := true
  maxValue := 2

/-- The restored column has the value 2 again. -/
theorem not_restore_dump_twoValues :
    ¬ ∀ owner s, SequenceOwner.Reachable exactFormats owner s →
      ∃ t, owner.restore exactFormats s.name (owner.dump s) = .ok t ∧ ∀ n,
        (owner.generator exactFormats).outputs t (List.replicate n .nextValue) =
          (owner.generator exactFormats).outputs s (List.replicate n .nextValue) := by
  intro h
  have hreachable : (identity { typ := .smallint }).Reachable exactFormats twoValues :=
    ⟨{}, [.maxvalue (some (newBigintValue 2))],
      { twoValues with unused := true, currentValue := 0 }, [.nextValue, .nextValue],
      by decide +kernel, by decide +kernel⟩
  obtain ⟨t, hrestore, houtputs⟩ := h _ _ hreachable
  have hrestored : (identity { typ := .smallint }).restore exactFormats twoValues.name
      ((identity { typ := .smallint }).dump twoValues) =
        .ok { twoValues with unused := true, currentValue := 1 } := by
    decide +kernel
  cases hrestored.symm.trans hrestore
  exact absurd (houtputs 1) (by decide +kernel)

end SequenceOwner

end Vsql
