import Vsql.Cli.ImportInput

/-!
# Records of CSV and TSV files
-/

namespace Vsql.Cli

open Foundation
open Foundation.ReadingProgram

/-- A cell, before its bytes are read as characters. -/
structure ReadCell where
  kind : CellKind
  value : Bytes
  deriving DecidableEq

def delimitedCell (value : Bytes) (quoted : Bool) : ReadCell :=
  if value = [] ∧ ¬quoted then ⟨.null, []⟩ else ⟨.value, value⟩

/-- The field up to the closing quote, which is added to what there is of it. -/
def quotedField : Nat → Bytes → InputProgram Bytes
  | 0, _ => .fail .outOfFuel
  | fuel + 1, field => do
      match ← peekItem 0 with
      | none => .error (bytesOf "a quote is never closed")
      | some c => do
          skipItem
          if c ≠ byte '"' then quotedField fuel (field ++ [c])
          else do
            match ← peekItem 0 with
            | none => pure field
            | some next =>
                if next ≠ byte '"' then pure field
                else do
                  skipItem
                  quotedField fuel (field ++ [byte '"'])

/-- Where the reading of a record is: its cells, its current field and whether that is
quoted. -/
structure RecordSoFar where
  record : List ReadCell := []
  field : Bytes := []
  quoted : Bool := false

/-- The carriage return is the first byte of a line break. -/
def isCrlf (c : UInt8) : InputProgram Bool :=
  if c = byte '\r' then do
    let next ← peekItem 1
    pure (next = some (byte '\n'))
  else pure false

/-- The fields of one record, and whether a line break ended it. -/
def recordFields (separator : UInt8) : Nat → RecordSoFar → InputProgram (RecordSoFar × Bool)
  | 0, _ => .fail .outOfFuel
  | fuel + 1, r => do
      match ← peekItem 0 with
      | none => pure (r, false)
      | some c =>
          if c = byte '"' ∧ r.field = [] ∧ ¬r.quoted then do
            skipItem
            let field ← quotedField fuel r.field
            match ← peekItem 0 with
            | none => pure ({ r with field, quoted := true }, false)
            | some after =>
                if after ∉ [separator, byte '\r', byte '\n'] then do
                  let marks ← getState
                  setState { marks with recordLine := marks.line }
                  .error (bytesOf "unexpected text after a closing quote")
                else recordFields separator fuel { r with field, quoted := true }
          else do
            let crlf ← isCrlf c
            if c = separator ∨ c = byte '\n' ∨ crlf then do
              let record := r.record ++ [delimitedCell r.field r.quoted]
              skipItem
              if crlf then skipItem
              if c = separator then recordFields separator fuel ⟨record, [], false⟩
              else pure (⟨record, [], false⟩, true)
            else do
              skipItem
              recordFields separator fuel { r with field := r.field ++ [c] }

/-- A blank line is ignored. -/
def isBlank (record : List ReadCell) : Bool :=
  match record with
  | [cell] => cell.kind = .null
  | _ => false

/-- The cells of the next line, none at the end of the file. -/
def delimitedRecord (separator : UInt8) : Nat → InputProgram (List ReadCell)
  | 0 => .fail .outOfFuel
  | fuel + 1 => do
      let marks ← getState
      setState { marks with recordLine := marks.line }
      let (r, ended) ← recordFields separator (fuel + 1) {}
      if ¬ended ∧ r.field = [] ∧ ¬r.quoted ∧ r.record = [] then pure []
      else
        let record := if ended then r.record else r.record ++ [delimitedCell r.field r.quoted]
        if isBlank record then
          if ended then delimitedRecord separator fuel else pure []
        else pure record

/-! ## Only what was seen is skipped -/

theorem looks_quotedField (fuel : Nat) (field : Bytes) : Looks 0 (quotedField fuel field) := by
  induction fuel generalizing field with
  | zero => trivial
  | succ fuel ih =>
      apply looks_peek
      · intro c
        apply looks_skip
        split
        · exact ih _
        · apply looks_peek
          · intro next
            dsimp only
            split
            · trivial
            · exact looks_skip (ih _)
          · trivial
      · trivial

theorem looks_isCrlf {α : Type} {k : Nat} (c : UInt8) {f : Bool → InputProgram α}
    (htrue : Looks (max k 2) (f true)) (hfalse : Looks k (f false)) :
    Looks k (isCrlf c >>= f) := by
  unfold isCrlf
  split
  · apply looks_peek
    · intro next
      change Looks (max k 2) (f (decide (some next = some (byte '\n'))))
      cases decide (some next = some (byte '\n')) with
      | false => exact hfalse.mono (Nat.le_max_left k 2)
      | true => exact htrue
    · exact hfalse
  · exact hfalse

theorem looks_recordFields (separator : UInt8) (fuel : Nat) (r : RecordSoFar) :
    Looks 0 (recordFields separator fuel r) := by
  induction fuel generalizing r with
  | zero => trivial
  | succ fuel ih =>
      apply looks_peek
      · intro c
        dsimp only
        split
        · apply looks_skip
          apply (looks_quotedField fuel _).bind
          intro field
          apply looks_peek
          · intro after
            dsimp only
            split
            · exact fun marks => trivial
            · exact (ih _).mono (Nat.zero_le _)
          · trivial
        · have hnext : Looks 0 (if c = separator then
              recordFields separator fuel ⟨r.record ++ [delimitedCell r.field r.quoted], [], false⟩
            else pure (⟨r.record ++ [delimitedCell r.field r.quoted], [], false⟩, true)) := by
            split
            · exact ih _
            · trivial
          apply looks_isCrlf
          · rw [if_pos (.inr (.inr rfl))]
            exact looks_skip (looks_skip hnext)
          · split
            · exact looks_skip hnext
            · exact looks_skip (ih _)
      · trivial

theorem looks_delimitedRecord (separator : UInt8) (fuel : Nat) :
    Looks 0 (delimitedRecord separator fuel) := by
  induction fuel with
  | zero => trivial
  | succ fuel ih =>
      apply looks_get
      intro marks
      apply looks_set
      apply (looks_recordFields separator _ _).bind
      rintro ⟨r, ended⟩
      dsimp only
      split_ifs
      · trivial
      · exact ih
      · trivial
      · trivial
      · trivial

/-! ## There is fuel for every byte -/

/-- The program gives a result that meets `Q` with what is left of the bytes, or an error. -/
abbrev GivesOn {α : Type} (p : InputProgram α) (l : Bytes) (Q : α → Bytes → Prop) : Prop :=
  Reads (fun e => ∃ message, e = .error message) p l Q

theorem givesOn_quotedField {fuel : Nat} {l : Bytes} (h : l.length < fuel) (field : Bytes) :
    GivesOn (quotedField fuel field) l fun _ left => left.length ≤ l.length := by
  induction fuel generalizing l field with
  | zero => exact absurd h (Nat.not_lt_zero _)
  | succ fuel ih =>
      apply meets_peek
      cases l with
      | nil => exact meets_fail ⟨_, rfl⟩
      | cons c l =>
          rw [List.length_cons] at h
          have hrest : ∀ left : Bytes, left.length ≤ l.length → left.length ≤ (c :: l).length := by
            intro left hleft
            rw [List.length_cons]
            omega
          apply reads_skip
          split
          · exact (ih (by omega) _).mono fun _ left hleft => hrest left hleft
          · apply meets_peek
            cases l with
            | nil => exact meets_pure (hrest _ (Nat.le_refl _))
            | cons next l =>
                rw [List.length_cons] at h
                change GivesOn (if next ≠ byte '"' then _ else _) _ _
                split
                · exact meets_pure (hrest _ (Nat.le_refl _))
                · apply reads_skip
                  apply (ih (by omega) _).mono
                  intro _ left hleft
                  simp only [List.length_cons]
                  omega

theorem givesOn_isCrlf {α : Type} {c : UInt8} {l : Bytes} {f : Bool → InputProgram α}
    {Q : α → Bytes → Prop} (htrue : ∀ next l', l = next :: l' → GivesOn (f true) (c :: l) Q)
    (hfalse : GivesOn (f false) (c :: l) Q) : GivesOn (isCrlf c >>= f) (c :: l) Q := by
  unfold isCrlf
  split
  · apply meets_peek
    cases l with
    | nil => exact hfalse
    | cons next l =>
        change GivesOn (f (decide (some next = some (byte '\n')))) _ _
        cases decide (some next = some (byte '\n')) with
        | false => exact hfalse
        | true => exact htrue next l rfl
  · exact hfalse

theorem givesOn_recordFields (separator : UInt8) {fuel : Nat} {l : Bytes} (h : l.length < fuel)
    (r : RecordSoFar) : GivesOn (recordFields separator fuel r) l
      fun result left => left.length ≤ l.length ∧ (result.2 → left.length < l.length) := by
  induction fuel generalizing l r with
  | zero => exact absurd h (Nat.not_lt_zero _)
  | succ fuel ih =>
      apply meets_peek
      cases l with
      | nil => exact meets_pure ⟨Nat.le_refl _, fun hended => by cases hended⟩
      | cons c l =>
          rw [List.length_cons] at h
          have hcontinue : ∀ (r : RecordSoFar) (l' : Bytes), l'.length ≤ l.length →
              GivesOn (recordFields separator fuel r) l'
                fun result left => left.length ≤ (c :: l).length ∧
                  (result.2 → left.length < (c :: l).length) := by
            intro r l' hl'
            apply (ih (by omega) r).mono
            intro result left hleft
            rw [List.length_cons]
            omega
          change GivesOn (if c = byte '"' ∧ r.field = [] ∧ ¬r.quoted then _ else _) _ _
          split
          · apply reads_skip
            apply Meets.bind
            apply (givesOn_quotedField (by omega) r.field).mono
            intro field left hleft
            apply meets_peek
            cases left with
            | nil => exact meets_pure ⟨Nat.zero_le _, fun hended => by cases hended⟩
            | cons after left =>
                change GivesOn (if after ∉ _ then _ else _) _ _
                split
                · exact fun marks => ⟨_, rfl⟩
                · exact hcontinue _ _ hleft
          · have hnext : ∀ l' : Bytes, l'.length ≤ l.length → GivesOn (if c = separator then
                recordFields separator fuel
                  ⟨r.record ++ [delimitedCell r.field r.quoted], [], false⟩
                else pure (⟨r.record ++ [delimitedCell r.field r.quoted], [], false⟩, true)) l'
                fun result left => left.length ≤ (c :: l).length ∧
                  (result.2 → left.length < (c :: l).length) := by
              intro l' hl'
              split
              · exact hcontinue _ _ hl'
              · apply meets_pure
                rw [List.length_cons]
                omega
            apply givesOn_isCrlf
            · rintro next l' rfl
              rw [if_pos (.inr (.inr rfl))]
              apply reads_skip
              apply reads_skip
              exact hnext l' (by simp)
            · split
              · apply reads_skip
                exact hnext l (Nat.le_refl _)
              · apply reads_skip
                exact hcontinue _ _ (Nat.le_refl _)

/-- Reading a record always ends with a record or an error. -/
theorem givesOn_delimitedRecord (separator : UInt8) {fuel : Nat} {l : Bytes}
    (h : l.length < fuel) : GivesOn (delimitedRecord separator fuel) l fun _ _ => True := by
  induction fuel generalizing l with
  | zero => exact absurd h (Nat.not_lt_zero _)
  | succ fuel ih =>
      apply reads_recordLine
      intro marks
      apply Meets.bind
      apply (givesOn_recordFields separator h _).mono
      rintro ⟨r, ended⟩ left ⟨-, hended⟩
      dsimp only
      split_ifs with hempty hended' hblank
      · exact meets_pure trivial
      · exact ih (by have := hended hended'; omega)
      · exact meets_pure trivial
      · exact meets_pure trivial
      · exact meets_pure trivial

end Vsql.Cli
