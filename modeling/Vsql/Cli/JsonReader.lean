import Vsql.Cli.DelimitedRecord
import Vsql.Foundation.OrderedMap

/-!
# Reading JSON

A JSON file is an array of objects.  One object is read at a time, each of its values is a
string, a number, a boolean or null, and the text of a number is not changed.
-/

namespace Vsql.Cli

open Foundation
open Foundation.ReadingProgram

/-! ## Characters -/

/-- A number that is too large for a code point has no text. -/
def utf32ToStr (code : Nat) : Bytes :=
  if code < 0x80 then [UInt8.ofNat code]
  else if code < 0x800 then
    [UInt8.ofNat (0xc0 + code / 2 ^ 6), UInt8.ofNat (0x80 + code % 2 ^ 6)]
  else if code < 0x10000 then
    [UInt8.ofNat (0xe0 + code / 2 ^ 12), UInt8.ofNat (0x80 + code / 2 ^ 6 % 2 ^ 6),
      UInt8.ofNat (0x80 + code % 2 ^ 6)]
  else if code < 0x110000 then
    [UInt8.ofNat (0xf0 + code / 2 ^ 18), UInt8.ofNat (0x80 + code / 2 ^ 12 % 2 ^ 6),
      UInt8.ofNat (0x80 + code / 2 ^ 6 % 2 ^ 6), UInt8.ofNat (0x80 + code % 2 ^ 6)]
  else []

def isDigit (c : UInt8) : Bool := byte '0' ≤ c ∧ c ≤ byte '9'

def hexDigit? (c : UInt8) : Option Nat :=
  if isDigit c then some (c - byte '0').toNat
  else if byte 'a' ≤ c ∧ c ≤ byte 'f' then some ((c - byte 'a').toNat + 10)
  else if byte 'A' ≤ c ∧ c ≤ byte 'F' then some ((c - byte 'A').toNat + 10)
  else none

/-! ## Strings -/

def jsonError {α : Type} (message : Bytes) : InputProgram α := do
  let marks ← getState
  setState { marks with recordLine := marks.line }
  .error message

/-- The digits that are still to be read, and the number that has been read. -/
def jsonHexFrom : Nat → Nat → InputProgram Nat
  | 0, n => pure n
  | digits + 1, n => do
      match ← peekItem 0 with
      | none => jsonError (bytesOf "a \\u escape needs 4 hex digits")
      | some c =>
          match hexDigit? c with
          | none => jsonError (bytesOf "a \\u escape needs 4 hex digits")
          | some d => do
              skipItem
              jsonHexFrom digits (16 * n + d)

def jsonHex4 : InputProgram Nat := jsonHexFrom 4 0

/-- The code point of a pair of escapes. -/
def surrogatePair (high low : Nat) : Nat := 0x10000 + (high - 0xd800) * 2 ^ 10 + low - 0xdc00

def jsonUnicodeEscape : InputProgram Bytes := do
  let high ← jsonHex4
  if 0xd800 ≤ high ∧ high < 0xdc00 then do
    if ← acceptText [byte '\\', byte 'u'] then do
      let low ← jsonHex4
      pure (utf32ToStr (surrogatePair high low))
    else pure (utf32ToStr high)
  else pure (utf32ToStr high)

/-- The byte that an escape stands for, other than `\u`. -/
def simpleEscape? (escape : UInt8) : Option UInt8 :=
  if escape = byte '"' ∨ escape = byte '\\' ∨ escape = byte '/' then some escape
  else if escape = byte 'b' then some 0x08
  else if escape = byte 'f' then some 0x0c
  else if escape = byte 'n' then some 0x0a
  else if escape = byte 'r' then some 0x0d
  else if escape = byte 't' then some 0x09
  else none

/-- The rest of a string, which is added to what there is of it. -/
def jsonStringFrom : Nat → Bytes → InputProgram Bytes
  | 0, _ => .fail .outOfFuel
  | fuel + 1, sb => do
      match ← peekItem 0 with
      | none => jsonError (bytesOf "a string is never closed")
      | some c => do
          skipItem
          if c = byte '"' then pure sb
          else if c ≠ byte '\\' then jsonStringFrom fuel (sb ++ [c])
          else do
            match ← peekItem 0 with
            | none => jsonError (bytesOf "a string is never closed")
            | some escape => do
                skipItem
                match simpleEscape? escape with
                | some e => jsonStringFrom fuel (sb ++ [e])
                | none =>
                    if escape = byte 'u' then do
                      let text ← jsonUnicodeEscape
                      jsonStringFrom fuel (sb ++ text)
                    else jsonError (bytesOf "unknown escape")

def jsonString (fuel : Nat) : InputProgram Bytes := do
  match ← peekItem 0 with
  | none => jsonError (bytesOf "expected a string")
  | some c =>
      if c ≠ byte '"' then jsonError (bytesOf "expected a string")
      else do
        skipItem
        jsonStringFrom fuel []

/-! ## White space -/

def isJsonSpace (c : UInt8) : Bool := [byte ' ', byte '\t', byte '\r', byte '\n'].contains c

def jsonSkipSpace : Nat → InputProgram Unit
  | 0 => .fail .outOfFuel
  | fuel + 1 => do
      match ← peekItem 0 with
      | none => pure ()
      | some c =>
          if isJsonSpace c then do
            skipItem
            jsonSkipSpace fuel
          else pure ()

def jsonAccept (fuel : Nat) (c : UInt8) : InputProgram Bool := do
  jsonSkipSpace fuel
  match ← peekItem 0 with
  | none => pure false
  | some next =>
      if next = c then do
        skipItem
        pure true
      else pure false

/-! ## Values -/

def isNumberByte (c : UInt8) : Bool :=
  isDigit c || [byte '-', byte '+', byte '.', byte 'e', byte 'E'].contains c

def numberBytes : Nat → Bytes → InputProgram Bytes
  | 0, _ => .fail .outOfFuel
  | fuel + 1, sb => do
      match ← peekItem 0 with
      | none => pure sb
      | some next =>
          if ¬isNumberByte next then pure sb
          else do
            skipItem
            numberBytes fuel (sb ++ [next])

def isJsonNumber (s : Bytes) : Bool :=
  match s.head?, s.getLast? with
  | some first, some last =>
      isDigit last && !([byte '+', byte '.', byte 'e', byte 'E'].contains first)
  | _, _ => false

def jsonValue (fuel : Nat) (name : Bytes) : InputProgram ReadCell := do
  jsonSkipSpace fuel
  match ← peekItem 0 with
  | none => jsonError (bytesOf "expected a value")
  | some c =>
      if c = byte '"' then do
        let value ← jsonString fuel
        pure ⟨.value, value⟩
      else if c = byte '{' ∨ c = byte '[' then
        jsonError (name ++ bytesOf (" is an object or array, only a string, number, boolean " ++
          "or null can be imported"))
      else if ← acceptText (bytesOf "true") then pure ⟨.value, bytesOf "TRUE"⟩
      else if ← acceptText (bytesOf "false") then pure ⟨.value, bytesOf "FALSE"⟩
      else if ← acceptText (bytesOf "null") then pure ⟨.null, []⟩
      else do
        let number ← numberBytes fuel []
        if isJsonNumber number then pure ⟨.value, number⟩
        else jsonError (bytesOf "expected a value")

/-! ## Objects -/

abbrev JsonObject := OrderedMap Bytes ReadCell

def jsonMembers (fuel : Nat) : Nat → JsonObject → InputProgram JsonObject
  | 0, _ => .fail .outOfFuel
  | members + 1, object => do
      jsonSkipSpace fuel
      let name ← jsonString fuel
      if ← jsonAccept fuel (byte ':') then do
        let value ← jsonValue fuel name
        let object := object.set name value
        if ← jsonAccept fuel (byte '}') then pure object
        else if ← jsonAccept fuel (byte ',') then jsonMembers fuel members object
        else jsonError (bytesOf "expected \",\" or \"\x7d\"")
      else jsonError (bytesOf "expected \":\"")

def jsonObject (fuel : Nat) : InputProgram JsonObject := do
  if ← jsonAccept fuel (byte '{') then do
    if ← jsonAccept fuel (byte '}') then pure .empty
    else jsonMembers fuel fuel .empty
  else jsonError (bytesOf "each row must be an object")

def jsonEnd (fuel : Nat) : InputProgram Unit := do
  let marks ← getState
  setState { marks with jsonFinished := true }
  jsonSkipSpace fuel
  match ← peekItem 0 with
  | none => pure ()
  | some _ => jsonError (bytesOf "unexpected text after the array")

/-- The object of a row, after the start of the array or a comma. -/
def jsonNext (fuel : Nat) : InputProgram JsonObject := do
  jsonSkipSpace fuel
  let marks ← getState
  setState { marks with recordLine := marks.line }
  let object ← jsonObject fuel
  if ← jsonAccept fuel (byte ']') then jsonEnd fuel
  else if ← jsonAccept fuel (byte ',') then pure ()
  else jsonError (bytesOf "expected \",\" or \"]\"")
  let finished ← getState
  setState { finished with recordLine := marks.line }
  pure object

def jsonRow (fuel : Nat) : InputProgram JsonObject := do
  let marks ← getState
  if marks.jsonStarted then jsonNext fuel
  else if ← jsonAccept fuel (byte '[') then do
    let marks ← getState
    setState { marks with jsonStarted := true }
    if ← jsonAccept fuel (byte ']') then do
      jsonEnd fuel
      let marks ← getState
      setState { marks with jsonEmpty := true }
      pure .empty
    else jsonNext fuel
  else jsonError (bytesOf "the file must be an array of objects")

/-- All of the rows, one call after the other up to the end of the array. -/
def jsonRows (fuel : Nat) : Nat → InputProgram (List JsonObject)
  | 0 => .fail .outOfFuel
  | rows + 1 => do
      let marks ← getState
      if marks.jsonFinished then pure []
      else do
        let object ← jsonRow fuel
        let marks ← getState
        if marks.jsonEmpty then pure []
        else do
          let objects ← jsonRows fuel rows
          pure (object :: objects)

/-! ## Only what was seen is skipped -/

theorem looks_jsonError {α : Type} {k : Nat} (message : Bytes) :
    Looks k (jsonError message : InputProgram α) := fun _ => trivial

theorem looks_jsonHexFrom (digits n : Nat) : Looks 0 (jsonHexFrom digits n) := by
  induction digits generalizing n with
  | zero => trivial
  | succ digits ih =>
      apply looks_peek
      · intro c
        dsimp only
        split
        · exact looks_jsonError _
        · exact looks_skip (ih _)
      · exact looks_jsonError _

theorem looks_jsonUnicodeEscape : Looks 0 jsonUnicodeEscape := by
  apply (looks_jsonHexFrom 4 0).bind
  intro high
  split
  · apply (looks_acceptText _).bind
    intro accepted
    split
    · exact (looks_jsonHexFrom 4 0).bind fun _ => trivial
    · trivial
  · trivial

theorem looks_jsonStringFrom (fuel : Nat) (sb : Bytes) : Looks 0 (jsonStringFrom fuel sb) := by
  induction fuel generalizing sb with
  | zero => trivial
  | succ fuel ih =>
      apply looks_peek
      · intro c
        apply looks_skip
        split
        · trivial
        · split
          · exact ih _
          · apply looks_peek
            · intro escape
              apply looks_skip
              split
              · exact ih _
              · split
                · exact looks_jsonUnicodeEscape.bind fun _ => ih _
                · exact looks_jsonError _
            · exact looks_jsonError _
      · exact looks_jsonError _

theorem looks_jsonString (fuel : Nat) : Looks 0 (jsonString fuel) := by
  apply looks_peek
  · intro c
    dsimp only
    split
    · exact looks_jsonError _
    · exact looks_skip (looks_jsonStringFrom fuel [])
  · exact looks_jsonError _

theorem looks_jsonSkipSpace (fuel : Nat) : Looks 0 (jsonSkipSpace fuel) := by
  induction fuel with
  | zero => trivial
  | succ fuel ih =>
      apply looks_peek
      · intro c
        dsimp only
        split
        · exact looks_skip ih
        · trivial
      · trivial

theorem looks_jsonAccept (fuel : Nat) (c : UInt8) : Looks 0 (jsonAccept fuel c) := by
  apply (looks_jsonSkipSpace fuel).bind
  intro _
  apply looks_peek
  · intro next
    dsimp only
    split
    · exact looks_skip trivial
    · trivial
  · trivial

theorem looks_numberBytes (fuel : Nat) (sb : Bytes) : Looks 0 (numberBytes fuel sb) := by
  induction fuel generalizing sb with
  | zero => trivial
  | succ fuel ih =>
      apply looks_peek
      · intro next
        dsimp only
        split
        · trivial
        · exact looks_skip (ih _)
      · trivial

theorem looks_jsonValue (fuel : Nat) (name : Bytes) : Looks 0 (jsonValue fuel name) := by
  apply (looks_jsonSkipSpace fuel).bind
  intro _
  apply looks_peek
  · intro c
    dsimp only
    split
    · apply Looks.mono _ (Nat.zero_le _)
      apply (looks_jsonString fuel).bind
      exact fun _ => trivial
    · split
      · exact looks_jsonError _
      · apply Looks.mono _ (Nat.zero_le _)
        apply (looks_acceptText _).bind
        intro isTrue
        split
        · trivial
        · apply (looks_acceptText _).bind
          intro isFalse
          split
          · trivial
          · apply (looks_acceptText _).bind
            intro isNull
            split
            · trivial
            · apply (looks_numberBytes fuel []).bind
              intro number
              split
              · trivial
              · exact looks_jsonError _
  · exact looks_jsonError _

theorem looks_jsonMembers (fuel members : Nat) (object : JsonObject) :
    Looks 0 (jsonMembers fuel members object) := by
  induction members generalizing object with
  | zero => trivial
  | succ members ih =>
      apply (looks_jsonSkipSpace fuel).bind
      intro _
      apply (looks_jsonString fuel).bind
      intro name
      apply (looks_jsonAccept fuel _).bind
      intro colon
      split
      · apply (looks_jsonValue fuel name).bind
        intro value
        apply (looks_jsonAccept fuel _).bind
        intro close
        split
        · trivial
        · apply (looks_jsonAccept fuel _).bind
          intro comma
          split
          · exact ih _
          · exact looks_jsonError _
      · exact looks_jsonError _

theorem looks_jsonObject (fuel : Nat) : Looks 0 (jsonObject fuel) := by
  apply (looks_jsonAccept fuel _).bind
  intro opened
  split
  · apply (looks_jsonAccept fuel _).bind
    intro close
    split
    · trivial
    · exact looks_jsonMembers fuel fuel _
  · exact looks_jsonError _

theorem looks_jsonEnd (fuel : Nat) : Looks 0 (jsonEnd fuel) := by
  intro marks
  apply (looks_jsonSkipSpace fuel).bind
  intro _
  apply looks_peek
  · intro c
    exact looks_jsonError _
  · trivial

theorem looks_jsonNext (fuel : Nat) : Looks 0 (jsonNext fuel) := by
  apply (looks_jsonSkipSpace fuel).bind
  intro _ marks
  apply (looks_jsonObject fuel).bind
  intro object
  apply (looks_jsonAccept fuel _).bind
  intro close
  split
  · exact (looks_jsonEnd fuel).bind fun _ _ => trivial
  · apply (looks_jsonAccept fuel _).bind
    intro comma
    split
    · exact fun _ => trivial
    · exact (looks_jsonError _).bind fun _ _ => trivial

theorem looks_jsonRow (fuel : Nat) : Looks 0 (jsonRow fuel) := by
  apply looks_get
  intro marks
  split
  · exact looks_jsonNext fuel
  · apply (looks_jsonAccept fuel _).bind
    intro opened
    split
    · apply looks_get
      intro marks
      apply looks_set
      apply (looks_jsonAccept fuel _).bind
      intro close
      split
      · exact (looks_jsonEnd fuel).bind fun _ _ => trivial
      · exact looks_jsonNext fuel
    · exact looks_jsonError _

end Vsql.Cli
