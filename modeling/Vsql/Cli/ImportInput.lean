import Vsql.Foundation.ByteFile
import Vsql.Foundation.ReadingProgram
import Vsql.Import

/-!
# The input of an import

A file is read in chunks, which can end anywhere.  Everything but `takeChunk` looks at the
file a byte at a time, so it is a program that peeks and skips, and the chunks make no
difference to it.
-/

namespace Vsql.Cli

open Foundation
open Foundation.ReadingProgram

/-! ## The buffer -/

/-- What one call of the reader returns. -/
abbrev Chunk := {data : Bytes // data ≠ []}

structure ImportInput where
  /-- The chunks that are still to be read. -/
  reader : List Chunk
  buffer : Bytes
  pos : Nat
  atEof : Bool
  pos_le : pos ≤ buffer.length
  reader_of_atEof : atEof = true → reader = []

namespace ImportInput

def ofChunks (reader : List Chunk) : ImportInput where
  reader := reader
  buffer := []
  pos := 0
  atEof := false
  pos_le := Nat.le_refl 0
  reader_of_atEof h := by cases h

def fill (input : ImportInput) : ImportInput :=
  match h : input.reader with
  | [] =>
      { reader := [], buffer := input.buffer.drop input.pos, pos := 0, atEof := true
        pos_le := Nat.zero_le _
        reader_of_atEof := fun _ => rfl }
  | chunk :: reader =>
      { reader := reader, buffer := input.buffer.drop input.pos ++ chunk.val, pos := 0
        atEof := input.atEof
        pos_le := Nat.zero_le _
        reader_of_atEof := fun heof => by
          rw [input.reader_of_atEof heof] at h
          cases h }

/-- There is one more call of the reader than there are chunks. -/
def fillTo (ahead : Nat) : Nat → ImportInput → ImportInput
  | 0, input => input
  | calls + 1, input =>
      if input.pos + ahead ≥ input.buffer.length ∧ ¬input.atEof then fillTo ahead calls input.fill
      else input

def peek (ahead : Nat) (input : ImportInput) : Option UInt8 × ImportInput :=
  let input := fillTo ahead (input.reader.length + 1) input
  (input.buffer[input.pos + ahead]?, input)

def skip (input : ImportInput) : Option (UInt8 × ImportInput) :=
  if h : input.pos < input.buffer.length then
    some (input.buffer[input.pos], { input with pos := input.pos + 1, pos_le := h })
  else none

def takeChunk (input : ImportInput) : Bytes × ImportInput :=
  let input := if input.pos ≥ input.buffer.length ∧ ¬input.atEof then input.fill else input
  (input.buffer.drop input.pos,
    { input with buffer := [], pos := 0, pos_le := Nat.le_refl 0 })

def source : Source UInt8 ImportInput := ⟨peek, skip⟩

/-! ## What is left of the file -/

/-- The rest of the file, from the next byte on. -/
def rest (input : ImportInput) : Bytes :=
  input.buffer.drop input.pos ++ (input.reader.map Subtype.val).flatten

/-- The bytes that are in the buffer. -/
def ready (input : ImportInput) : Nat := input.buffer.length - input.pos

theorem rest_ofChunks (reader : List Chunk) :
    (ofChunks reader).rest = (reader.map Subtype.val).flatten := rfl

@[simp] theorem rest_fill (input : ImportInput) : input.fill.rest = input.rest := by
  unfold fill rest
  split
  · next h => simp [h]
  · next h => simp [h]

theorem ready_fill (input : ImportInput) : input.ready ≤ input.fill.ready := by
  unfold fill ready
  split <;> simp

theorem rest_fillTo (ahead calls : Nat) (input : ImportInput) :
    (fillTo ahead calls input).rest = input.rest := by
  induction calls generalizing input with
  | zero => rfl
  | succ calls ih =>
      unfold fillTo
      split
      · rw [ih, rest_fill]
      · rfl

theorem ready_fillTo (ahead calls : Nat) (input : ImportInput) :
    input.ready ≤ (fillTo ahead calls input).ready := by
  induction calls generalizing input with
  | zero => exact Nat.le_refl _
  | succ calls ih =>
      unfold fillTo
      split
      · exact Nat.le_trans input.ready_fill (ih _)
      · exact Nat.le_refl _

/-- There are enough calls to get the byte, or to find the end of the file. -/
theorem fillTo_done (ahead : Nat) {calls : Nat} {input : ImportInput}
    (h : input.reader.length < calls ∨ input.atEof) :
    ahead < (fillTo ahead calls input).ready ∨ (fillTo ahead calls input).atEof := by
  induction calls generalizing input with
  | zero => exact .inr (h.resolve_left (Nat.not_lt_zero _))
  | succ calls ih =>
      unfold fillTo
      split
      · next hmore =>
          apply ih
          unfold fill
          split
          · exact .inr rfl
          · next chunk reader hreader =>
              have hlength := h.resolve_right hmore.2
              rw [hreader, List.length_cons] at hlength
              exact .inl (by simpa using hlength)
      · next hdone =>
          rw [not_and_or, not_not] at hdone
          unfold ready
          exact hdone.imp (fun hlt => by omega) id

theorem getElem?_rest {input : ImportInput} {ahead : Nat}
    (h : ahead < input.ready ∨ input.atEof) :
    input.buffer[input.pos + ahead]? = input.rest[ahead]? := by
  unfold rest
  rw [← List.getElem?_drop]
  rcases h with h | h
  · rw [List.getElem?_append_left (by rw [List.length_drop]; exact h)]
  · rw [input.reader_of_atEof h, List.map_nil, List.flatten_nil, List.append_nil]

theorem lt_ready {input : ImportInput} {ahead : Nat} (h : ahead < input.ready ∨ input.atEof)
    (hlt : ahead < input.rest.length) : ahead < input.ready := by
  rcases h with h | h
  · exact h
  · unfold rest at hlt
    rw [input.reader_of_atEof h, List.map_nil, List.flatten_nil, List.append_nil,
      List.length_drop] at hlt
    exact hlt

/-- The chunks make no difference. -/
theorem source_gives : source.Gives rest ready where
  item ahead input := by
    have hdone := fillTo_done ahead (.inl (Nat.lt_succ_self input.reader.length))
    rw [← rest_fillTo ahead (input.reader.length + 1) input]
    exact getElem?_rest hdone
  rest_peek ahead input := rest_fillTo ahead _ input
  ready_le ahead input := ready_fillTo ahead _ input
  lt_ready ahead input hlt := by
    have hdone := fillTo_done ahead (.inl (Nat.lt_succ_self input.reader.length))
    rw [← rest_fillTo ahead (input.reader.length + 1) input] at hlt
    exact lt_ready hdone hlt
  skip input hready := by
    have hlt : input.pos < input.buffer.length := by
      unfold ready at hready
      omega
    refine ⟨_, _, dif_pos hlt, ?_, ?_⟩
    · unfold rest
      rw [List.drop_eq_getElem_cons hlt]
      rfl
    · simp only [ready]
      omega

end ImportInput
/-! ## Programs -/

/-- How far through the file it is. -/
structure ImportMarks where
  offset : Nat := 0
  line : Nat := 1
  recordLine : Nat := 1
  jsonStarted : Bool := false
  jsonFinished : Bool := false
  jsonEmpty : Bool := false
  deriving DecidableEq

def byte (c : Char) : UInt8 := UInt8.ofNat c.toNat

/-- The bytes of a text in ASCII. -/
def bytesOf (s : String) : Bytes := s.toList.map byte

/-- The byte has been used. -/
def ImportMarks.advance (c : UInt8) (marks : ImportMarks) : ImportMarks :=
  { marks with
    line := if c = byte '\n' then marks.line + 1 else marks.line
    offset := marks.offset + 1 }

/-- How far through a JSON file it is, which only the rows of the file change. -/
def ImportMarks.jsonMarks (marks : ImportMarks) : Bool × Bool × Bool :=
  (marks.jsonStarted, marks.jsonFinished, marks.jsonEmpty)

theorem jsonMarks_advance (c : UInt8) (marks : ImportMarks) :
    (marks.advance c).jsonMarks = marks.jsonMarks := rfl

inductive ReadFailure where
  | error (message : Bytes)
  /-- A byte is used that is not in the buffer. -/
  | pastEnd
  | outOfFuel
  deriving DecidableEq

abbrev InputProgram (α : Type) := ReadingProgram ImportMarks UInt8 ReadFailure α

def InputProgram.error {α : Type} (message : Bytes) : InputProgram α := .fail (.error message)

/-- Skips as many bytes as have been seen. -/
def skipSeen : Nat → InputProgram Unit
  | 0 => pure ()
  | n + 1 => do
      skipItem
      skipSeen n

def acceptTextFrom (text : Bytes) (i : Nat) : Bytes → InputProgram Bool
  | [] => do
      skipSeen text.length
      pure true
  | c :: rest => do
      match ← peekItem i with
      | none => pure false
      | some next => if next ≠ c then pure false else acceptTextFrom text (i + 1) rest

/-- Skips the text, if that is what is next. -/
def acceptText (text : Bytes) : InputProgram Bool := acceptTextFrom text 0 text

/-- A byte order mark is skipped. -/
def skipBom : InputProgram Unit := do
  let _ ← acceptText [0xef, 0xbb, 0xbf]

theorem looks_skipSeen (n : Nat) : Looks n (skipSeen n) := by
  induction n with
  | zero => trivial
  | succ n ih => exact looks_skip ih

theorem looks_acceptTextFrom (text : Bytes) {i : Nat} {rest : Bytes}
    (h : i + rest.length = text.length) : Looks i (acceptTextFrom text i rest) := by
  induction rest generalizing i with
  | nil =>
      have hi : i = text.length := h
      rw [hi]
      exact (looks_skipSeen text.length).bind fun _ => trivial
  | cons c rest ih =>
      apply looks_peek
      · intro next
        rw [Nat.max_eq_right (Nat.le_succ i)]
        dsimp only
        split
        · trivial
        · exact ih (by rw [List.length_cons] at h; omega)
      · trivial

theorem looks_acceptText (text : Bytes) : Looks 0 (acceptText text) :=
  looks_acceptTextFrom text (Nat.zero_add _)

/-! ## Accepting a text -/

theorem run_skipSeen {n : Nat} {l : Bytes} (h : n ≤ l.length) (marks : ImportMarks) :
    (skipSeen n).run ImportMarks.advance .pastEnd items marks l =
      ⟨.ok (), (l.take n).foldl (fun marks c => marks.advance c) marks, l.drop n⟩ := by
  induction n generalizing l marks with
  | zero => rfl
  | succ n ih =>
      cases l with
      | nil => exact absurd h (Nat.not_succ_le_zero n)
      | cons c l => exact ih (Nat.le_of_succ_le_succ h) _

theorem run_acceptTextFrom (before : Bytes) {text rest l : Bytes} (htext : before ++ rest = text)
    (hbefore : before <+: l) (marks : ImportMarks) :
    (acceptTextFrom text before.length rest).run ImportMarks.advance .pastEnd items marks l =
      if text <+: l then
        ⟨.ok true, text.foldl (fun marks c => marks.advance c) marks, l.drop text.length⟩
      else ⟨.ok false, marks, l⟩ := by
  induction rest generalizing before with
  | nil =>
      rw [List.append_nil] at htext
      subst htext
      unfold acceptTextFrom
      rw [run_bind, run_skipSeen hbefore.length_le, if_pos hbefore,
        ← List.prefix_iff_eq_take.1 hbefore]
      rfl
  | cons c rest ih =>
      have hnext : text <+: l → l[before.length]? = some c := by
        rintro ⟨more, rfl⟩
        rw [← htext]
        simp
      unfold acceptTextFrom
      rw [run_bind]
      change ReadingProgram.run ImportMarks.advance ReadFailure.pastEnd items
        (match l[before.length]? with
          | none => pure false
          | some next =>
              if next ≠ c then pure false else acceptTextFrom text (before.length + 1) rest)
        marks l = _
      cases hlook : l[before.length]? with
      | none =>
          have hno : ¬text <+: l := fun h => by
            cases hlook.symm.trans (hnext h)
          rw [if_neg hno]
          rfl
      | some next =>
          dsimp only
          split
          · next hne =>
              have hno : ¬text <+: l := fun h => by
                cases hlook.symm.trans (hnext h)
                exact hne rfl
              rw [if_neg hno]
              rfl
          · next heq =>
              rw [not_not] at heq
              have hlonger : before ++ [c] <+: l := by
                rw [← heq]
                obtain ⟨more, rfl⟩ := hbefore
                cases more with
                | nil => simp at hlook
                | cons next' more =>
                    simp at hlook
                    subst hlook
                    exact ⟨more, by simp⟩
              have hrun := ih (before ++ [c]) (by simpa using htext) hlonger
              rw [List.length_append] at hrun
              exact hrun

theorem run_acceptText (text l : Bytes) (marks : ImportMarks) :
    (acceptText text).run ImportMarks.advance .pastEnd items marks l =
      if text <+: l then
        ⟨.ok true, text.foldl (fun marks c => marks.advance c) marks, l.drop text.length⟩
      else ⟨.ok false, marks, l⟩ :=
  run_acceptTextFrom [] rfl List.nil_prefix marks

/-- The program reads as `Q` says in any state, and keeps the marks of a JSON file. -/
abbrev Reads {α : Type} (failed : ReadFailure → Prop) (p : InputProgram α) (l : Bytes)
    (Q : α → Bytes → Prop) : Prop :=
  Meets ImportMarks.advance .pastEnd ImportMarks.jsonMarks failed p l Q

theorem jsonMarks_foldl (text : Bytes) (marks : ImportMarks) :
    (text.foldl (fun marks c => marks.advance c) marks).jsonMarks = marks.jsonMarks := by
  induction text generalizing marks with
  | nil => rfl
  | cons c text ih => exact ih _

/-- Whether it's next decides it. -/
theorem reads_acceptText {failed : ReadFailure → Prop} {Q : Bool → Bytes → Prop} {text l : Bytes}
    (htrue : text <+: l → Q true (l.drop text.length)) (hfalse : ¬text <+: l → Q false l) :
    Reads failed (acceptText text) l Q := by
  intro marks
  unfold MeetsFrom
  rw [run_acceptText]
  by_cases hnext : text <+: l
  · rw [if_pos hnext]
    exact ⟨jsonMarks_foldl text marks, htrue hnext⟩
  · rw [if_neg hnext]
    exact ⟨rfl, hfalse hnext⟩

theorem reads_skip {α : Type} {failed : ReadFailure → Prop} {c : UInt8} {l : Bytes}
    {f : Unit → InputProgram α} {Q : α → Bytes → Prop} (h : Reads failed (f ()) l Q) :
    Reads failed (skipItem >>= f) (c :: l) Q :=
  meets_skip jsonMarks_advance h

theorem reads_recordLine {α : Type} {failed : ReadFailure → Prop} {l : Bytes}
    {f : ImportMarks → InputProgram α} {Q : α → Bytes → Prop}
    (h : ∀ marks, Reads failed (f marks) l Q) :
    Reads failed (getState >>= fun marks =>
      setState { marks with recordLine := marks.line } >>= fun _ => f marks) l Q :=
  meets_change (fun marks => { marks with recordLine := marks.line }) (fun _ => rfl) h

theorem looks_skipBom : Looks 0 skipBom := (looks_acceptText _).bind fun _ => trivial

def byteOrderMark : Bytes := [0xef, 0xbb, 0xbf]

/-- What comes after a byte order mark, and where that is. -/
def afterBom (file : Bytes) : Bytes × Nat :=
  if byteOrderMark <+: file then (file.drop 3, 3) else (file, 0)

theorem run_skipBom (file : Bytes) :
    skipBom.run ImportMarks.advance ReadFailure.pastEnd items {} file =
      ⟨.ok (), { offset := (afterBom file).2 }, (afterBom file).1⟩ := by
  unfold skipBom afterBom byteOrderMark
  rw [run_bind, run_acceptText]
  by_cases hbom : [0xef, 0xbb, 0xbf] <+: file
  · rw [if_pos hbom, if_pos hbom]
    rfl
  · rw [if_neg hbom, if_neg hbom]
    rfl

end Vsql.Cli
