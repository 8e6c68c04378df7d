import Vsql.Cli.JsonComplete

/-!
# Importing a JSON file

A JSON text that is an array of objects is read as what it denotes.  The reader takes some more
than that: control characters in a string, and numbers of which only the characters are checked.
-/

namespace Vsql.Cli

open Foundation
open Foundation.ReadingProgram

/-! ## Rules that allow more -/

structure JsonRules.Le (r r' : JsonRules) : Prop where
  char : ∀ c, r.char c → r'.char c
  number : ∀ s, r.number s → r'.number s
  unpaired : r.unpaired → r'.unpaired

variable {r r' : JsonRules}

theorem StringText.mono (hle : r.Le r') {body text : Bytes} (h : StringText r body text) :
    StringText r' body text := by
  induction h with
  | nil => exact .nil
  | char hc _ ih => exact .char (hle.char _ hc) ih
  | escape hescape _ ih => exact .escape hescape ih
  | unicode hhex hcode _ ih => exact .unicode hhex hcode ih
  | pair hhex hhigh hhex' hlow _ ih => exact .pair hhex hhigh hhex' hlow ih
  | low hrules hhex hlow any _ ih => exact .low (hle.unpaired hrules) hhex hlow any ih
  | high hrules hhex hhigh halone any _ ih =>
      exact .high (hle.unpaired hrules) hhex hhigh halone any ih
  | mismatched hrules hhex hhigh hhex' hcode any _ ih =>
      exact .mismatched (hle.unpaired hrules) hhex hhigh hhex' hcode any ih

theorem ValueText.mono (hle : r.Le r') {s : Bytes} {cell : ReadCell} (h : ValueText r s cell) :
    ValueText r' s cell := by
  cases h with
  | string hbody => exact .string (hbody.mono hle)
  | number hs => exact .number (hle.number _ hs)
  | true => exact .true
  | false => exact .false
  | null => exact .null

theorem MemberText.mono (hle : r.Le r') {s : Bytes} {m : Bytes × ReadCell}
    (h : MemberText r s m) : MemberText r' s m := by
  cases h with
  | intro h₁ hname h₂ h₃ hvalue h₄ =>
      exact .intro h₁ (hname.mono hle) h₂ h₃ (hvalue.mono hle) h₄

theorem MembersText.mono (hle : r.Le r') {s : Bytes} {ms : List (Bytes × ReadCell)}
    (h : MembersText r s ms) : MembersText r' s ms := by
  induction h with
  | one hm => exact .one (hm.mono hle)
  | cons hm _ ih => exact .cons (hm.mono hle) ih

theorem ObjectText.mono (hle : r.Le r') {s : Bytes} {object : JsonObject}
    (h : ObjectText r s object) : ObjectText r' s object := by
  cases h with
  | empty hs => exact .empty hs
  | members hs => exact .members (hs.mono hle)

theorem RowsText.mono (hle : r.Le r') {s : Bytes} {objects : List JsonObject}
    (h : RowsText r s objects) : RowsText r' s objects := by
  induction h with
  | one h₁ hs h₂ => exact .one h₁ (hs.mono hle) h₂
  | cons h₁ hs h₂ _ ih => exact .cons h₁ (hs.mono hle) h₂ ih

theorem FileText.mono (hle : r.Le r') {s : Bytes} {objects : List JsonObject}
    (h : FileText r s objects) : FileText r' s objects := by
  cases h with
  | empty h₁ h₂ h₃ => exact .empty h₁ h₂ h₃
  | rows h₁ hs h₃ => exact .rows h₁ (hs.mono hle) h₃

/-! ## The rules of RFC 8259 -/

theorem Digits.head {s : Bytes} (h : Digits s) : ∃ c, s.head? = some c ∧ isDigit c := by
  cases s with
  | nil => exact absurd rfl h.1
  | cons c s => exact ⟨c, rfl, h.2 c (List.mem_cons_self ..)⟩

theorem Digits.last {s : Bytes} (h : Digits s) : ∃ c, s.getLast? = some c ∧ isDigit c := by
  obtain ⟨c, hc⟩ := Option.isSome_iff_exists.1 (List.getLast?_isSome.2 h.1)
  exact ⟨c, hc, h.2 c (List.mem_of_getLast? hc)⟩

/-- Bytes that numbers are made of. -/
def NumberBytes (s : Bytes) : Prop :=
  ∀ c ∈ s, isDigit c ∨ c ∈ [byte '-', byte '+', byte '.', byte 'e', byte 'E']

theorem NumberBytes.append {s s' : Bytes} (h : NumberBytes s) (h' : NumberBytes s') :
    NumberBytes (s ++ s') := by
  intro c hc
  rw [List.mem_append] at hc
  exact hc.elim (h c) (h' c)

theorem Digits.numberBytes {s : Bytes} (h : Digits s) : NumberBytes s := fun c hc => .inl (h.2 c hc)

theorem last_append {s' : Bytes} (h : ∃ c, s'.getLast? = some c ∧ isDigit c) (s : Bytes) :
    ∃ c, (s ++ s').getLast? = some c ∧ isDigit c := by
  obtain ⟨c, hlast, hc⟩ := h
  exact ⟨c, by rw [List.getLast?_append, hlast]; rfl, hc⟩

theorem NumberText.loose {s : Bytes} (h : NumberText s) : LooseNumber s := by
  obtain ⟨minus, integer, fraction, exponent, hminus, ⟨hinteger, -⟩, hfraction, hexponent, rfl⟩ := h
  have hminusBytes : NumberBytes minus := by
    rcases hminus with rfl | rfl
    · intro c hc
      cases hc
    · intro c hc
      rw [List.mem_singleton] at hc
      rw [hc]
      decide
  have hfractionBytes : NumberBytes fraction := by
    rcases hfraction with rfl | ⟨digits, hdigits, rfl⟩
    · intro c hc
      cases hc
    · exact List.forall_mem_cons.2 ⟨by decide, hdigits.numberBytes⟩
  have hexponentBytes : NumberBytes exponent := by
    rcases hexponent with rfl | ⟨e, sign, digits, he, hsign, hdigits, rfl⟩
    · intro c hc
      cases hc
    · have hsignBytes : NumberBytes sign := by
        rcases hsign with rfl | rfl | rfl
        · intro c hc
          cases hc
        · exact List.forall_mem_singleton.2 (by decide)
        · exact List.forall_mem_singleton.2 (by decide)
      have heByte : isDigit e ∨ e ∈ [byte '-', byte '+', byte '.', byte 'e', byte 'E'] := by
        rcases he with rfl | rfl <;> decide
      exact List.forall_mem_cons.2 ⟨heByte, hsignBytes.append hdigits.numberBytes⟩
  refine ⟨?_, ?_, ?_⟩
  · exact ((hminusBytes.append hinteger.numberBytes).append hfractionBytes).append hexponentBytes
  · rcases hminus with rfl | rfl
    · obtain ⟨c, hhead, hc⟩ := hinteger.head
      rw [List.head?_eq_some_iff] at hhead
      obtain ⟨tail, rfl⟩ := hhead
      exact ⟨c, rfl, .inl hc⟩
    · exact ⟨_, rfl, .inr rfl⟩
  · rcases hexponent with rfl | ⟨e, sign, digits, -, -, hdigits, rfl⟩
    · rw [List.append_nil]
      rcases hfraction with rfl | ⟨digits, hdigits, rfl⟩
      · rw [List.append_nil]
        exact last_append hinteger.last _
      · exact last_append (last_append hdigits.last [byte '.']) _
    · exact last_append (last_append hdigits.last _) _

theorem rfc_le_loose : JsonRules.rfc.Le (.loose False) where
  char _ hc := hc.2
  number _ hs := hs.loose
  unpaired h := h

/-! ## Control characters -/

/-- White space, or nothing that has to be escaped. -/
def Printable (s : Bytes) : Prop := ∀ c ∈ s, isJsonSpace c ∨ 0x20 ≤ c

instance (s : Bytes) : Decidable (Printable s) :=
  inferInstanceAs (Decidable (∀ c ∈ s, isJsonSpace c ∨ 0x20 ≤ c))

theorem Printable.append {s s' : Bytes} (h : Printable s) (h' : Printable s') :
    Printable (s ++ s') := by
  intro c hc
  rw [List.mem_append] at hc
  exact hc.elim (h c) (h' c)

theorem Printable.cons {c : UInt8} {s : Bytes} (hc : 0x20 ≤ c) (h : Printable s) :
    Printable (c :: s) := List.forall_mem_cons.2 ⟨.inr hc, h⟩

theorem printable_nil : Printable [] := fun c hc => by cases hc

theorem Space.printable {s : Bytes} (h : Space s) : Printable s := fun c hc => .inl (h c hc)

theorem HexText.printable {hex : Bytes} {code : Nat} (h : HexText hex code) : Printable hex := by
  obtain ⟨ds, -, hds, -⟩ := h
  have hdigit : ∀ c d, hexDigit? c = some d → 0x20 ≤ c := fun c =>
    forall_byte (P := fun c => ∀ d, hexDigit? c = some d → 0x20 ≤ c) (by
      have hall : ∀ n < 256, (hexDigit? (UInt8.ofNat n)).isSome → 0x20 ≤ UInt8.ofNat n := by
        decide +kernel
      intro n hn d hd
      exact hall n hn (by rw [hd]; rfl)) c
  intro c hc
  have hmem : hexDigit? c ∈ hex.map hexDigit? := List.mem_map_of_mem hc
  rw [hds, List.mem_map] at hmem
  obtain ⟨d, -, hd⟩ := hmem
  exact .inr (hdigit c d hd.symm)

theorem printable_unicodeEscape {hex : Bytes} {code : Nat} (h : HexText hex code) :
    Printable (unicodeEscape hex) := .cons (by decide) (.cons (by decide) h.printable)

theorem StringText.printable {body text : Bytes} (h : StringText .rfc body text) :
    Printable body := by
  induction h with
  | nil => exact printable_nil
  | char hc _ ih => exact .cons hc.1 ih
  | @escape e c body text hescape _ ih =>
      have he : 0x20 ≤ e := by
        revert hescape
        exact forall_byte (P := fun e => simpleEscape? e = some c → 0x20 ≤ e) (by
          have hall : ∀ n < 256, (simpleEscape? (UInt8.ofNat n)).isSome → 0x20 ≤ UInt8.ofNat n := by
            decide +kernel
          intro n hn he
          exact hall n hn (by rw [he]; rfl)) e
      exact .cons (by decide) (.cons he ih)
  | unicode hhex _ _ ih => exact (printable_unicodeEscape hhex).append ih
  | pair hhex _ hhex' _ _ ih =>
      exact ((printable_unicodeEscape hhex).append (printable_unicodeEscape hhex')).append ih
  | low hrules => exact hrules.elim
  | high hrules => exact hrules.elim
  | mismatched hrules => exact hrules.elim

theorem printable_quoted {body : Bytes} (h : Printable body) : Printable (quoted body) :=
  .cons (by decide) (h.append (.cons (by decide) printable_nil))

theorem ValueText.printable {s : Bytes} {cell : ReadCell} (h : ValueText .rfc s cell) :
    Printable s := by
  cases h with
  | string hbody => exact printable_quoted hbody.printable
  | number hs =>
      have hbyte : ∀ c, (isDigit c ∨ c ∈ [byte '-', byte '+', byte '.', byte 'e', byte 'E']) →
          0x20 ≤ c := fun c =>
        forall_byte (P := fun c => (isDigit c ∨
          c ∈ [byte '-', byte '+', byte '.', byte 'e', byte 'E']) → 0x20 ≤ c) (by decide +kernel) c
      exact fun c hc => .inr (hbyte c ((NumberText.loose hs).1 c hc))
  | true => decide +kernel
  | false => decide +kernel
  | null => decide +kernel

theorem MemberText.printable {s : Bytes} {m : Bytes × ReadCell} (h : MemberText .rfc s m) :
    Printable s := by
  cases h with
  | intro h₁ hname h₂ h₃ hvalue h₄ =>
      have hfirst := (h₁.printable.append (printable_quoted hname.printable)).append h₂.printable
      rw [List.append_assoc, List.append_assoc]
      exact hfirst.append (.cons (by decide) (h₃.printable.append (hvalue.printable.append
        h₄.printable)))

theorem MembersText.printable {s : Bytes} {ms : List (Bytes × ReadCell)}
    (h : MembersText .rfc s ms) : Printable s := by
  induction h with
  | one hm => exact hm.printable
  | cons hm _ ih => exact hm.printable.append (.cons (by decide) ih)

theorem ObjectText.printable {s : Bytes} {object : JsonObject} (h : ObjectText .rfc s object) :
    Printable s := by
  cases h with
  | empty hs =>
      exact (Printable.cons (by decide) hs.printable).append
        (.cons (by decide) printable_nil)
  | members hs =>
      exact (Printable.cons (by decide) hs.printable).append
        (.cons (by decide) printable_nil)

theorem RowsText.printable {s : Bytes} {objects : List JsonObject} (h : RowsText .rfc s objects) :
    Printable s := by
  induction h with
  | one h₁ hs h₂ => exact (h₁.printable.append hs.printable).append h₂.printable
  | cons h₁ hs h₂ _ ih =>
      exact ((h₁.printable.append hs.printable).append h₂.printable).append
        (.cons (by decide) ih)

/-- There are no control characters in a file but white space. -/
theorem FileText.printable {s : Bytes} {objects : List JsonObject} (h : FileText .rfc s objects) :
    Printable s := by
  cases h with
  | empty h₁ h₂ h₃ =>
      rw [List.append_assoc]
      exact h₁.printable.append (.cons (by decide) (h₂.printable.append
        (.cons (by decide) h₃.printable)))
  | rows h₁ hs h₃ =>
      rw [List.append_assoc]
      exact h₁.printable.append (.cons (by decide) (hs.printable.append
        (.cons (by decide) h₃.printable)))

/-! ## Files -/

/-- The objects of a file, or the error of the call that fails. -/
def jsonFile (file : Bytes) : Except ReadFailure (List JsonObject) :=
  ((jsonRows (file.length + 1) (file.length + 1)).run ImportMarks.advance .pastEnd items
    { offset := (afterBom file).2 } (afterBom file).1).result

theorem length_afterBom_le (file : Bytes) : (afterBom file).1.length ≤ file.length := by
  unfold afterBom
  split
  · rw [List.length_drop]
    exact Nat.sub_le _ _
  · exact Nat.le_refl _

/-- The objects of a JSON text are read.  What is read is an array of objects, with the strings
that are denoted by what has pairs of surrogates.  Otherwise there is an error. -/
theorem jsonFile_of_text (file : Bytes) :
    (∀ objects, FileText .rfc (afterBom file).1 objects → jsonFile file = .ok objects) ∧
      (∀ objects, FileText (.loose False) (afterBom file).1 objects →
        jsonFile file = .ok objects) ∧
      (∀ objects, jsonFile file = .ok objects →
        FileText (.loose True) (afterBom file).1 objects) ∧
      ∀ e, jsonFile file = .error e → ∃ message, e = .error message := by
  have hlength := length_afterBom_le file
  have hmarks : ({ offset := (afterBom file).2 } : ImportMarks).jsonMarks =
      (false, false, false) := rfl
  have hread : ∀ objects, FileText (.loose False) (afterBom file).1 objects →
      jsonFile file = .ok objects := by
    intro objects h
    have hrun := readsFrom_jsonFile h (Nat.lt_succ_of_le hlength) (Nat.lt_succ_of_le hlength)
      hmarks
    unfold MeetsFrom at hrun
    unfold jsonFile
    split at hrun
    · next hp =>
        rw [hp, hrun]
    · exact hrun.elim
  have hgives := givesFrom_jsonRows (Nat.lt_succ_of_le hlength) (Nat.lt_succ_of_le hlength)
    hmarks
  unfold GivesFrom MeetsFrom at hgives
  refine ⟨?_, hread, ?_, ?_⟩
  · exact fun objects h => hread objects (h.mono rfc_le_loose)
  · intro objects h
    unfold jsonFile at h
    split at hgives
    · next hp =>
        rw [hp] at h
        cases h
        exact hgives
    · next hp =>
        rw [hp] at h
        cases h
  · intro e h
    unfold jsonFile at h
    split at hgives
    · next hp =>
        rw [hp] at h
        cases h
    · next hp =>
        rw [hp] at h
        cases h
        exact hgives

/-- `[{"a":"\uD83D\uDE00"}]`, after a byte order mark -/
def pairFile : Bytes :=
  [0xEF, 0xBB, 0xBF] ++ bytesOf "[\x7b\"a\":\"\\uD83D\\uDE00\"\x7d]"

/-- `[{"a":"\uDC00"}]` -/
def loneFile : Bytes := bytesOf "[\x7b\"a\":\"\\uDC00\"\x7d]"

/-- A pair of escapes denotes U+1F600, half of one denotes nothing in particular. -/
theorem jsonFile_of_text_surrogates :
    jsonFile pairFile = .ok [objectOf [(bytesOf "a", ⟨.value, utf8 0x1F600⟩)]] ∧
      ∃ text, FileText (.loose True) loneFile [objectOf [(bytesOf "a", ⟨.value, text⟩)]] := by
  constructor
  · have hspace : Space [] := fun c hc => by cases hc
    have hchar : (0x20 : UInt8) ≤ byte 'a' ∧ byte 'a' ≠ byte '"' ∧ byte 'a' ≠ byte '\\' := by
      decide +kernel
    have hname : StringText .rfc [byte 'a'] [byte 'a'] := .char hchar .nil
    have hhigh : HexText (bytesOf "D83D") 0xD83D := ⟨[13, 8, 3, 13], rfl, by decide +kernel, rfl⟩
    have hlow : HexText (bytesOf "DE00") 0xDE00 := ⟨[13, 14, 0, 0], rfl, by decide +kernel, rfl⟩
    have hvalue : StringText .rfc _ _ := .pair hhigh ⟨by decide, by decide⟩ hlow
      ⟨by decide, by decide⟩ .nil
    have hmember := MemberText.intro hspace hname hspace hspace (.string hvalue) hspace
    have hrows := RowsText.one hspace (.members (.one hmember)) hspace
    have hfile : FileText .rfc (afterBom pairFile).1 _ := FileText.rows hspace hrows hspace
    exact (jsonFile_of_text pairFile).1 _ hfile
  · refine ⟨utf32ToStr 0xDC00, ?_⟩
    have hread : jsonFile loneFile =
        .ok [objectOf [(bytesOf "a", ⟨.value, utf32ToStr 0xDC00⟩)]] := by decide +kernel
    exact (jsonFile_of_text loneFile).2.2.1 _ hread

/-- `[{"a":"\x01"}]` -/
def controlFile : Bytes := bytesOf "[\x7b\"a\":\"" ++ [1] ++ bytesOf "\"\x7d]"

/-- Not only JSON texts are accepted. -/
theorem not_rfc_of_jsonFile :
    ¬∀ file objects, jsonFile file = .ok objects → FileText .rfc (afterBom file).1 objects := by
  intro h
  have hread : ∃ objects, jsonFile controlFile = .ok objects :=
    ⟨OrderedMap.empty.set (bytesOf "a") ⟨.value, [1]⟩ :: [], by decide +kernel⟩
  obtain ⟨objects, hobjects⟩ := hread
  have hprintable := (h controlFile objects hobjects).printable
  have hno : ¬Printable (afterBom controlFile).1 := by decide +kernel
  exact hno hprintable

end Vsql.Cli
