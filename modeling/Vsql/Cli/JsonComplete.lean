import Vsql.Cli.JsonSound

/-!
# What the reader reads

Every JSON text that is an array of objects is accepted, and gives the objects with the values
that the text denotes.
-/

namespace Vsql.Cli

open Foundation
open Foundation.ReadingProgram

/-! ## Results -/

def never (_ : ReadFailure) : Prop := False

/-- The program gives `a`, and `more` is left. -/
abbrev ReadsAs {α : Type} (p : InputProgram α) (l : Bytes) (a : α) (more : Bytes) : Prop :=
  Reads never p l fun a' left => a' = a ∧ left = more

theorem ReadsAs.bind {α β : Type} {p : InputProgram α} {f : α → InputProgram β}
    {l more : Bytes} {a : α} {Q : β → Bytes → Prop} (h : ReadsAs p l a more)
    (hf : Reads never (f a) more Q) : Reads never (p >>= f) l Q := by
  apply Meets.bind
  apply h.mono
  rintro _ _ ⟨rfl, rfl⟩
  exact hf

theorem readsAs_pure {α : Type} (a : α) (l : Bytes) : ReadsAs (pure a) l a l :=
  meets_pure ⟨rfl, rfl⟩

theorem readsAs_acceptText (text more : Bytes) :
    ReadsAs (acceptText text) (text ++ more) true more := by
  apply reads_acceptText
  · intro _
    rw [List.drop_left]
    exact ⟨rfl, rfl⟩
  · exact fun h => absurd (List.prefix_append text more) h

theorem readsAs_not_acceptText {text l : Bytes} (h : ¬text <+: l) :
    ReadsAs (acceptText text) l false l := by
  apply reads_acceptText
  · exact fun hprefix => absurd hprefix h
  · exact fun _ => ⟨rfl, rfl⟩

/-! ## Strings -/

theorem readsAs_jsonHexFrom {hex : Bytes} {ds : List Nat} (h : hex.map hexDigit? = ds.map some)
    (n : Nat) (more : Bytes) :
    ReadsAs (jsonHexFrom ds.length n) (hex ++ more) (ds.foldl (fun n d => 16 * n + d) n) more := by
  induction ds generalizing hex n with
  | nil =>
      rw [List.map_nil, List.map_eq_nil_iff] at h
      rw [h]
      exact readsAs_pure _ _
  | cons d ds ih =>
      cases hex with
      | nil => cases h
      | cons c hex =>
          rw [List.map_cons, List.map_cons, List.cons.injEq] at h
          apply meets_peek
          rw [List.cons_append, List.getElem?_cons_zero]
          dsimp only
          rw [h.1]
          apply reads_skip
          exact ih h.2 _

theorem readsAs_jsonHex4 {hex : Bytes} {code : Nat} (h : HexText hex code) (more : Bytes) :
    ReadsAs jsonHex4 (hex ++ more) code more := by
  obtain ⟨ds, hlength, hds, rfl⟩ := h
  have hread := readsAs_jsonHexFrom hds 0 more
  rw [hlength] at hread
  exact hread

theorem readsAs_jsonUnicodeEscape {hex : Bytes} {code : Nat} (hhex : HexText hex code)
    (hcode : ¬IsHigh code ∧ ¬IsLow code) (more : Bytes) :
    ReadsAs jsonUnicodeEscape (hex ++ more) (utf8 code) more := by
  have hlt := hhex.lt
  apply (readsAs_jsonHex4 hhex more).bind
  split
  · next hhigh => exact absurd hhigh hcode.1
  · rw [utf32ToStr_eq hcode (by omega)]
    exact readsAs_pure _ _

theorem readsAs_jsonUnicodeEscape_pair {hex hex' : Bytes} {high low : Nat}
    (hhex : HexText hex high) (hhigh : IsHigh high) (hhex' : HexText hex' low) (hlow : IsLow low)
    (more : Bytes) :
    ReadsAs jsonUnicodeEscape (hex ++ unicodeEscape hex' ++ more)
      (utf8 (0x10000 + (high - 0xd800) * 0x400 + (low - 0xdc00))) more := by
  have hpair : utf32ToStr (surrogatePair high low) =
      utf8 (0x10000 + (high - 0xd800) * 0x400 + (low - 0xdc00)) := by
    have hcode : surrogatePair high low =
        0x10000 + (high - 0xd800) * 0x400 + (low - 0xdc00) := by
      unfold surrogatePair
      unfold IsLow at hlow
      omega
    rw [hcode]
    unfold IsHigh at hhigh
    unfold IsLow at hlow
    apply utf32ToStr_eq
    · unfold IsHigh IsLow
      omega
    · omega
  rw [List.append_assoc]
  apply (readsAs_jsonHex4 hhex _).bind
  split
  · apply (readsAs_acceptText [byte '\\', byte 'u'] (hex' ++ more)).bind
    apply (readsAs_jsonHex4 hhex' more).bind
    rw [hpair]
    exact readsAs_pure _ _
  · next hno => exact absurd hhigh hno

theorem reads_jsonStringFrom_unicode {n : Nat} {sb l : Bytes} {Q : Bytes → Bytes → Prop}
    (h : Reads never (jsonUnicodeEscape >>= fun text => jsonStringFrom n (sb ++ text)) l Q) :
    Reads never (jsonStringFrom (n + 1) sb) (byte '\\' :: byte 'u' :: l) Q := by
  have hbackslash : ¬byte '\\' = byte '"' ∧ ¬byte '\\' ≠ byte '\\' := by decide
  have hsimple : simpleEscape? (byte 'u') = none := by decide
  apply meets_peek
  apply reads_skip
  rw [if_neg hbackslash.1, if_neg hbackslash.2]
  apply meets_peek
  apply reads_skip
  rw [hsimple]
  exact h

theorem readsAs_jsonStringFrom {body text : Bytes} (h : StringText (.loose False) body text)
    {fuel : Nat} (hfuel : body.length < fuel) (sb more : Bytes) :
    ReadsAs (jsonStringFrom fuel sb) (body ++ byte '"' :: more) (sb ++ text) more := by
  have hbackslash : ¬byte '\\' = byte '"' ∧ ¬byte '\\' ≠ byte '\\' := by decide
  induction h generalizing fuel sb with
  | nil =>
      cases fuel with
      | zero => exact absurd hfuel (Nat.not_lt_zero _)
      | succ n =>
          apply meets_peek
          apply reads_skip
          rw [if_pos rfl, List.append_nil]
          exact readsAs_pure _ _
  | @char c body text hc rest ih =>
      cases fuel with
      | zero => exact absurd hfuel (Nat.not_lt_zero _)
      | succ n =>
          apply meets_peek
          apply reads_skip
          rw [if_neg hc.1, if_pos hc.2, List.append_cons sb c text]
          exact ih (Nat.lt_of_succ_lt_succ hfuel) _
  | @escape e c body text hescape rest ih =>
      cases fuel with
      | zero => exact absurd hfuel (Nat.not_lt_zero _)
      | succ n =>
          rw [List.length_cons, List.length_cons] at hfuel
          apply meets_peek
          apply reads_skip
          rw [if_neg hbackslash.1, if_neg hbackslash.2]
          apply meets_peek
          apply reads_skip
          rw [hescape, List.append_cons sb c text]
          exact ih (by omega) _
  | @unicode hex code body text hhex hcode rest ih =>
      cases fuel with
      | zero => exact absurd hfuel (Nat.not_lt_zero _)
      | succ n =>
          simp only [unicodeEscape, List.cons_append, List.length_cons,
            List.length_append] at hfuel
          rw [List.append_assoc, ← List.append_assoc sb]
          apply reads_jsonStringFrom_unicode
          apply (readsAs_jsonUnicodeEscape hhex hcode _).bind
          exact ih (by omega) _
  | @pair hex hex' high low body text hhex hhigh hhex' hlow rest ih =>
      cases fuel with
      | zero => exact absurd hfuel (Nat.not_lt_zero _)
      | succ n =>
          simp only [unicodeEscape, List.cons_append, List.length_cons,
            List.length_append] at hfuel
          rw [List.append_assoc, ← List.append_assoc sb]
          apply reads_jsonStringFrom_unicode
          apply (readsAs_jsonUnicodeEscape_pair hhex hhigh hhex' hlow _).bind
          exact ih (by omega) _
  | low hrules => exact hrules.elim
  | high hrules => exact hrules.elim
  | mismatched hrules => exact hrules.elim

theorem readsAs_jsonString {body text : Bytes} (h : StringText (.loose False) body text)
    {fuel : Nat} (hfuel : body.length < fuel) (more : Bytes) :
    ReadsAs (jsonString fuel) (quoted body ++ more) text more := by
  have hbody : quoted body ++ more = byte '"' :: (body ++ byte '"' :: more) := by simp [quoted]
  rw [hbody]
  apply meets_peek
  apply reads_skip
  exact readsAs_jsonStringFrom h hfuel [] more

/-! ## White space -/

theorem readsAs_jsonSkipSpace {s more : Bytes} {fuel : Nat} (hfuel : s.length < fuel)
    (hs : Space s) (hmore : ∀ c, more.head? = some c → isJsonSpace c = false) :
    ReadsAs (jsonSkipSpace fuel) (s ++ more) () more := by
  induction s generalizing fuel with
  | nil =>
      cases fuel with
      | zero => exact absurd hfuel (Nat.not_lt_zero _)
      | succ n =>
          apply meets_peek
          cases more with
          | nil => exact readsAs_pure _ _
          | cons c more =>
              change ReadsAs (if isJsonSpace c then _ else _) _ _ _
              rw [hmore c rfl]
              exact readsAs_pure _ _
  | cons c s ih =>
      cases fuel with
      | zero => exact absurd hfuel (Nat.not_lt_zero _)
      | succ n =>
          rw [Space, List.forall_mem_cons] at hs
          apply meets_peek
          change ReadsAs (if isJsonSpace c then _ else _) _ _ _
          rw [if_pos hs.1]
          apply reads_skip
          exact ih (Nat.lt_of_succ_lt_succ hfuel) hs.2

theorem readsAs_jsonAccept {s more : Bytes} {c : UInt8} {fuel : Nat} (hfuel : s.length < fuel)
    (hs : Space s) (hc : isJsonSpace c = false) :
    ReadsAs (jsonAccept fuel c) (s ++ c :: more) true more := by
  apply (readsAs_jsonSkipSpace hfuel hs fun _ h => by cases h; exact hc).bind
  apply meets_peek
  change ReadsAs (if c = c then _ else _) _ _ _
  rw [if_pos rfl]
  apply reads_skip
  exact readsAs_pure _ _

/-- The white space is skipped, but not what comes after it. -/
theorem readsAs_not_jsonAccept {s more : Bytes} {c d : UInt8} {fuel : Nat}
    (hfuel : s.length < fuel) (hs : Space s) (hd : isJsonSpace d = false) (hne : d ≠ c) :
    ReadsAs (jsonAccept fuel c) (s ++ d :: more) false (d :: more) := by
  apply (readsAs_jsonSkipSpace hfuel hs fun _ h => by cases h; exact hd).bind
  apply meets_peek
  change ReadsAs (if d = c then _ else _) _ _ _
  rw [if_neg hne]
  exact readsAs_pure _ _

/-! ## Values -/

theorem readsAs_numberBytes {s more : Bytes} {fuel : Nat} (hfuel : s.length < fuel)
    (hs : ∀ c ∈ s, isNumberByte c) (hmore : ∀ c, more.head? = some c → isNumberByte c = false)
    (sb : Bytes) : ReadsAs (numberBytes fuel sb) (s ++ more) (sb ++ s) more := by
  induction s generalizing fuel sb with
  | nil =>
      cases fuel with
      | zero => exact absurd hfuel (Nat.not_lt_zero _)
      | succ n =>
          rw [List.append_nil]
          apply meets_peek
          cases more with
          | nil => exact readsAs_pure _ _
          | cons c more =>
              change ReadsAs (if ¬isNumberByte c then _ else _) _ _ _
              rw [hmore c rfl]
              exact readsAs_pure _ _
  | cons c s ih =>
      cases fuel with
      | zero => exact absurd hfuel (Nat.not_lt_zero _)
      | succ n =>
          rw [List.forall_mem_cons] at hs
          apply meets_peek
          change ReadsAs (if ¬isNumberByte c then _ else _) _ _ _
          rw [if_neg (not_not.2 hs.1)]
          apply reads_skip
          rw [List.append_cons sb c s]
          exact ih (Nat.lt_of_succ_lt_succ hfuel) hs.2 _

/-- What a property says of every byte. -/
theorem forall_byte {P : UInt8 → Prop} (h : ∀ n < 256, P (UInt8.ofNat n)) (c : UInt8) : P c := by
  have hc := h c.toNat c.toNat_lt
  rwa [UInt8.ofNat_toNat] at hc

/-- The first byte of a number starts nothing else. -/
theorem number_first (c : UInt8) : isDigit c ∨ c = byte '-' →
    isJsonSpace c = false ∧ c ≠ byte '"' ∧ ¬(c = byte '{' ∨ c = byte '[') ∧
      c ≠ byte 't' ∧ c ≠ byte 'f' ∧ c ≠ byte 'n' :=
  forall_byte (P := fun c => isDigit c ∨ c = byte '-' → isJsonSpace c = false ∧ c ≠ byte '"' ∧
    ¬(c = byte '{' ∨ c = byte '[') ∧ c ≠ byte 't' ∧ c ≠ byte 'f' ∧ c ≠ byte 'n')
    (by decide +kernel) c

theorem looseNumber_first {s : Bytes} (h : LooseNumber s) :
    ∃ c tail, s = c :: tail ∧ (isDigit c ∨ c = byte '-') := by
  obtain ⟨-, ⟨c, hhead, hc⟩, -⟩ := h
  rw [List.head?_eq_some_iff] at hhead
  obtain ⟨tail, rfl⟩ := hhead
  exact ⟨c, tail, rfl, hc⟩

/-- A value does not start with white space. -/
theorem valueText_first {value : Bytes} {cell : ReadCell}
    (h : ValueText (.loose False) value cell) :
    ∃ c tail, value = c :: tail ∧ isJsonSpace c = false := by
  cases h with
  | string hbody => exact ⟨_, _, rfl, by decide⟩
  | number hs =>
      obtain ⟨c, tail, rfl, hc⟩ := looseNumber_first hs
      exact ⟨c, tail, rfl, (number_first c hc).1⟩
  | true => exact ⟨_, _, rfl, by decide⟩
  | false => exact ⟨_, _, rfl, by decide⟩
  | null => exact ⟨_, _, rfl, by decide⟩

theorem not_prefix_of_ne {c d : UInt8} (h : c ≠ d) (l text : Bytes) : ¬d :: text <+: c :: l :=
  fun hprefix => h (List.cons_prefix_cons.1 hprefix).1.symm

theorem readsAs_jsonValue {s value more : Bytes} {cell : ReadCell} {fuel : Nat}
    (hfuel : (s ++ value).length < fuel) (hs : Space s)
    (h : ValueText (.loose False) value cell)
    (hmore : ∀ c, more.head? = some c → isNumberByte c = false) (name : Bytes) :
    ReadsAs (jsonValue fuel name) (s ++ (value ++ more)) cell more := by
  rw [List.length_append] at hfuel
  have hspace : ∀ c, (value ++ more).head? = some c → isJsonSpace c = false := by
    obtain ⟨c, tail, rfl, hc⟩ := valueText_first h
    intro c' hc'
    cases hc'
    exact hc
  apply (readsAs_jsonSkipSpace (by omega) hs hspace).bind
  apply meets_peek
  cases h with
  | @string body text hbody =>
      rw [length_quoted] at hfuel
      apply (readsAs_jsonString hbody (by omega) more).bind
      exact readsAs_pure _ _
  | number hnumber =>
      obtain ⟨hjson, hbytes⟩ := (looseNumber_iff value).1 hnumber
      obtain ⟨c, tail, rfl, hc⟩ := looseNumber_first hnumber
      obtain ⟨-, hquote, hbrace, ht, hf, hn⟩ := number_first c hc
      change Reads never (if c = byte '"' then _ else _) _ _
      rw [if_neg hquote, if_neg hbrace]
      apply (readsAs_not_acceptText (not_prefix_of_ne ht _ _)).bind
      apply (readsAs_not_acceptText (not_prefix_of_ne hf _ _)).bind
      apply (readsAs_not_acceptText (not_prefix_of_ne hn _ _)).bind
      apply (readsAs_numberBytes (by omega) hbytes hmore []).bind
      rw [List.nil_append, if_pos hjson]
      exact readsAs_pure _ _
  | true =>
      apply (readsAs_acceptText (bytesOf "true") more).bind
      exact readsAs_pure _ _
  | false =>
      apply (readsAs_not_acceptText (not_prefix_of_ne (by decide) _ _)).bind
      apply (readsAs_acceptText (bytesOf "false") more).bind
      exact readsAs_pure _ _
  | null =>
      apply (readsAs_not_acceptText (not_prefix_of_ne (by decide) _ _)).bind
      apply (readsAs_not_acceptText (not_prefix_of_ne (by decide) _ _)).bind
      apply (readsAs_acceptText (bytesOf "null") more).bind
      exact readsAs_pure _ _

/-! ## Objects -/

theorem space_nil : Space [] := fun c hc => by cases hc

/-- The white space before a member can be skipped first. -/
theorem MemberText.skipSpace {rules : JsonRules} {s : Bytes} {m : Bytes × ReadCell}
    (h : MemberText rules s m) :
    ∃ s₁ tail, s = s₁ ++ byte '"' :: tail ∧ Space s₁ ∧ MemberText rules (byte '"' :: tail) m := by
  cases h with
  | @intro s₁ s₂ s₃ s₄ body name value cell h₁ hname h₂ h₃ hvalue h₄ =>
      have hmember := MemberText.intro space_nil hname h₂ h₃ hvalue h₄
      refine ⟨s₁, _, ?_, h₁, hmember⟩
      simp [List.append_assoc, quoted]

theorem MembersText.skipSpace {rules : JsonRules} {s : Bytes} {ms : List (Bytes × ReadCell)}
    (h : MembersText rules s ms) :
    ∃ s₁ tail, s = s₁ ++ byte '"' :: tail ∧ Space s₁ ∧
      MembersText rules (byte '"' :: tail) ms := by
  cases h with
  | one hm =>
      obtain ⟨s₁, tail, rfl, h₁, hmember⟩ := hm.skipSpace
      exact ⟨s₁, tail, rfl, h₁, .one hmember⟩
  | cons hm rest =>
      obtain ⟨s₁, tail, rfl, h₁, hmember⟩ := hm.skipSpace
      refine ⟨s₁, _, ?_, h₁, .cons hmember rest⟩
      rw [List.append_assoc]
      rfl

theorem space_not_number (c : UInt8) : isJsonSpace c → isNumberByte c = false :=
  forall_byte (P := fun c => isJsonSpace c → isNumberByte c = false) (by decide +kernel) c

/-- What comes after a value does not go on with it. -/
theorem after_value {s more : Bytes} {d : UInt8} (hs : Space s) (hd : isNumberByte d = false) :
    ∀ c, (s ++ d :: more).head? = some c → isNumberByte c = false := by
  intro c hc
  cases s with
  | nil =>
      cases hc
      exact hd
  | cons c' s =>
      cases hc
      exact space_not_number _ (hs _ (List.mem_cons_self ..))

/-- A member is read, up to the white space after its value. -/
theorem reads_jsonMembers_member {m name : Bytes} {cell : ReadCell}
    (hm : MemberText (.loose False) m (name, cell)) {fuel members : Nat}
    (hfuel : m.length < fuel) {d : UInt8} (hd : isNumberByte d = false) {object : JsonObject}
    {more : Bytes} {Q : JsonObject → Bytes → Prop}
    (h : ∀ s, Space s → s.length < fuel → Reads never (do
      if ← jsonAccept fuel (byte '}') then pure (object.set name cell)
      else if ← jsonAccept fuel (byte ',') then
        jsonMembers fuel members (object.set name cell)
      else jsonError (bytesOf "expected \",\" or \"\x7d\"")) (s ++ d :: more) Q) :
    Reads never (jsonMembers fuel (members + 1) object) (m ++ d :: more) Q := by
  have hquote : ∀ l : Bytes, ∀ body, ∀ c, (quoted body ++ l).head? = some c →
      isJsonSpace c = false := by
    intro l body c hc
    cases hc
    decide
  cases hm with
  | @intro s₁ s₂ s₃ s₄ body name value cell h₁ hname h₂ h₃ hvalue h₄ =>
      simp only [List.length_append, List.length_cons, length_quoted] at hfuel
      have htext : s₁ ++ quoted body ++ s₂ ++ byte ':' :: s₃ ++ value ++ s₄ ++ d :: more =
          s₁ ++ (quoted body ++ (s₂ ++ byte ':' :: (s₃ ++ (value ++ (s₄ ++ d :: more))))) := by
        simp only [List.append_assoc, List.cons_append]
      rw [htext]
      unfold jsonMembers
      apply (readsAs_jsonSkipSpace (by omega) h₁ (hquote _ _)).bind
      apply (readsAs_jsonString hname (by omega) _).bind
      apply (readsAs_jsonAccept (by omega) h₂ (by decide)).bind
      have hlength : (s₃ ++ value).length < fuel := by
        rw [List.length_append]
        omega
      apply (readsAs_jsonValue hlength h₃ hvalue (after_value h₄ hd) name).bind
      exact h s₄ h₄ (by omega)

theorem readsAs_jsonMembers {s : Bytes} {ms : List (Bytes × ReadCell)}
    (h : MembersText (.loose False) s ms) {fuel members : Nat} (hfuel : s.length < fuel)
    (hmembers : s.length < members) (object : JsonObject) (more : Bytes) :
    ReadsAs (jsonMembers fuel members object) (s ++ byte '}' :: more)
      (ms.foldl (fun object m => object.set m.1 m.2) object) more := by
  induction h generalizing members object with
  | @one s m hm =>
      cases members with
      | zero => exact absurd hmembers (Nat.not_lt_zero _)
      | succ members =>
          apply reads_jsonMembers_member hm hfuel (by decide)
          intro s₄ h₄ hlength
          apply (readsAs_jsonAccept hlength h₄ (by decide)).bind
          exact readsAs_pure _ _
  | @cons s s' m ms hm rest ih =>
      cases members with
      | zero => exact absurd hmembers (Nat.not_lt_zero _)
      | succ members =>
          rw [List.length_append, List.length_cons] at hfuel hmembers
          rw [List.append_assoc]
          apply reads_jsonMembers_member hm (by omega) (by decide)
          intro s₄ h₄ hlength
          apply (readsAs_not_jsonAccept hlength h₄ (by decide) (by decide)).bind
          apply (readsAs_jsonAccept (s := []) (Nat.zero_lt_of_lt hlength) space_nil
            (by decide)).bind
          exact ih (by omega) (by omega) _

theorem readsAs_jsonObject {s s' more : Bytes} {object : JsonObject} {fuel : Nat} (hs : Space s)
    (h : ObjectText (.loose False) s' object) (hfuel : (s ++ s').length < fuel) :
    ReadsAs (jsonObject fuel) (s ++ (s' ++ more)) object more := by
  cases h with
  | @empty s₁ h₁ =>
      simp only [List.length_append, List.length_cons] at hfuel
      rw [List.append_assoc, List.cons_append]
      apply (readsAs_jsonAccept (by omega) hs (by decide)).bind
      apply (readsAs_jsonAccept (by omega) h₁ (by decide)).bind
      exact readsAs_pure _ _
  | @members s₁ ms h₁ =>
      obtain ⟨s₂, tail, rfl, h₂, hmembers⟩ := h₁.skipSpace
      simp only [List.length_append, List.length_cons] at hfuel
      have htext : s ++ (byte '{' :: (s₂ ++ byte '"' :: tail) ++ [byte '}'] ++ more) =
          s ++ byte '{' :: (s₂ ++ byte '"' :: (tail ++ byte '}' :: more)) := by
        simp only [List.append_assoc, List.cons_append, List.nil_append]
      have hlength : (byte '"' :: tail).length < fuel := by
        rw [List.length_cons]
        omega
      rw [htext]
      apply (readsAs_jsonAccept (by omega) hs (by decide)).bind
      apply (readsAs_not_jsonAccept (by omega) h₂ (by decide) (by decide)).bind
      exact readsAs_jsonMembers hmembers hlength hlength .empty more

/-! ## Rows -/

/-- The program gives `a` from these marks, with the marks of a JSON file and what is left
after it. -/
abbrev ReadsFrom {α : Type} (p : InputProgram α) (marks : ImportMarks) (l : Bytes) (a : α)
    (marks' : Bool × Bool × Bool) (more : Bytes) : Prop :=
  MeetsFrom ImportMarks.advance .pastEnd never p marks l fun a' marks'' left =>
    a' = a ∧ marks''.jsonMarks = marks' ∧ left = more

theorem ReadsAs.bindFrom {α β : Type} {p : InputProgram α} {f : α → InputProgram β}
    {l more : Bytes} {a : α} {marks : ImportMarks} {Q : β → ImportMarks → Bytes → Prop}
    (h : ReadsAs p l a more)
    (hf : ∀ marks', marks'.jsonMarks = marks.jsonMarks →
      MeetsFrom ImportMarks.advance .pastEnd never (f a) marks' more Q) :
    MeetsFrom ImportMarks.advance .pastEnd never (p >>= f) marks l Q := by
  apply Meets.bindFrom h
  rintro a' marks' left hmarks ⟨rfl, rfl⟩
  exact hf marks' hmarks

theorem readsFrom_jsonEnd {s : Bytes} {fuel : Nat} (hfuel : s.length < fuel) (hs : Space s)
    (marks : ImportMarks) :
    ReadsFrom (jsonEnd fuel) marks s () (finished marks.jsonMarks) [] := by
  apply meetsFrom_get
  apply meetsFrom_set
  rw [← List.append_nil s]
  apply (readsAs_jsonSkipSpace hfuel hs fun c hc => by cases hc).bindFrom
  intro marks' hmarks
  exact ⟨rfl, hmarks, rfl⟩

/-- The text of a row starts with a brace. -/
theorem objectText_first {rules : JsonRules} {s : Bytes} {object : JsonObject}
    (h : ObjectText rules s object) : ∃ tail, s = byte '{' :: tail := by
  cases h with
  | empty h₁ => exact ⟨_, rfl⟩
  | members h₁ => exact ⟨_, rfl⟩

/-- A row and the byte after it, which is a comma or the end of the array. -/
theorem readsFrom_jsonNext_object {s s' s₂ more : Bytes} {object : JsonObject} {fuel : Nat}
    (hfuel : (s ++ s' ++ s₂ ++ more).length < fuel) (hs : Space s)
    (h : ObjectText (.loose False) s' object) (h₂ : Space s₂) (marks : ImportMarks) :
    ReadsFrom (jsonNext fuel) marks (s ++ s' ++ s₂ ++ byte ',' :: more) object marks.jsonMarks
        more ∧
      (Space more → ReadsFrom (jsonNext fuel) marks (s ++ s' ++ s₂ ++ byte ']' :: more) object
        (finished marks.jsonMarks) []) := by
  simp only [List.length_append] at hfuel
  obtain ⟨tail, hfirst⟩ := objectText_first h
  have hspace : ∀ l c, (s' ++ l).head? = some c → isJsonSpace c = false := by
    intro l c hc
    rw [hfirst] at hc
    cases hc
    decide
  have hlength : ([] ++ s').length < fuel := by
    rw [List.nil_append]
    omega
  constructor
  · rw [List.append_assoc, List.append_assoc]
    apply (readsAs_jsonSkipSpace (by omega) hs (hspace _)).bindFrom
    intro marks₁ hmarks₁
    apply meetsFrom_get
    apply meetsFrom_set
    apply (readsAs_jsonObject space_nil h hlength).bindFrom
    intro marks₂ hmarks₂
    apply (readsAs_not_jsonAccept (by omega) h₂ (by decide) (by decide)).bindFrom
    intro marks₃ hmarks₃
    apply (readsAs_jsonAccept (s := []) (Nat.zero_lt_of_lt hlength) space_nil
      (by decide)).bindFrom
    intro marks₄ hmarks₄
    exact ⟨rfl, (hmarks₄.trans hmarks₃).trans (hmarks₂.trans hmarks₁), rfl⟩
  · intro hmore
    rw [List.append_assoc, List.append_assoc]
    apply (readsAs_jsonSkipSpace (by omega) hs (hspace _)).bindFrom
    intro marks₁ hmarks₁
    apply meetsFrom_get
    apply meetsFrom_set
    apply (readsAs_jsonObject space_nil h hlength).bindFrom
    intro marks₂ hmarks₂
    apply (readsAs_jsonAccept (by omega) h₂ (by decide)).bindFrom
    intro marks₃ hmarks₃
    apply MeetsFrom.bind
    apply (readsFrom_jsonEnd (by omega) hmore marks₃).mono
    rintro _ marks₄ left ⟨-, hmarks₄, rfl⟩
    refine ⟨rfl, ?_, rfl⟩
    rw [hmarks₃, hmarks₂] at hmarks₄
    exact hmarks₄.trans (congrArg finished hmarks₁)

/-- A call for the next row, and the calls after it. -/
theorem readsFrom_jsonRows_succ {l more : Bytes} {object : JsonObject} {objects : List JsonObject}
    {fuel rows : Nat} {marks : ImportMarks} {marks' : Bool × Bool × Bool}
    (hmarks : marks.jsonMarks.2.1 = false) (hmarks' : marks'.2.2 = false)
    (h : ReadsFrom (jsonRow fuel) marks l object marks' more)
    (hrest : ∀ marks₁ : ImportMarks, marks₁.jsonMarks = marks' →
      MeetsFrom ImportMarks.advance .pastEnd never (jsonRows fuel rows) marks₁ more
        fun objects' _ _ => objects' = objects) :
    MeetsFrom ImportMarks.advance .pastEnd never (jsonRows fuel (rows + 1)) marks l
      fun objects' _ _ => objects' = object :: objects := by
  have hgoes : marks.jsonFinished = false := hmarks
  unfold jsonRows
  apply meetsFrom_get
  rw [hgoes, if_neg Bool.false_ne_true]
  apply MeetsFrom.bind
  apply h.mono
  rintro _ marks₁ _ ⟨rfl, hmarks₁, rfl⟩
  have hempty : marks₁.jsonEmpty = false := (congrArg (fun m => m.2.2) hmarks₁).trans hmarks'
  apply meetsFrom_get
  rw [hempty, if_neg Bool.false_ne_true]
  apply MeetsFrom.bind
  apply (hrest marks₁ hmarks₁).mono
  rintro _ _ _ rfl
  exact rfl

theorem readsFrom_jsonRows_finished {l : Bytes} {fuel rows : Nat} {marks : ImportMarks}
    (hmarks : marks.jsonMarks.2.1 = true) :
    MeetsFrom ImportMarks.advance .pastEnd never (jsonRows fuel (rows + 1)) marks l
      fun objects' _ _ => objects' = [] := by
  have hfinished : marks.jsonFinished = true := hmarks
  unfold jsonRows
  apply meetsFrom_get
  rw [if_pos hfinished]
  exact meetsFrom_pure rfl

/-- Once the array is started, a row is what is next. -/
theorem readsFrom_jsonRow_started {l more : Bytes} {object : JsonObject} {fuel : Nat}
    {marks : ImportMarks} {marks' : Bool × Bool × Bool} (hmarks : marks.jsonMarks.1 = true)
    (h : ReadsFrom (jsonNext fuel) marks l object marks' more) :
    ReadsFrom (jsonRow fuel) marks l object marks' more := by
  have hstarted : marks.jsonStarted = true := hmarks
  apply meetsFrom_get
  rw [if_pos hstarted]
  exact h

/-- The first row is what is next after the start of the array. -/
theorem readsFrom_jsonRow_start {s s₁ tail more : Bytes} {object : JsonObject} {fuel : Nat}
    (hfuel : (s ++ s₁).length < fuel) (hs : Space s) (h₁ : Space s₁) {marks : ImportMarks}
    {marks' : Bool × Bool × Bool} (hmarks : marks.jsonMarks = (false, false, false))
    (h : ∀ marks₁ : ImportMarks, marks₁.jsonMarks = (true, false, false) →
      ReadsFrom (jsonNext fuel) marks₁ (byte '{' :: tail) object marks' more) :
    ReadsFrom (jsonRow fuel) marks (s ++ byte '[' :: (s₁ ++ byte '{' :: tail)) object marks'
      more := by
  rw [List.length_append] at hfuel
  have hstarted : marks.jsonStarted = false := congrArg (fun m => m.1) hmarks
  apply meetsFrom_get
  rw [hstarted, if_neg Bool.false_ne_true]
  apply (readsAs_jsonAccept (by omega) hs (by decide)).bindFrom
  intro marks₁ hmarks₁
  apply meetsFrom_get
  apply meetsFrom_set
  apply (readsAs_not_jsonAccept (by omega) h₁ (by decide) (by decide)).bindFrom
  intro marks₂ hmarks₂
  apply h
  rw [hmarks₂]
  exact congrArg (fun m : Bool × Bool × Bool => (true, m.2)) (hmarks₁.trans hmarks)

/-- The calls for some rows and the end of the array.  What the first of them does with `l` is what
it does with the rows. -/
theorem readsFrom_jsonRows {s s' l : Bytes} {objects : List JsonObject}
    (h : RowsText (.loose False) s objects) (hs' : Space s') {fuel rows : Nat}
    (hfuel : (s ++ s').length < fuel) (hrows : s.length < rows) {marks : ImportMarks}
    (hmarks : marks.jsonMarks.2.1 = false)
    (hrow : ∀ {object marks' more}, (∀ marks₁ : ImportMarks,
        marks₁.jsonMarks = (true, false, false) →
          ReadsFrom (jsonNext fuel) marks₁ (s ++ byte ']' :: s') object marks' more) →
      ReadsFrom (jsonRow fuel) marks l object marks' more) :
    MeetsFrom ImportMarks.advance .pastEnd never (jsonRows fuel rows) marks l
      fun objects' _ _ => objects' = objects := by
  induction h generalizing l rows marks with
  | @one s₁ s₂ s object h₁ hs h₂ =>
      obtain ⟨tail, hfirst⟩ := objectText_first hs
      obtain ⟨rows, rfl⟩ : ∃ r, rows = r + 2 := by
        rw [hfirst] at hrows
        simp only [List.length_append, List.length_cons] at hrows
        exact ⟨rows - 2, by omega⟩
      have hnext : ∀ marks₁ : ImportMarks, marks₁.jsonMarks = (true, false, false) →
          ReadsFrom (jsonNext fuel) marks₁ (s₁ ++ s ++ s₂ ++ byte ']' :: s') object
            (true, true, false) [] := by
        intro marks₁ hmarks₁
        have hread := (readsFrom_jsonNext_object hfuel h₁ hs h₂ marks₁).2 hs'
        rw [hmarks₁] at hread
        exact hread
      apply readsFrom_jsonRows_succ hmarks rfl (hrow hnext)
      intro marks₁ hmarks₁
      exact readsFrom_jsonRows_finished (congrArg (fun m => m.2.1) hmarks₁)
  | @cons s₁ s₂ s t object objects h₁ hs h₂ rest ih =>
      obtain ⟨rows, rfl⟩ : ∃ r, rows = r + 1 := ⟨rows - 1, by omega⟩
      simp only [List.length_append, List.length_cons] at hfuel hrows
      have hlength : (s₁ ++ s ++ s₂ ++ (t ++ byte ']' :: s')).length < fuel := by
        simp only [List.length_append, List.length_cons]
        omega
      have hnext : ∀ marks₁ : ImportMarks, marks₁.jsonMarks = (true, false, false) →
          ReadsFrom (jsonNext fuel) marks₁ (s₁ ++ s ++ s₂ ++ byte ',' :: t ++ byte ']' :: s')
            object (true, false, false) (t ++ byte ']' :: s') := by
        intro marks₁ hmarks₁
        rw [List.append_assoc]
        have hread := (readsFrom_jsonNext_object hlength h₁ hs h₂ marks₁).1
        rw [hmarks₁] at hread
        exact hread
      apply readsFrom_jsonRows_succ hmarks rfl (hrow hnext)
      intro marks₁ hmarks₁
      apply ih (by rw [List.length_append]; omega) (by omega)
        (congrArg (fun m => m.2.1) hmarks₁)
      intro object marks' more hrow
      exact readsFrom_jsonRow_started (congrArg (fun m => m.1) hmarks₁) (hrow marks₁ hmarks₁)

/-- The white space before a row can be skipped first. -/
theorem RowsText.skipSpace {rules : JsonRules} {s : Bytes} {objects : List JsonObject}
    (h : RowsText rules s objects) :
    ∃ s₁ tail, s = s₁ ++ byte '{' :: tail ∧ Space s₁ ∧
      RowsText rules (byte '{' :: tail) objects := by
  cases h with
  | one h₁ hs h₂ =>
      obtain ⟨tail, rfl⟩ := objectText_first hs
      refine ⟨_, _, ?_, h₁, .one space_nil hs h₂⟩
      rw [List.append_assoc]
      rfl
  | @cons s₁ s₂ s s' object objects h₁ hs h₂ rest =>
      obtain ⟨tail, rfl⟩ := objectText_first hs
      refine ⟨s₁, _, ?_, h₁, .cons space_nil hs h₂ rest⟩
      rw [List.append_assoc s₁, List.append_assoc s₁]
      rfl

/-- A file of rows is read to its end. -/
theorem readsFrom_jsonFile {l : Bytes} {objects : List JsonObject}
    (h : FileText (.loose False) l objects) {fuel rows : Nat} (hfuel : l.length < fuel)
    (hrows : l.length < rows) {marks : ImportMarks}
    (hmarks : marks.jsonMarks = (false, false, false)) :
    MeetsFrom ImportMarks.advance .pastEnd never (jsonRows fuel rows) marks l
      fun objects' _ _ => objects' = objects := by
  have hgoes : marks.jsonMarks.2.1 = false := congrArg (fun m => m.2.1) hmarks
  cases h with
  | @empty s₁ s₂ s₃ h₁ h₂ h₃ =>
      cases rows with
      | zero => exact absurd hrows (Nat.not_lt_zero _)
      | succ rows =>
          simp only [List.length_append, List.length_cons] at hfuel
          have hfinished : marks.jsonFinished = false := hgoes
          have hstarted : marks.jsonStarted = false := congrArg (fun m => m.1) hmarks
          rw [List.append_assoc, List.cons_append]
          unfold jsonRows
          apply meetsFrom_get
          rw [hfinished, if_neg Bool.false_ne_true]
          apply MeetsFrom.bind
          apply meetsFrom_get
          rw [hstarted, if_neg Bool.false_ne_true]
          apply (readsAs_jsonAccept (by omega) h₁ (by decide)).bindFrom
          intro marks₁ _
          apply meetsFrom_get
          apply meetsFrom_set
          apply (readsAs_jsonAccept (by omega) h₂ (by decide)).bindFrom
          intro marks₂ _
          apply MeetsFrom.bind
          apply (readsFrom_jsonEnd (by omega) h₃ marks₂).mono
          intro _ marks₃ left _
          exact rfl
  | @rows s₁ s s₃ objects h₁ hs h₃ =>
      obtain ⟨s₂, tail, rfl, h₂, hrest⟩ := hs.skipSpace
      simp only [List.length_append, List.length_cons] at hfuel hrows
      rw [List.append_assoc, List.cons_append, List.append_assoc]
      apply readsFrom_jsonRows hrest h₃ (by simp; omega) (by simp; omega) hgoes
      intro object marks' more hnext
      apply readsFrom_jsonRow_start _ h₁ h₂ hmarks hnext
      rw [List.length_append]
      omega

end Vsql.Cli
