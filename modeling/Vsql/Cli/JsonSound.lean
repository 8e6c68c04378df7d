import Vsql.Cli.JsonText

/-!
# What the reader accepts

A file that is read to its end is an array of objects, up to the numbers and the characters that
the reader does not check.  Reading ends, with an error if not.
-/

namespace Vsql.Cli

open Foundation
open Foundation.ReadingProgram

theorem givesOn_jsonError {α : Type} (message l : Bytes) (Q : α → Bytes → Prop) :
    GivesOn (jsonError message : InputProgram α) l Q := fun _ => ⟨message, rfl⟩

/-! ## Strings -/

theorem givesOn_jsonHexFrom (digits n : Nat) (l : Bytes) :
    GivesOn (jsonHexFrom digits n) l fun code left => ∃ (hex : Bytes) (ds : List Nat),
      l = hex ++ left ∧ ds.length = digits ∧ hex.map hexDigit? = ds.map some ∧
        code = ds.foldl (fun n d => 16 * n + d) n := by
  induction digits generalizing n l with
  | zero => exact meets_pure ⟨[], [], rfl, rfl, rfl, rfl⟩
  | succ digits ih =>
      apply meets_peek
      cases l with
      | nil => exact givesOn_jsonError _ _ _
      | cons c l =>
          rw [List.getElem?_cons_zero]
          dsimp only
          cases hc : hexDigit? c with
          | none => exact givesOn_jsonError _ _ _
          | some d =>
              apply reads_skip
              apply (ih (16 * n + d) l).mono
              rintro code left ⟨hex, ds, rfl, hlength, hds, hcode⟩
              refine ⟨c :: hex, d :: ds, rfl, congrArg _ hlength, ?_, hcode⟩
              rw [List.map_cons, List.map_cons, hc, hds]

theorem givesOn_jsonHex4 (l : Bytes) :
    GivesOn jsonHex4 l fun code left => ∃ hex, l = hex ++ left ∧ HexText hex code := by
  apply (givesOn_jsonHexFrom 4 0 l).mono
  rintro code left ⟨hex, ds, hl, hlength, hds, hcode⟩
  exact ⟨hex, hl, ds, hlength, hds, hcode⟩

/-- The text of the escape goes before the text of more of the string, if that is next. -/
def EscapeText (s text left : Bytes) : Prop :=
  ∀ body rest, body <+: left → StringText (.loose True) body rest →
    StringText (.loose True) (byte '\\' :: byte 'u' :: (s ++ body)) (text ++ rest)

theorem givesOn_jsonUnicodeEscape (l : Bytes) :
    GivesOn jsonUnicodeEscape l fun text left => ∃ s, l = s ++ left ∧ EscapeText s text left := by
  apply Meets.bind
  apply (givesOn_jsonHex4 l).mono
  rintro high left ⟨hex, rfl, hhex⟩
  split
  · next hhigh =>
      apply Meets.bind
      apply reads_acceptText
      · rintro ⟨left', rfl⟩
        apply Meets.bind
        apply (givesOn_jsonHex4 left').mono
        rintro low left ⟨hex', rfl, hhex'⟩
        apply meets_pure
        refine ⟨hex ++ unicodeEscape hex', ?_, ?_⟩
        · simp [unicodeEscape]
        · intro body rest _ hrest
          rw [List.append_assoc]
          by_cases hlow : IsLow low
          · have hcode : surrogatePair high low =
                0x10000 + (high - 0xd800) * 0x400 + (low - 0xdc00) := by
              unfold surrogatePair
              unfold IsLow at hlow
              omega
            have hlt : surrogatePair high low < 0x110000 ∧
                ¬IsHigh (surrogatePair high low) ∧ ¬IsLow (surrogatePair high low) := by
              rw [hcode]
              unfold IsHigh IsLow at *
              omega
            rw [utf32ToStr_eq hlt.2 hlt.1, hcode]
            have hpair := StringText.pair hhex hhigh hhex' hlow hrest
            rw [List.append_assoc] at hpair
            exact hpair
          · have hescapes := StringText.mismatched trivial hhex hhigh hhex'
              hlow (utf32ToStr (surrogatePair high low)) hrest
            rw [List.append_assoc] at hescapes
            exact hescapes
      · intro halone
        apply meets_pure
        refine ⟨hex, rfl, ?_⟩
        intro body rest hbody hrest
        exact .high trivial hhex hhigh (fun hnext => halone (hnext.trans hbody)) _ hrest
  · next hhigh =>
      apply meets_pure
      refine ⟨hex, rfl, ?_⟩
      intro body rest _ hrest
      by_cases hlow : IsLow high
      · exact .low trivial hhex hlow _ hrest
      · have hlt := hhex.lt
        rw [utf32ToStr_eq ⟨hhigh, hlow⟩ (by omega)]
        exact .unicode hhex ⟨hhigh, hlow⟩ hrest

theorem givesOn_jsonStringFrom {fuel : Nat} {l : Bytes} (h : l.length < fuel) (sb : Bytes) :
    GivesOn (jsonStringFrom fuel sb) l fun text left => ∃ body t,
      l = body ++ byte '"' :: left ∧ StringText (.loose True) body t ∧ text = sb ++ t := by
  induction fuel generalizing l sb with
  | zero => exact absurd h (Nat.not_lt_zero _)
  | succ fuel ih =>
      apply meets_peek
      cases l with
      | nil => exact givesOn_jsonError _ _ _
      | cons c l =>
          rw [List.length_cons] at h
          apply reads_skip
          split
          · next hquote =>
              apply meets_pure
              exact ⟨[], [], by rw [hquote]; rfl, .nil, (List.append_nil sb).symm⟩
          · next hquote =>
              split
              · next hc =>
                  apply (ih (by omega) _).mono
                  rintro text left ⟨body, t, rfl, hbody, rfl⟩
                  exact ⟨c :: body, c :: t, rfl, .char ⟨hquote, hc⟩ hbody, by simp⟩
              · next hc =>
                  rw [not_not] at hc
                  apply meets_peek
                  cases l with
                  | nil => exact givesOn_jsonError _ _ _
                  | cons escape l =>
                      rw [List.length_cons] at h
                      apply reads_skip
                      split
                      · next e he =>
                          apply (ih (by omega) _).mono
                          rintro text left ⟨body, t, rfl, hbody, rfl⟩
                          rw [hc]
                          exact ⟨_ :: _ :: body, e :: t, rfl, .escape he hbody, by simp⟩
                      · split
                        · next hu =>
                            apply Meets.bind
                            apply (givesOn_jsonUnicodeEscape l).mono
                            rintro text left ⟨s, rfl, hs⟩
                            rw [List.length_append] at h
                            apply (ih (by omega) _).mono
                            rintro text' left ⟨body, t, rfl, hbody, rfl⟩
                            rw [hc, hu]
                            exact ⟨_ :: _ :: (s ++ body), text ++ t, by simp,
                              hs body t (List.prefix_append _ _) hbody,
                              by simp⟩
                        · exact givesOn_jsonError _ _ _

theorem givesOn_jsonString {fuel : Nat} {l : Bytes} (h : l.length < fuel) :
    GivesOn (jsonString fuel) l fun text left => ∃ body,
      l = quoted body ++ left ∧ StringText (.loose True) body text := by
  apply meets_peek
  cases l with
  | nil => exact givesOn_jsonError _ _ _
  | cons c l =>
      rw [List.length_cons] at h
      change GivesOn (if c ≠ byte '"' then _ else _) _ _
      split
      · exact givesOn_jsonError _ _ _
      · next hc =>
          rw [not_not] at hc
          apply reads_skip
          apply (givesOn_jsonStringFrom (by omega) []).mono
          rintro text left ⟨body, t, rfl, hbody, rfl⟩
          exact ⟨body, by rw [hc]; simp [quoted], hbody⟩

/-! ## White space -/

theorem givesOn_jsonSkipSpace {fuel : Nat} {l : Bytes} (h : l.length < fuel) :
    GivesOn (jsonSkipSpace fuel) l fun _ left => ∃ s, l = s ++ left ∧ Space s := by
  have hnone : Space [] := fun c hc => by cases hc
  induction fuel generalizing l with
  | zero => exact absurd h (Nat.not_lt_zero _)
  | succ fuel ih =>
      apply meets_peek
      cases l with
      | nil => exact meets_pure ⟨[], rfl, hnone⟩
      | cons c l =>
          rw [List.length_cons] at h
          change GivesOn (if isJsonSpace c then _ else _) _ _
          split
          · next hc =>
              apply reads_skip
              apply (ih (by omega)).mono
              rintro _ left ⟨s, rfl, hs⟩
              exact ⟨c :: s, rfl, List.forall_mem_cons.2 ⟨hc, hs⟩⟩
          · exact meets_pure ⟨[], rfl, hnone⟩

/-- What comes after white space that has been skipped. -/
theorem givesOn_afterSpace {α : Type} {fuel : Nat} {l : Bytes} (h : l.length < fuel)
    {f : Unit → InputProgram α} {Q : α → Bytes → Prop}
    (hf : ∀ s left, l = s ++ left → Space s → GivesOn (f ()) left Q) :
    GivesOn (jsonSkipSpace fuel >>= f) l Q := by
  apply Meets.bind
  apply (givesOn_jsonSkipSpace h).mono
  rintro _ left ⟨s, hl, hs⟩
  exact hf s left hl hs

theorem givesOn_jsonAccept {fuel : Nat} (c : UInt8) {l : Bytes} (h : l.length < fuel) :
    GivesOn (jsonAccept fuel c) l fun accepted left =>
      ∃ s, Space s ∧ l = s ++ (if accepted then c :: left else left) := by
  apply givesOn_afterSpace h
  rintro s left rfl hs
  apply meets_peek
  cases left with
  | nil => exact meets_pure ⟨s, hs, rfl⟩
  | cons next left =>
      change GivesOn (if next = c then _ else _) _ _
      split
      · next hc =>
          apply reads_skip
          exact meets_pure ⟨s, hs, by rw [hc]; rfl⟩
      · exact meets_pure ⟨s, hs, rfl⟩

/-- What comes after a byte that may be next, or not. -/
theorem givesOn_afterAccept {α : Type} {fuel : Nat} {c : UInt8} {l : Bytes} (h : l.length < fuel)
    {f : Bool → InputProgram α} {Q : α → Bytes → Prop}
    (htrue : ∀ s left, l = s ++ c :: left → Space s → GivesOn (f true) left Q)
    (hfalse : ∀ s left, l = s ++ left → Space s → GivesOn (f false) left Q) :
    GivesOn (jsonAccept fuel c >>= f) l Q := by
  apply Meets.bind
  apply (givesOn_jsonAccept c h).mono
  rintro accepted left ⟨s, hs, hl⟩
  cases accepted with
  | true => exact htrue s left hl hs
  | false => exact hfalse s left hl hs

/-! ## Values -/

theorem givesOn_numberBytes {fuel : Nat} {l : Bytes} (h : l.length < fuel) (sb : Bytes) :
    GivesOn (numberBytes fuel sb) l fun text left => ∃ s,
      l = s ++ left ∧ (∀ c ∈ s, isNumberByte c) ∧ text = sb ++ s := by
  have hnone : ∀ c ∈ ([] : Bytes), isNumberByte c := fun c hc => by cases hc
  induction fuel generalizing l sb with
  | zero => exact absurd h (Nat.not_lt_zero _)
  | succ fuel ih =>
      apply meets_peek
      cases l with
      | nil => exact meets_pure ⟨[], rfl, hnone, (List.append_nil sb).symm⟩
      | cons c l =>
          rw [List.length_cons] at h
          change GivesOn (if ¬isNumberByte c then _ else _) _ _
          split
          · exact meets_pure ⟨[], rfl, hnone, (List.append_nil sb).symm⟩
          · next hc =>
              rw [not_not] at hc
              apply reads_skip
              apply (ih (by omega) _).mono
              rintro text left ⟨s, rfl, hs, rfl⟩
              exact ⟨c :: s, rfl, List.forall_mem_cons.2 ⟨hc, hs⟩, by simp⟩

theorem looseNumber_iff (s : Bytes) :
    LooseNumber s ↔ isJsonNumber s ∧ ∀ c ∈ s, isNumberByte c := by
  have hbyte : ∀ c, isNumberByte c ↔
      isDigit c ∨ c ∈ [byte '-', byte '+', byte '.', byte 'e', byte 'E'] := by
    intro c
    rw [isNumberByte, Bool.or_eq_true, List.contains_iff_mem]
  have hfirst : ∀ c, isNumberByte c → ((isDigit c ∨ c = byte '-') ↔
      ([byte '+', byte '.', byte 'e', byte 'E'].contains c) = false) := by
    have hall : ∀ n < 256, isNumberByte (UInt8.ofNat n) →
        ((isDigit (UInt8.ofNat n) ∨ UInt8.ofNat n = byte '-') ↔
          ([byte '+', byte '.', byte 'e', byte 'E'].contains (UInt8.ofNat n)) = false) := by
      decide +kernel
    intro c
    have hc := hall c.toNat c.toNat_lt
    rwa [UInt8.ofNat_toNat] at hc
  unfold LooseNumber isJsonNumber
  simp only [← hbyte]
  cases hhead : s.head? with
  | none => simp
  | some first =>
      have hmem : first ∈ s := List.mem_of_mem_head? hhead
      cases hlast : s.getLast? with
      | none => simp
      | some last =>
          simp only [Option.some.injEq, exists_eq_left', Bool.and_eq_true, Bool.not_eq_true']
          constructor
          · rintro ⟨hs, hf, hl⟩
            exact ⟨⟨hl, (hfirst first (hs first hmem)).1 hf⟩, hs⟩
          · rintro ⟨⟨hl, hf⟩, hs⟩
            exact ⟨hs, (hfirst first (hs first hmem)).2 hf, hl⟩

theorem givesOn_jsonValue {fuel : Nat} {l : Bytes} (h : l.length < fuel) (name : Bytes) :
    GivesOn (jsonValue fuel name) l fun cell left => ∃ s value,
      l = s ++ value ++ left ∧ Space s ∧ ValueText (.loose True) value cell := by
  apply givesOn_afterSpace h
  rintro s left rfl hs
  have hlength : left.length < fuel := by
    rw [List.length_append] at h
    omega
  have hvalue : ∀ {value left' : Bytes} {cell : ReadCell}, left = value ++ left' →
      ValueText (.loose True) value cell → ∃ s' value', s ++ left = s' ++ value' ++ left' ∧
        Space s' ∧ ValueText (.loose True) value' cell := by
    rintro value left' cell rfl hv
    exact ⟨s, value, (List.append_assoc _ _ _).symm, hs, hv⟩
  apply meets_peek
  cases left[0]? with
  | none => exact givesOn_jsonError _ _ _
  | some c =>
      dsimp only
      split
      · apply Meets.bind
        apply (givesOn_jsonString hlength).mono
        rintro text left' ⟨body, hl, hbody⟩
        exact meets_pure (hvalue hl (.string hbody))
      · split
        · exact givesOn_jsonError _ _ _
        · apply Meets.bind
          apply reads_acceptText
          · rintro ⟨left', rfl⟩
            rw [List.drop_left]
            exact meets_pure (hvalue rfl .true)
          · intro _
            apply Meets.bind
            apply reads_acceptText
            · rintro ⟨left', rfl⟩
              rw [List.drop_left]
              exact meets_pure (hvalue rfl .false)
            · intro _
              apply Meets.bind
              apply reads_acceptText
              · rintro ⟨left', rfl⟩
                rw [List.drop_left]
                exact meets_pure (hvalue rfl .null)
              · intro _
                apply Meets.bind
                apply (givesOn_numberBytes hlength []).mono
                rintro number left' ⟨text, hl, htext, rfl⟩
                split
                · next hnumber =>
                    exact meets_pure (hvalue hl
                      (.number ((looseNumber_iff _).2 ⟨hnumber, htext⟩)))
                · exact givesOn_jsonError _ _ _

/-! ## Objects -/

theorem givesOn_jsonMembers {fuel members : Nat} {l : Bytes} (h : l.length < fuel)
    (hmembers : l.length < members) (object : JsonObject) :
    GivesOn (jsonMembers fuel members object) l fun object' left => ∃ s ms,
      l = s ++ byte '}' :: left ∧ MembersText (.loose True) s ms ∧
        object' = ms.foldl (fun object m => object.set m.1 m.2) object := by
  induction members generalizing l object with
  | zero => exact absurd hmembers (Nat.not_lt_zero _)
  | succ members ih =>
      apply givesOn_afterSpace h
      rintro s₁ left rfl h₁
      simp only [List.length_append] at h hmembers
      apply Meets.bind
      apply (givesOn_jsonString (by omega)).mono
      rintro name left ⟨body, rfl, hname⟩
      simp only [List.length_append, length_quoted] at h hmembers
      apply givesOn_afterAccept (by omega)
      · rintro s₂ left rfl h₂
        simp only [List.length_append, List.length_cons] at h hmembers
        apply Meets.bind
        apply (givesOn_jsonValue (by omega) name).mono
        rintro cell left ⟨s₃, value, rfl, h₃, hvalue⟩
        simp only [List.length_append] at h hmembers
        apply givesOn_afterAccept (by omega)
        · rintro s₄ left rfl h₄
          apply meets_pure
          refine ⟨_, [(name, cell)], ?_, .one (.intro h₁ hname h₂ h₃ hvalue h₄), rfl⟩
          simp only [List.append_assoc, List.cons_append]
        · rintro s₄ left rfl h₄
          simp only [List.length_append] at h hmembers
          apply givesOn_afterAccept (by omega)
          · rintro s₅ left rfl h₅
            simp only [List.length_append, List.length_cons] at h hmembers
            apply (ih (by omega) (by omega) _).mono
            rintro object' left ⟨s, ms, rfl, hs, rfl⟩
            refine ⟨_, (name, cell) :: ms, ?_,
              .cons (.intro h₁ hname h₂ h₃ hvalue (h₄.append h₅)) hs, rfl⟩
            simp only [List.append_assoc, List.cons_append]
          · exact fun _ left _ _ => givesOn_jsonError _ _ _
      · exact fun _ left _ _ => givesOn_jsonError _ _ _

theorem givesOn_jsonObject {fuel : Nat} {l : Bytes} (h : l.length < fuel) :
    GivesOn (jsonObject fuel) l fun object left => ∃ s₁ s,
      l = s₁ ++ s ++ left ∧ Space s₁ ∧ ObjectText (.loose True) s object := by
  apply givesOn_afterAccept h
  · rintro s₁ left rfl h₁
    simp only [List.length_append, List.length_cons] at h
    apply givesOn_afterAccept (by omega)
    · rintro s left rfl hs
      apply meets_pure
      refine ⟨s₁, _, ?_, h₁, .empty hs⟩
      simp only [List.append_assoc, List.cons_append, List.nil_append]
    · rintro s left rfl hs
      simp only [List.length_append] at h
      apply (givesOn_jsonMembers (by omega) (by omega) _).mono
      rintro object left ⟨s', ms, rfl, hs', rfl⟩
      refine ⟨s₁, _, ?_, h₁, .members (hs'.space hs)⟩
      simp only [List.append_assoc, List.cons_append, List.nil_append]
  · exact fun _ left _ _ => givesOn_jsonError _ _ _

/-! ## Rows -/

/-- The program reads as `Q` says from these marks, or ends with an error. -/
abbrev GivesFrom {α : Type} (p : InputProgram α) (marks : ImportMarks) (l : Bytes)
    (Q : α → ImportMarks → Bytes → Prop) : Prop :=
  MeetsFrom ImportMarks.advance .pastEnd (fun e => ∃ message, e = .error message) p marks l Q

/-- The marks at the end of the array. -/
def finished (marks : Bool × Bool × Bool) : Bool × Bool × Bool := (marks.1, true, marks.2.2)

theorem givesFrom_jsonEnd {fuel : Nat} {l : Bytes} (h : l.length < fuel) (marks : ImportMarks) :
    GivesFrom (jsonEnd fuel) marks l fun _ marks' left =>
      Space l ∧ left = [] ∧ marks'.jsonMarks = finished marks.jsonMarks := by
  apply meetsFrom_get
  apply meetsFrom_set
  apply (givesOn_jsonSkipSpace h).bindFrom
  rintro _ marks' left hmarks ⟨s, rfl, hs⟩
  cases left with
  | nil =>
      rw [List.append_nil]
      exact ⟨hs, rfl, hmarks⟩
  | cons c left => exact ⟨_, rfl⟩

/-- What comes after an object: a comma, or the end of the array. -/
def AfterObject (marks marks' : Bool × Bool × Bool) (l left : Bytes) : Prop :=
  ∃ s, Space s ∧
    ((l = s ++ byte ',' :: left ∧ marks' = marks) ∨
      ∃ s', Space s' ∧ l = s ++ byte ']' :: s' ∧ left = [] ∧ marks' = finished marks)

theorem givesFrom_jsonNext {fuel : Nat} {l : Bytes} (h : l.length < fuel) (marks : ImportMarks) :
    GivesFrom (jsonNext fuel) marks l fun object marks' left => ∃ s s' l',
      l = s ++ s' ++ l' ∧ Space s ∧ ObjectText (.loose True) s' object ∧
        AfterObject marks.jsonMarks marks'.jsonMarks l' left := by
  apply (givesOn_jsonSkipSpace h).bindFrom
  rintro _ marks₁ left hmarks₁ ⟨s, rfl, hs⟩
  rw [List.length_append] at h
  apply meetsFrom_get
  apply meetsFrom_set
  apply (givesOn_jsonObject (by omega)).bindFrom
  rintro object marks₂ left hmarks₂ ⟨s', text, rfl, hs', htext⟩
  simp only [List.length_append] at h
  have hmarks : marks₂.jsonMarks = marks.jsonMarks := hmarks₂.trans hmarks₁
  have hobject : s ++ (s' ++ text ++ left) = s ++ s' ++ text ++ left := by
    simp only [List.append_assoc]
  rw [hobject]
  apply (givesOn_jsonAccept _ (by omega)).bindFrom
  rintro close marks₃ left₃ hmarks₃ ⟨s₃, hs₃, rfl⟩
  simp only [List.length_append] at h
  cases close with
  | true =>
      simp only [if_true, List.length_cons] at h
      apply MeetsFrom.bind
      apply (givesFrom_jsonEnd (by omega) marks₃).mono
      rintro _ marks₄ left ⟨hspace, rfl, hmarks₄⟩
      rw [hmarks₃, hmarks] at hmarks₄
      exact ⟨_, text, _, rfl, hs.append hs', htext, s₃, hs₃,
        .inr ⟨left₃, hspace, rfl, rfl, hmarks₄⟩⟩
  | false =>
      simp only [Bool.false_eq_true, if_false] at h
      apply (givesOn_jsonAccept _ (by omega)).bindFrom
      rintro comma marks₄ left₄ hmarks₄ ⟨s₄, hs₄, rfl⟩
      cases comma with
      | true =>
          refine ⟨_, text, _, rfl, hs.append hs', htext, s₃ ++ s₄, hs₃.append hs₄, .inl ⟨?_, ?_⟩⟩
          · simp
          · exact (hmarks₄.trans hmarks₃).trans hmarks
      | false => exact ⟨_, rfl⟩

/-- Where the array starts, and what is in it. -/
def RowStart (marks marks' : Bool × Bool × Bool) (object : JsonObject) (l left : Bytes) : Prop :=
  (marks.1 = true ∧ ∃ s s' l', l = s ++ s' ++ l' ∧ Space s ∧ ObjectText (.loose True) s' object ∧
      AfterObject marks marks' l' left) ∨
    (marks.1 = false ∧ ∃ s₁, Space s₁ ∧
      ((∃ s₂ s₃, l = s₁ ++ byte '[' :: s₂ ++ byte ']' :: s₃ ∧ Space s₂ ∧ Space s₃ ∧
          left = [] ∧ marks' = (true, true, true)) ∨
        ∃ s s' l', l = s₁ ++ byte '[' :: (s ++ s' ++ l') ∧ Space s ∧
          ObjectText (.loose True) s' object ∧
            AfterObject (true, marks.2) marks' l' left))

theorem givesFrom_jsonRow {fuel : Nat} {l : Bytes} (h : l.length < fuel) (marks : ImportMarks) :
    GivesFrom (jsonRow fuel) marks l fun object marks' left =>
      RowStart marks.jsonMarks marks'.jsonMarks object l left := by
  apply meetsFrom_get
  split
  · next hstarted =>
      apply (givesFrom_jsonNext h marks).mono
      intro object marks' left hnext
      exact .inl ⟨hstarted, hnext⟩
  · next hstarted =>
      rw [Bool.not_eq_true] at hstarted
      apply (givesOn_jsonAccept _ h).bindFrom
      rintro opened marks₁ left₁ hmarks₁ ⟨s₁, hs₁, rfl⟩
      rw [List.length_append] at h
      cases opened with
      | false => exact ⟨_, rfl⟩
      | true =>
          simp only [if_true, List.length_cons] at h
          have hopened : ({ marks₁ with jsonStarted := true } : ImportMarks).jsonMarks =
              (true, marks.jsonMarks.2) := by
            rw [← hmarks₁]
            rfl
          apply meetsFrom_get
          apply meetsFrom_set
          apply (givesOn_jsonAccept _ (by omega)).bindFrom
          rintro close marks₂ left₂ hmarks₂ ⟨s₂, hs₂, rfl⟩
          rw [hopened] at hmarks₂
          rw [List.length_append] at h
          cases close with
          | true =>
              simp only [if_true, List.length_cons] at h
              apply MeetsFrom.bind
              apply (givesFrom_jsonEnd (by omega) marks₂).mono
              rintro _ marks₃ left ⟨hs₃, rfl, hmarks₃⟩
              refine .inr ⟨hstarted, s₁, hs₁, .inl ⟨s₂, left₂, ?_, hs₂, hs₃, rfl, ?_⟩⟩
              · simp
              · have hm : (marks₃.jsonStarted, marks₃.jsonFinished, marks₃.jsonEmpty) =
                    (true, true, marks.jsonMarks.2.2) := hmarks₃.trans (congrArg finished hmarks₂)
                simp only [Prod.mk.injEq] at hm
                unfold ImportMarks.jsonMarks
                rw [hm.1, hm.2.1]
          | false =>
              simp only [Bool.false_eq_true, if_false] at h
              apply (givesFrom_jsonNext (by omega) marks₂).mono
              rintro object marks' left ⟨s, s', l', rfl, hs, htext, hafter⟩
              rw [hmarks₂] at hafter
              refine .inr ⟨hstarted, s₁, hs₁, .inr ⟨s₂ ++ s, s', l', ?_, hs₂.append hs, htext,
                hafter⟩⟩
              simp

/-- After the end of the array there are no more rows. -/
theorem givesFrom_jsonRows_finished {fuel rows : Nat} {l : Bytes} {marks : ImportMarks}
    (hmarks : marks.jsonMarks.2.1 = true) :
    GivesFrom (jsonRows fuel (rows + 1)) marks l fun objects _ _ => objects = [] := by
  have hfinished : marks.jsonFinished = true := hmarks
  unfold jsonRows
  apply meetsFrom_get
  rw [if_pos hfinished]
  exact meetsFrom_pure rfl

/-- The rows after one that has been read. -/
theorem givesFrom_jsonRows_started {fuel rows : Nat} {l : Bytes} (h : l.length < fuel)
    (hrows : l.length < rows) {marks : ImportMarks}
    (hmarks : marks.jsonMarks = (true, false, false)) :
    GivesFrom (jsonRows fuel rows) marks l fun objects _ _ => ∃ s s',
      l = s ++ byte ']' :: s' ∧ RowsText (.loose True) s objects ∧ Space s' := by
  induction rows generalizing l marks with
  | zero => exact absurd hrows (Nat.not_lt_zero _)
  | succ rows ih =>
      have hgoes : ¬marks.jsonFinished = true := by
        have hfinished : marks.jsonFinished = false := congrArg (fun m => m.2.1) hmarks
        rw [hfinished]
        exact Bool.false_ne_true
      unfold jsonRows
      apply meetsFrom_get
      rw [if_neg hgoes]
      apply MeetsFrom.bind
      apply (givesFrom_jsonRow h marks).mono
      rintro object marks₁ left hrow
      rw [hmarks] at hrow
      rcases hrow with ⟨-, s, s', l', rfl, hs, htext, s₂, hs₂, hafter⟩ | ⟨hno, -⟩
      · have hmore : marks₁.jsonEmpty = false := by
          rcases hafter with ⟨-, hm⟩ | ⟨s₃, -, -, -, hm⟩
          · exact congrArg (fun m => m.2.2) hm
          · exact congrArg (fun m => m.2.2) hm
        apply meetsFrom_get
        rw [if_neg (by rw [hmore]; exact Bool.false_ne_true)]
        rcases hafter with ⟨rfl, hm⟩ | ⟨s₃, hs₃, rfl, rfl, hm⟩
        · simp only [List.length_append, List.length_cons] at h hrows
          apply MeetsFrom.bind
          apply (ih (by omega) (by omega) hm).mono
          rintro objects marks' left' ⟨t, t', rfl, ht, ht'⟩
          refine ⟨_, t', ?_, .cons hs htext hs₂ ht, ht'⟩
          simp only [List.append_assoc, List.cons_append]
        · simp only [List.length_append, List.length_cons] at hrows
          obtain ⟨rows', rfl⟩ : ∃ rows', rows = rows' + 1 := ⟨rows - 1, by omega⟩
          apply MeetsFrom.bind
          apply (givesFrom_jsonRows_finished (congrArg (fun m => m.2.1) hm)).mono
          rintro objects marks' left' rfl
          refine ⟨_, s₃, ?_, .one hs htext hs₂, hs₃⟩
          simp only [List.append_assoc]
      · cases hno

/-- A file that is read to its end has the rows. -/
theorem givesFrom_jsonRows {fuel rows : Nat} {l : Bytes} (h : l.length < fuel)
    (hrows : l.length < rows) {marks : ImportMarks}
    (hmarks : marks.jsonMarks = (false, false, false)) :
    GivesFrom (jsonRows fuel rows) marks l fun objects _ _ => FileText (.loose True) l objects := by
  cases rows with
  | zero => exact absurd hrows (Nat.not_lt_zero _)
  | succ rows =>
      have hgoes : ¬marks.jsonFinished = true := by
        have hfinished : marks.jsonFinished = false := congrArg (fun m => m.2.1) hmarks
        rw [hfinished]
        exact Bool.false_ne_true
      unfold jsonRows
      apply meetsFrom_get
      rw [if_neg hgoes]
      apply MeetsFrom.bind
      apply (givesFrom_jsonRow h marks).mono
      rintro object marks₁ left hrow
      rw [hmarks] at hrow
      apply meetsFrom_get
      rcases hrow with ⟨hno, -⟩ | ⟨-, s₁, hs₁, hrow⟩
      · cases hno
      · rcases hrow with ⟨s₂, s₃, rfl, hs₂, hs₃, rfl, hm⟩ | ⟨s, s', l', rfl, hs, htext, hafter⟩
        · have hempty : marks₁.jsonEmpty = true := congrArg (fun m => m.2.2) hm
          rw [if_pos hempty]
          apply meetsFrom_pure
          have hfile : FileText (.loose True) _ _ := .empty hs₁ hs₂ hs₃
          simpa [List.append_assoc] using hfile
        · rcases hafter with ⟨s₂, hs₂, hafter⟩
          have hmore : marks₁.jsonEmpty = false := by
            rcases hafter with ⟨-, hm⟩ | ⟨s₃, -, -, -, hm⟩
            · exact congrArg (fun m => m.2.2) hm
            · exact congrArg (fun m => m.2.2) hm
          rw [if_neg (by rw [hmore]; exact Bool.false_ne_true)]
          rcases hafter with ⟨rfl, hm⟩ | ⟨s₃, hs₃, rfl, rfl, hm⟩
          · simp only [List.length_append, List.length_cons] at h hrows
            apply MeetsFrom.bind
            apply (givesFrom_jsonRows_started (by omega) (by omega) hm).mono
            rintro objects marks' left' ⟨t, t', rfl, ht, ht'⟩
            apply meetsFrom_pure
            have hfile := FileText.rows hs₁ (.cons hs htext hs₂ ht) ht'
            simpa [List.append_assoc] using hfile
          · simp only [List.length_append, List.length_cons] at hrows
            obtain ⟨rows', rfl⟩ : ∃ rows', rows = rows' + 1 := ⟨rows - 1, by omega⟩
            apply MeetsFrom.bind
            apply (givesFrom_jsonRows_finished (congrArg (fun m => m.2.1) hm)).mono
            rintro objects marks' left' rfl
            apply meetsFrom_pure
            have hfile := FileText.rows hs₁ (.one hs htext hs₂) hs₃
            simpa [List.append_assoc] using hfile

end Vsql.Cli
