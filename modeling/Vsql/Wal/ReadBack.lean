import Vsql.Wal.Reading

/-!
# Reading back the log of a statement

A log that is cut short has no commit in it, and one that is complete has the
pages of its statement.  This is so only as long as the end of the log, and the
size of a frame header more, is an `int`: otherwise a sum wraps around at the
end of the log, or where a log of 2 GiB is cut, and reading it panics.
-/

namespace Vsql

open Foundation ByteFile

/-! ## One frame -/

section

variable {crc : Bytes → UInt32} {data : Bytes} {o : Nat}
variable {pageSize : Int} {fuel : Nat} {found : OrderedMap Int Bytes} {commit : Option WalCommit}
variable {kind : UInt8} {number : Nat} {frameData rest : Bytes} {checksum : UInt32}

/-- The length of the data of a frame whose header is there. -/
theorem u32At_walFrame_eight (hframe : frameData.length < 2 ^ 31) {k : Nat} (hk : 12 ≤ k) :
    u32At (((walFrame crc kind number frameData checksum).1 ++ rest).take k) 8 =
      frameData.length := by
  have hfields := length_walFrameFields kind number frameData
  have hwritten := u32At_walFrameFields_eight kind number frameData [] hframe
  rw [List.append_nil] at hwritten
  rw [walFrame_fst, List.append_assoc, List.take_append, hfields,
    List.take_of_length_le (by omega), u32At_append_left (by omega), hwritten]

/-- A sum wraps around only at a frame whose header is there. -/
theorem not_wrapsAt_of_walFrame (hframe : frameData.length < 2 ^ 31) {k : Nat}
    (hdrop : data.drop o = ((walFrame crc kind number frameData checksum).1 ++ rest).take k)
    (hsmall : o + 16 + frameData.length < 2147483648) : ¬WrapsAt data o := by
  rintro (hfar | ⟨hheader, -, hnext⟩)
  · omega
  · have hlength := congrArg List.length hdrop
    rw [List.length_drop, List.length_take] at hlength
    rw [← u32At_drop, hdrop, u32At_walFrame_eight hframe (by omega)] at hnext
    omega

theorem wrapsAt_of_walFrame (hframe : frameData.length < 2 ^ 31)
    (hdrop : data.drop o = ((walFrame crc kind number frameData checksum).1 ++ rest).take 16)
    (hlength : data.length = o + 16)
    (hlarge : 2147483648 ≤ o + 16 + frameData.length) : WrapsAt data o := by
  have hlen : u32At data (o + 8) = frameData.length := by
    rw [← u32At_drop, hdrop, u32At_walFrame_eight hframe (by omega)]
  exact .inr ⟨by omega, by omega, by omega⟩

/-- One round of the loop for a frame that is complete. -/
theorem readFrames_walFrame (hlen : data.length < 2147483648) (hnumber : number < 2 ^ 31)
    (hkind : kind = walFramePage ∨ kind = walFrameCommit)
    (hdrop : data.drop o = (walFrame crc kind number frameData checksum).1 ++ rest) :
    readFrames crc data pageSize (fuel + 1) checksum o found commit =
      readFrames crc data pageSize fuel (walFrame crc kind number frameData checksum).2
        (o + 16 + frameData.length : Nat)
        (if kind = walFramePage then found.set number frameData else found)
        (if kind = walFramePage then commit
          else some ⟨pageSize, found, frameData, number⟩) := by
  have hlength := congrArg List.length hdrop
  rw [List.length_drop, List.length_append, length_walFrame, walFrameHeaderSize] at hlength
  have hframe : frameData.length < 2 ^ 31 := by omega
  have hall : ((walFrame crc kind number frameData checksum).1 ++ rest).take
      (16 + frameData.length + rest.length) =
        (walFrame crc kind number frameData checksum).1 ++ rest := by
    rw [List.take_of_length_le]
    rw [List.length_append, length_walFrame, walFrameHeaderSize]
  have hwrap : ¬WrapsAt data o :=
    not_wrapsAt_of_walFrame hframe (hdrop.trans hall.symm) (by omega)
  have hsize : u32At data (o + 8) = frameData.length := by
    rw [← u32At_drop, hdrop, ← hall, u32At_walFrame_eight hframe (by omega)]
  rw [readFrames_succ hlen hwrap, hdrop, walNextFrame_append _ (by omega) hframe, hsize]
  simp only [HasKind, hkind, if_true, replayFrame, toInt32_of_lt hnumber]
  split_ifs <;> rfl

/-- The last round of the loop, for a frame that is cut short. -/
theorem readFrames_tornFrame (hlen : data.length < 2147483648) (ho : o ≤ data.length)
    (hframe : frameData.length < 2 ^ 31) {k : Nat} (hk : k < 16 + frameData.length)
    (hdrop : data.drop o = (walFrame crc kind number frameData checksum).1.take k) :
    readFrames crc data pageSize (fuel + 1) checksum o found commit = some (.ok commit) ∨
      2147483648 ≤ o + 16 + frameData.length ∧ ∃ message,
        readFrames crc data pageSize (fuel + 1) checksum o found commit =
          some (.error (.panic message)) := by
  by_cases hwrap : WrapsAt data o
  · right
    refine ⟨?_, readFrames_of_wraps hlen ho hwrap⟩
    by_contra hsmall
    rw [← List.append_nil (walFrame crc kind number frameData checksum).1] at hdrop
    exact not_wrapsAt_of_walFrame hframe hdrop (by omega) hwrap
  · left
    have htorn := @walNextFrame_torn crc kind number _ hframe checksum checksum k
      (by rw [length_walFrame, walFrameHeaderSize]; omega)
    rw [readFrames_succ hlen hwrap, hdrop, htorn]

end

/-! ## The frames of a statement -/

section

variable {crc : Bytes → UInt32} {pages : List (Nat × Bytes)} {headerBytes : Bytes}
variable {totalPages : Nat} {data : Bytes} {checksum : UInt32} {o : Nat}
variable {pageSize : Int} {fuel : Nat} {found : OrderedMap Int Bytes}
variable {out : Except Failure (Option WalCommit)}

/-- The pages that the loop has found after the frames of a statement. -/
def readPages (pages : List (Nat × Bytes)) (found : OrderedMap Int Bytes) :
    OrderedMap Int Bytes :=
  pages.foldl (fun found page => found.set page.1 page.2) found

/-- Frames that are cut short have no commit, and are read unless the sums wrap around. -/
theorem readFrames_torn (hpages : FitsFrame pages) (hheader : headerBytes.length < 2 ^ 31)
    (hlen : data.length < 2147483648) (ho : o ≤ data.length) {k : Nat}
    (hk : k < (walFrames crc pages headerBytes totalPages checksum).flatten.length)
    (hdrop : data.drop o =
      (walFrames crc pages headerBytes totalPages checksum).flatten.take k)
    (h : readFrames crc data pageSize fuel checksum o found none = some out) :
    out = .ok none ∨
      2147483648 ≤ o + (walFrames crc pages headerBytes totalPages checksum).flatten.length ∧
        ∃ message, out = .error (.panic message) := by
  induction pages generalizing fuel o checksum found k with
  | nil =>
      simp only [walFrames, List.flatten_cons, List.flatten_nil, List.append_nil,
        length_walFrame, walFrameHeaderSize] at hk hdrop ⊢
      cases fuel with
      | zero => cases h
      | succ fuel =>
          obtain hend | ⟨hlarge, message, hpanic⟩ := readFrames_tornFrame hlen ho hheader hk hdrop
          · exact .inl (Option.some.inj (h.symm.trans hend))
          · exact .inr ⟨by omega, message, Option.some.inj (h.symm.trans hpanic)⟩
  | cons page pages ih =>
      obtain ⟨pageNumber, pageData⟩ := page
      obtain ⟨hnumber, hpage⟩ : pageNumber < 2 ^ 31 ∧ pageData.length < 2 ^ 31 :=
        hpages _ (List.mem_cons_self ..)
      simp only [walFrames, List.flatten_cons, List.length_append, length_walFrame,
        walFrameHeaderSize] at hk hdrop ⊢
      cases fuel with
      | zero => cases h
      | succ fuel =>
          by_cases hcut : k < 16 + pageData.length
          · -- The frame of the first page is the one that is cut.
            rw [List.take_append_of_le_length
              (by rw [length_walFrame, walFrameHeaderSize]; omega)] at hdrop
            obtain hend | ⟨hlarge, message, hpanic⟩ :=
              readFrames_tornFrame hlen ho hpage hcut hdrop
            · exact .inl (Option.some.inj (h.symm.trans hend))
            · exact .inr ⟨by omega, message, Option.some.inj (h.symm.trans hpanic)⟩
          · rw [List.take_append, List.take_of_length_le
              (by rw [length_walFrame, walFrameHeaderSize]; omega), length_walFrame,
              walFrameHeaderSize] at hdrop
            rw [readFrames_walFrame hlen hnumber (.inl rfl) hdrop, if_pos rfl, if_pos rfl] at h
            have hlength := congrArg List.length hdrop
            rw [List.length_drop, List.length_append, length_walFrame, walFrameHeaderSize,
              List.length_take] at hlength
            have hrest : data.drop (o + 16 + pageData.length) =
                (walFrames crc pages headerBytes totalPages
                  (walFrame crc walFramePage pageNumber pageData checksum).2).flatten.take
                    (k - (16 + pageData.length)) := by
              rw [Nat.add_assoc, ← List.drop_drop, hdrop]
              exact List.drop_left' (by rw [length_walFrame, walFrameHeaderSize])
            obtain hend | ⟨hlarge, hpanic⟩ := ih hpages.tail (by omega) (by omega) hrest h
            · exact .inl hend
            · exact .inr ⟨by omega, hpanic⟩

/-- Frames that are complete are read back, unless the last sum wraps around. -/
theorem readFrames_complete (hpages : FitsFrame pages) (htotal : totalPages < 2 ^ 31)
    (hlen : data.length < 2147483648) (ho : o ≤ data.length)
    (hdrop : data.drop o = (walFrames crc pages headerBytes totalPages checksum).flatten)
    (h : readFrames crc data pageSize fuel checksum o found none = some out) :
    if data.length + 16 < 2147483648 then
      out = .ok (some ⟨pageSize, readPages pages found, headerBytes, totalPages⟩)
    else ∃ message, out = .error (.panic message) := by
  have hlength := congrArg List.length hdrop
  rw [List.length_drop] at hlength
  induction pages generalizing fuel o checksum found with
  | nil =>
      simp only [walFrames, List.flatten_cons, List.flatten_nil] at hdrop hlength
      rw [List.length_append, length_walFrame, walFrameHeaderSize, List.length_nil] at hlength
      have hend : data.drop (o + 16 + headerBytes.length) = [] :=
        List.drop_of_length_le (by omega)
      cases fuel with
      | zero => cases h
      | succ fuel =>
          rw [readFrames_walFrame hlen htotal (.inr rfl) hdrop, if_neg (by decide),
            if_neg (by decide)] at h
          cases fuel with
          | zero => cases h
          | succ fuel =>
              by_cases hsmall : data.length + 16 < 2147483648
              · have hwrap : ¬WrapsAt data (o + 16 + headerBytes.length) := by
                  rintro (hfar | ⟨hheader, -⟩) <;> omega
                rw [readFrames_succ hlen hwrap, hend,
                  walNextFrame_of_short _ (by rw [walFrameHeaderSize]; decide)] at h
                rw [if_pos hsmall]
                exact (Option.some.inj h).symm
              · obtain ⟨message, hpanic⟩ := @readFrames_of_wraps crc data
                  (walFrame crc walFrameCommit totalPages headerBytes checksum).2
                  (o + 16 + headerBytes.length) pageSize fuel found
                  (some ⟨pageSize, found, headerBytes, totalPages⟩) hlen (by omega)
                  (.inl (by omega))
                rw [if_neg hsmall]
                exact ⟨message, Option.some.inj (h.symm.trans hpanic)⟩
  | cons page pages ih =>
      obtain ⟨pageNumber, pageData⟩ := page
      obtain ⟨hnumber, -⟩ := hpages _ (List.mem_cons_self ..)
      simp only [walFrames, List.flatten_cons, List.length_append, length_walFrame,
        walFrameHeaderSize] at hdrop hlength
      cases fuel with
      | zero => cases h
      | succ fuel =>
          rw [readFrames_walFrame hlen hnumber (.inl rfl) hdrop, if_pos rfl, if_pos rfl] at h
          have hrest : data.drop (o + 16 + pageData.length) =
              (walFrames crc pages headerBytes totalPages
                (walFrame crc walFramePage pageNumber pageData checksum).2).flatten := by
            rw [Nat.add_assoc, ← List.drop_drop, hdrop]
            exact List.drop_left' (by rw [length_walFrame, walFrameHeaderSize])
          exact ih hpages.tail (by omega) hrest h (by omega)

/-- The frames can be cut so that reading what is left of them panics. -/
def CutPanics (crc : Bytes → UInt32) (pageSize : Int) (checksum : UInt32) (o : Nat)
    (frames : Bytes) : Prop :=
  ∃ k < frames.length, o + k < 2147483648 ∧ ∀ before : Bytes, before.length = o →
    ∀ fuel found out,
      readFrames crc (before ++ frames.take k) pageSize fuel checksum o found none = some out →
      ∃ message, out = .error (.panic message)

/-- A frame that a sum wraps around at is cut after its header. -/
theorem cutPanics_walFrame (crc : Bytes → UInt32) (pageSize : Int) (kind : UInt8) (number : Nat)
    {frameData : Bytes} (rest : Bytes) (checksum : UInt32) (hframe : frameData.length < 2 ^ 31)
    (ho : o < 2147483648) (hlarge : 2147483648 ≤ o + 16 + frameData.length) :
    CutPanics crc pageSize checksum o
      ((walFrame crc kind number frameData checksum).1 ++ rest) := by
  have hlength : ((walFrame crc kind number frameData checksum).1 ++ rest).length =
      16 + frameData.length + rest.length := by
    rw [List.length_append, length_walFrame, walFrameHeaderSize]
  obtain ⟨k, hk, hok, hwraps⟩ : ∃ k ≤ 16, o + k < 2147483648 ∧ ∀ before : Bytes,
      before.length = o → WrapsAt (before ++
        ((walFrame crc kind number frameData checksum).1 ++ rest).take k) o := by
    by_cases hnear : o + 16 < 2147483648
    · refine ⟨16, le_rfl, hnear, fun before hbefore => ?_⟩
      refine wrapsAt_of_walFrame hframe (List.drop_left' hbefore) ?_ hlarge
      rw [List.length_append, List.length_take]
      omega
    · exact ⟨0, by omega, by omega, fun _ _ => .inl (by omega)⟩
  refine ⟨k, by omega, hok, fun before hbefore fuel found out h => ?_⟩
  cases fuel with
  | zero => cases h
  | succ fuel =>
      have hshort : (before ++
          ((walFrame crc kind number frameData checksum).1 ++ rest).take k).length <
            2147483648 := by
        rw [List.length_append, List.length_take]
        omega
      obtain ⟨message, hpanic⟩ := @readFrames_of_wraps crc _ checksum o pageSize fuel found none
        hshort (by rw [List.length_append]; omega) (hwraps before hbefore)
      exact ⟨message, Option.some.inj (h.symm.trans hpanic)⟩

/-- Frames that go past 2 GiB have one that a sum wraps around at. -/
theorem cutPanics_walFrames (pageSize : Int) (hpages : FitsFrame pages)
    (hheader : headerBytes.length < 2 ^ 31) (ho : o < 2147483648)
    (hlarge : 2147483648 ≤
      o + (walFrames crc pages headerBytes totalPages checksum).flatten.length) :
    CutPanics crc pageSize checksum o
      (walFrames crc pages headerBytes totalPages checksum).flatten := by
  induction pages generalizing o checksum with
  | nil =>
      simp only [walFrames, List.flatten_cons, List.flatten_nil, List.length_append,
        length_walFrame, walFrameHeaderSize, List.length_nil] at hlarge ⊢
      exact cutPanics_walFrame crc pageSize _ _ [] checksum hheader ho (by omega)
  | cons page pages ih =>
      obtain ⟨pageNumber, pageData⟩ := page
      obtain ⟨hnumber, hpage⟩ : pageNumber < 2 ^ 31 ∧ pageData.length < 2 ^ 31 :=
        hpages _ (List.mem_cons_self ..)
      simp only [walFrames, List.flatten_cons, List.length_append, length_walFrame,
        walFrameHeaderSize] at hlarge ⊢
      by_cases hfirst : 2147483648 ≤ o + 16 + pageData.length
      · exact cutPanics_walFrame crc pageSize _ _ _ checksum hpage ho hfirst
      · obtain ⟨k, hk, hok, hpanics⟩ : CutPanics crc pageSize
            (walFrame crc walFramePage pageNumber pageData checksum).2
            (o + 16 + pageData.length)
            (walFrames crc pages headerBytes totalPages
              (walFrame crc walFramePage pageNumber pageData checksum).2).flatten :=
          ih hpages.tail (by omega) (by omega)
        have hlength : (walFrame crc walFramePage pageNumber pageData checksum).1.length =
            16 + pageData.length := by
          rw [length_walFrame, walFrameHeaderSize]
        refine ⟨16 + pageData.length + k, ?_, by omega, fun before hbefore fuel found out h => ?_⟩
        · rw [List.length_append, hlength]
          omega
        · rw [List.take_append, List.take_of_length_le (by omega), hlength,
            Nat.add_sub_cancel_left] at h
          cases fuel with
          | zero => cases h
          | succ fuel =>
              have hshort : (before ++
                  ((walFrame crc walFramePage pageNumber pageData checksum).1 ++
                    (walFrames crc pages headerBytes totalPages
                      (walFrame crc walFramePage pageNumber pageData checksum).2).flatten.take
                        k)).length < 2147483648 := by
                rw [List.length_append, List.length_append, List.length_take]
                omega
              rw [readFrames_walFrame hshort hnumber (.inl rfl) (List.drop_left' hbefore),
                if_pos rfl, if_pos rfl, ← List.append_assoc] at h
              refine hpanics _ ?_ _ _ _ h
              rw [List.length_append]
              omega

end

/-! ## The log of a statement -/

section

variable {crc : Bytes → UInt32} {salt : UInt32}

private theorem walHeader_split (salt : UInt32) (pageSize : Nat) (tail : Bytes) :
    walHeader crc salt pageSize ++ tail =
      (walMagic ++ writeU16 walVersion ++ [walStateCommitted, 0]) ++
        (writeU32 pageSize ++ (writeU32 salt.toNat ++ (List.replicate 8 0 ++
          (writeU32 (crc (walHeaderFields salt pageSize)).toNat ++ tail)))) := by
  simp only [walHeader, walHeaderFields, List.append_assoc]

theorem hasLogHeader_walHeader (salt : UInt32) (pageSize : Nat) (tail : Bytes) :
    HasLogHeader crc (walHeader crc salt pageSize ++ tail) := by
  have htake : (walHeader crc salt pageSize ++ tail).take walHeaderSize =
      walHeader crc salt pageSize :=
    List.take_left' (length_walHeader salt pageSize)
  have hcommitted : (walHeader crc salt pageSize).set walStateOffset 0 =
      walHeader crc salt pageSize := by
    simp [walHeader, walHeaderFields, walMagic, walStateOffset, writeU16,
      bigEndian, walStateCommitted]
  have hlength : (walHeaderFields salt pageSize).length = walHeaderSize - 4 := by
    simp [walHeaderFields, walMagic, walHeaderSize]
  have hfields : (walHeader crc salt pageSize).take (walHeaderSize - 4) =
      walHeaderFields salt pageSize :=
    List.take_left' hlength
  have hcheck : u32At (walHeader crc salt pageSize) (walHeaderSize - 4) =
      (crc (walHeaderFields salt pageSize)).toNat := by
    have h := u32At_append hlength (UInt32.toNat_lt (crc (walHeaderFields salt pageSize))) []
    rwa [List.append_nil] at h
  refine ⟨by simp, ?_, ?_⟩
  · rw [walHeader_split]
    simp [walMagic]
  · rw [htake, hcommitted, hfields, hcheck, UInt32.ofNat_toNat]

theorem readLog_walHeader (salt : UInt32) (pageSize : PageSize) (tail : Bytes) (fuel : Nat) :
    readLog crc (walHeader crc salt pageSize ++ tail) fuel =
      readFrames crc (walHeader crc salt pageSize ++ tail) pageSize fuel salt walHeaderSize
        .empty none := by
  have hsize : pageSize.val < 2 ^ 31 := Nat.lt_of_le_of_lt pageSize.property.2 (by decide)
  have hpageSize : u32At (walHeader crc salt pageSize ++ tail) 12 = pageSize := by
    rw [walHeader_split]
    exact u32At_append (by simp [walMagic]) (by omega) _
  have hsalt : u32At (walHeader crc salt pageSize ++ tail) 16 = salt.toNat := by
    rw [walHeader_split, ← List.append_assoc]
    exact u32At_append (by simp [walMagic]) (UInt32.toNat_lt _) _
  rw [readLog, if_pos (hasLogHeader_walHeader salt pageSize tail), hpageSize, hsalt,
    UInt32.ofNat_toNat, toInt32_of_lt hsize]

variable {pageSize : PageSize} {pages : OrderedMap Nat Bytes} {headerBytes : Bytes}
variable {totalPages : Nat}

theorem length_walLog : (walLog crc salt pageSize pages headerBytes totalPages).length =
    walHeaderSize + (walFrames crc pages.entries headerBytes totalPages salt).flatten.length := by
  rw [walLog, List.length_append, length_walHeader]

/-- A log that was not written to its end has no statement in it. -/
theorem walRead_torn (hpages : FitsFrame pages.entries) (hheader : headerBytes.length < 2 ^ 31)
    {k : Nat} (hk : k < (walLog crc salt pageSize pages headerBytes totalPages).length)
    (hshort : k < 2147483648) :
    walRead crc ((walLog crc salt pageSize pages headerBytes totalPages).take k) = .ok none ∨
      2147483648 ≤ (walLog crc salt pageSize pages headerBytes totalPages).length ∧
        ∃ message, walRead crc
          ((walLog crc salt pageSize pages headerBytes totalPages).take k) =
            .error (.panic message) := by
  have hlength : ((walLog crc salt pageSize pages headerBytes totalPages).take k).length = k := by
    rw [List.length_take]
    omega
  have hread := readLog_eq_walRead crc (hlength.trans_lt hshort)
  rw [length_walLog] at hk ⊢
  by_cases hcut : k < walHeaderSize
  · have hnone : ¬HasLogHeader crc
        ((walLog crc salt pageSize pages headerBytes totalPages).take k) := fun h => by
      have := h.1
      omega
    rw [readLog, if_neg hnone] at hread
    exact .inl (Option.some.inj hread).symm
  · have hsplit : (walLog crc salt pageSize pages headerBytes totalPages).take k =
        walHeader crc salt pageSize ++
          (walFrames crc pages.entries headerBytes totalPages salt).flatten.take
            (k - walHeaderSize) := by
      rw [walLog, List.take_append, length_walHeader,
        List.take_of_length_le (by rw [length_walHeader]; omega)]
    rw [hsplit] at hread hlength ⊢
    rw [readLog_walHeader] at hread
    exact readFrames_torn hpages hheader (by omega) (by omega) (by omega)
      (List.drop_left' (length_walHeader salt pageSize)) hread

/-- The whole log is read back as the statement that wrote it. -/
theorem walRead_walLog (hpages : FitsFrame pages.entries) (htotal : totalPages < 2 ^ 31)
    (hshort : (walLog crc salt pageSize pages headerBytes totalPages).length < 2147483648) :
    if (walLog crc salt pageSize pages headerBytes totalPages).length + 16 < 2147483648 then
      walRead crc (walLog crc salt pageSize pages headerBytes totalPages) =
        .ok (some ⟨pageSize, readPages pages.entries .empty, headerBytes, totalPages⟩)
    else ∃ message, walRead crc (walLog crc salt pageSize pages headerBytes totalPages) =
      .error (.panic message) := by
  have hread := readLog_eq_walRead crc hshort
  rw [walLog] at hread hshort ⊢
  rw [readLog_walHeader] at hread
  exact readFrames_complete hpages htotal hshort (by simp)
    (List.drop_left' (length_walHeader salt pageSize)) hread

/-- A log of 2 GiB can be cut so that reading it panics. -/
theorem exists_walRead_panic (hpages : FitsFrame pages.entries)
    (hheader : headerBytes.length < 2 ^ 31)
    (hlarge : 2147483648 ≤ (walLog crc salt pageSize pages headerBytes totalPages).length) :
    ∃ k < (walLog crc salt pageSize pages headerBytes totalPages).length, k < 2147483648 ∧
      walHeaderSize ≤ k ∧ ∃ message,
        walRead crc ((walLog crc salt pageSize pages headerBytes totalPages).take k) =
          .error (.panic message) := by
  rw [length_walLog] at hlarge ⊢
  obtain ⟨k, hk, hshort, hpanics⟩ : CutPanics crc pageSize salt walHeaderSize
      (walFrames crc pages.entries headerBytes totalPages salt).flatten :=
    cutPanics_walFrames pageSize hpages hheader (by decide) hlarge
  refine ⟨walHeaderSize + k, by omega, hshort, by omega, ?_⟩
  have hsplit : (walLog crc salt pageSize pages headerBytes totalPages).take
      (walHeaderSize + k) = walHeader crc salt pageSize ++
        (walFrames crc pages.entries headerBytes totalPages salt).flatten.take k := by
    rw [walLog, List.take_append, length_walHeader, Nat.add_sub_cancel_left,
      List.take_of_length_le (by rw [length_walHeader]; omega)]
  have hlength : ((walLog crc salt pageSize pages headerBytes totalPages).take
      (walHeaderSize + k)).length < 2147483648 := by
    rw [List.length_take]
    omega
  have hread := readLog_eq_walRead crc hlength
  rw [hsplit, readLog_walHeader] at hread
  rw [hsplit]
  exact hpanics _ (length_walHeader salt pageSize) _ _ _ hread

end

end Vsql
