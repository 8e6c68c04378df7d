import Vsql.Unicode.Decomposition

/-!
# Canonical composition

Each code point is composed with the last starter, unless something between them blocks it.
Only the last mark that is left has to be compared, since the marks are in order.  Decomposing
the result again yields the string that was composed.
-/

namespace Vsql.Unicode

open Foundation

section

variable (tables : UnicodeTables)

/-- The variables of the loop of `composeCanonical`. -/
structure Composing where
  out : List Nat
  starter : Option Nat
  lastClass : Nat

/-- The starter that `r` composes with, and their composite. -/
def Composing.composite (s : Composing) (r : Nat) : Option (Nat × Nat) := do
  let starter ← s.starter
  if starter + 1 = s.out.length ∨ s.lastClass < unicodeCombiningClass tables r then
    let composite ← unicodeComposite tables (s.out.getD starter 0) r
    pure (starter, composite)
  else none

def composeStep (s : Composing) (r : Nat) : Composing :=
  let class' := unicodeCombiningClass tables r
  match s.composite tables r with
  | some (starter, composite) => { s with out := s.out.set starter composite }
  | none =>
      { out := s.out ++ [r]
        starter := if class' = 0 then some s.out.length else s.starter
        lastClass := class' }

def composeCanonical (runes : List Nat) : List Nat :=
  (runes.foldl (composeStep tables) { out := [], starter := none, lastClass := 0 }).out

end

variable {tables : UnicodeTables}

/-! ## The loop -/

/-- What `starter` and `lastClass` say about `out`. -/
structure Composing.At (tables : UnicodeTables) (s : Composing) (pre : List Nat) (a : Nat)
    (marks : List Nat) : Prop where
  last : LastStarter (unicodeCombiningClass tables) s.out pre a marks
  starter : s.starter = some pre.length
  lastClass : ∀ m ∈ marks, unicodeCombiningClass tables m ≤ s.lastClass
  lastMark : marks = [] ∨ ∃ m ∈ marks, unicodeCombiningClass tables m = s.lastClass

/-- Before the first starter there are only marks. -/
structure Composing.Before (tables : UnicodeTables) (s : Composing) : Prop where
  starter : s.starter = none
  marks : ∀ m ∈ s.out, unicodeCombiningClass tables m ≠ 0

theorem LastStarter.unique {cls : Nat → Nat} {out pre pre' between between' : List Nat}
    {a a' : Nat} (h : LastStarter cls out pre a between)
    (h' : LastStarter cls out pre' a' between') :
    pre = pre' ∧ a = a' ∧ between = between' := by
  have hout : pre ++ a :: between = pre' ++ a' :: between' := h.out.symm.trans h'.out
  obtain ⟨l, hpre, hrest⟩ | ⟨l, hpre, hrest⟩ := List.append_eq_append_iff.mp hout
  · cases l with
    | nil => simp_all
    | cons b l =>
        obtain ⟨rfl, hbetween⟩ := List.cons.inj hrest
        exact absurd h'.starter (h.marks a' (by simp [hbetween]))
  · cases l with
    | nil => simp_all
    | cons b l =>
        obtain ⟨rfl, hbetween⟩ := List.cons.inj hrest
        exact absurd h.starter (h'.marks a (by simp [hbetween]))

/-- The comparison of the loop is whether the starter is blocked. -/
theorem Composing.At.blocked_iff {s : Composing} {pre marks : List Nat} {a : Nat}
    (h : s.At tables pre a marks) (r : Nat) :
    Blocked (unicodeCombiningClass tables) marks r ↔
      ¬(pre.length + 1 = s.out.length ∨ s.lastClass < unicodeCombiningClass tables r) := by
  have hlength : s.out.length = pre.length + 1 + marks.length := by
    rw [h.last.out]
    simp
    omega
  constructor
  · rintro ⟨b, hb, hblocked⟩ (hend | hlt)
    · have hnil : marks = [] := List.eq_nil_of_length_eq_zero (by omega)
      rw [hnil] at hb
      cases hb
    · have hle := h.lastClass b hb
      have hne := h.last.marks b hb
      omega
  · rintro hnot
    rw [not_or, not_lt] at hnot
    obtain hnil | ⟨m, hm, hclass⟩ := h.lastMark
    · exact absurd (by rw [hlength, hnil]; rfl) hnot.1
    · exact ⟨m, hm, .inr (hclass ▸ hnot.2)⟩

/-! ## One step -/

/-- The code point that is kept becomes the last starter or the last mark. -/
def Composing.push (tables : UnicodeTables) (s : Composing) (r : Nat) : Composing :=
  { out := s.out ++ [r]
    starter := if unicodeCombiningClass tables r = 0 then some s.out.length else s.starter
    lastClass := unicodeCombiningClass tables r }

theorem composeStep_before {s : Composing} (h : s.starter = none) (r : Nat) :
    composeStep tables s r = s.push tables r := by
  simp [composeStep, Composing.composite, Composing.push, h]

theorem composeStep_at {s : Composing} {pre marks : List Nat} {a : Nat}
    (h : s.At tables pre a marks) (r : Nat) :
    (¬Blocked (unicodeCombiningClass tables) marks r ∧ ∃ c, unicodeComposite tables a r = some c ∧
        composeStep tables s r = { s with out := pre ++ c :: marks }) ∨
      ((Blocked (unicodeCombiningClass tables) marks r ∨ unicodeComposite tables a r = none) ∧
        composeStep tables s r = s.push tables r) := by
  have hget : s.out.getD pre.length 0 = a := by
    rw [h.last.out]
    simp [List.getD_eq_getElem?_getD]
  have hset : ∀ c, s.out.set pre.length c = pre ++ c :: marks := by
    intro c
    rw [h.last.out, List.set_append_right _ _ le_rfl]
    simp
  by_cases hblocked : Blocked (unicodeCombiningClass tables) marks r
  · right
    refine ⟨.inl hblocked, ?_⟩
    rw [h.blocked_iff] at hblocked
    simp [composeStep, Composing.composite, Composing.push, h.starter, hblocked]
  · have hopen := hblocked
    rw [h.blocked_iff, not_not] at hopen
    have hcomposite : s.composite tables r =
        (unicodeComposite tables a r).map fun c => (pre.length, c) := by
      unfold Composing.composite
      rw [h.starter]
      simp only [Option.bind_eq_bind, Option.bind_some, if_pos hopen, hget]
      cases unicodeComposite tables a r <;> rfl
    cases hc : unicodeComposite tables a r with
    | none =>
        right
        refine ⟨.inr rfl, ?_⟩
        simp [composeStep, hcomposite, hc, Composing.push]
    | some c =>
        left
        refine ⟨hblocked, c, rfl, ?_⟩
        simp [composeStep, hcomposite, hc, hset]

/-- A composite is a starter. -/
theorem UnicodeTables.Stable.class_of_composite (h : tables.Stable) {a b c : Nat}
    (hc : PrimaryComposite tables a b c) : unicodeCombiningClass tables c = 0 := by
  rw [h.unicodeCombiningClass_eq]
  by_contra hne
  obtain ⟨entry, hentry, rfl⟩ := classOf_ne_zero hne
  obtain ⟨hsyllable, hcomposites⟩ := h.starters entry hentry
  obtain hhangul | ⟨⟨composition, hcomposition, hlow⟩, -⟩ := h.mapping_of_composite hc
  · exact hsyllable (isHangulS_iff_hangulComposite.mpr ⟨a, b, hhangul⟩)
  · exact hcomposites composition hcomposition hlow

/-- What holds before each step of the loop: the marks after the last starter are not decomposed
further, and what is left may follow them. -/
inductive Ready (h : tables.Stable) (s : Composing) (rest : List Nat) : Prop where
  | before (hbefore : s.Before tables)
  | after {pre marks : List Nat} {a : Nat} (hafter : s.At tables pre a marks)
      (hmarks : ∀ m ∈ marks, h.full m = [m])
      (hrest : ∀ r ∈ rest.head?, unicodeCombiningClass tables r ≠ 0 → ∀ m ∈ marks,
        unicodeCombiningClass tables m ≤ unicodeCombiningClass tables r)

/-- A new starter has no marks yet. -/
theorem ready_push_starter (h : tables.Stable) (s : Composing) {r : Nat} (rest : List Nat)
    (hr : unicodeCombiningClass tables r = 0) : Ready h (s.push tables r) rest := by
  refine @Ready.after tables h _ rest s.out [] r ⟨⟨rfl, hr, by simp⟩, ?_, by simp, .inl rfl⟩
    (by simp) (by simp)
  simp [Composing.push, hr]

theorem ready_push_before (h : tables.Stable) {s : Composing} (hs : s.Before tables) {r : Nat}
    (rest : List Nat) : Ready h (s.push tables r) rest := by
  by_cases hr : unicodeCombiningClass tables r = 0
  · exact ready_push_starter h s rest hr
  · refine .before ⟨?_, ?_⟩
    · simp [Composing.push, hr, hs.starter]
    · intro m hm
      obtain hm | hm := List.mem_append.mp hm
      · exact hs.marks m hm
      · rw [List.mem_singleton.mp hm]
        exact hr

theorem head_class_le {r : Nat} {rest : List Nat}
    (hordered : RunsOrdered (unicodeCombiningClass tables) (r :: rest)) :
    ∀ next ∈ rest.head?, unicodeCombiningClass tables next ≠ 0 →
      unicodeCombiningClass tables r ≤ unicodeCombiningClass tables next :=
  (List.isChain_cons.mp hordered).1

theorem ready_push_at (h : tables.Stable) {s : Composing} {pre marks rest : List Nat} {a r : Nat}
    (hs : s.At tables pre a marks) (hmarks : ∀ m ∈ marks, h.full m = [m])
    (hle : unicodeCombiningClass tables r ≠ 0 → ∀ m ∈ marks,
      unicodeCombiningClass tables m ≤ unicodeCombiningClass tables r)
    (hfull : h.full r = [r])
    (hordered : RunsOrdered (unicodeCombiningClass tables) (r :: rest)) :
    Ready h (s.push tables r) rest := by
  by_cases hr : unicodeCombiningClass tables r = 0
  · exact ready_push_starter h s rest hr
  · have hmem : ∀ {p : Nat → Prop}, (∀ m ∈ marks, p m) → p r → ∀ m ∈ marks ++ [r], p m := by
      intro p hp hpr m hm
      obtain hm | hm := List.mem_append.mp hm
      · exact hp m hm
      · rw [List.mem_singleton.mp hm]
        exact hpr
    have hbound : ∀ m ∈ marks ++ [r],
        unicodeCombiningClass tables m ≤ unicodeCombiningClass tables r :=
      hmem (hle hr) le_rfl
    refine @Ready.after tables h _ rest pre (marks ++ [r]) a ⟨⟨?_, hs.last.starter, ?_⟩, ?_, ?_, ?_⟩
      (hmem hmarks hfull) ?_
    · simp [Composing.push, hs.last.out]
    · exact hmem hs.last.marks hr
    · simp [Composing.push, hr, hs.starter]
    · exact hbound
    · exact .inr ⟨r, by simp, rfl⟩
    · intro next hnext hne m hm
      exact (hbound m hm).trans (head_class_le hordered next hnext hne)

theorem class_lt_of_not_blocked {marks : List Nat} {r m : Nat}
    (hopen : ¬Blocked (unicodeCombiningClass tables) marks r) (hm : m ∈ marks) :
    unicodeCombiningClass tables m < unicodeCombiningClass tables r := by
  by_contra hle
  exact hopen ⟨m, hm, .inr (not_lt.mp hle)⟩

/-- A code point may be moved to the starter that it is not blocked from. -/
theorem orderRuns_open {marks : List Nat} {r : Nat}
    (hopen : ¬Blocked (unicodeCombiningClass tables) marks r)
    (hmarks : ∀ m ∈ marks, unicodeCombiningClass tables m ≠ 0) (x y : List Nat) :
    orderRuns (unicodeCombiningClass tables) (x ++ marks ++ r :: y) =
      orderRuns (unicodeCombiningClass tables) (x ++ r :: marks ++ y) := by
  cases marks with
  | nil => simp
  | cons m marks =>
      have hlt := class_lt_of_not_blocked hopen List.mem_cons_self
      refine orderRuns_move (by omega) (fun b hb => ⟨hmarks b hb, ?_⟩) x y
      exact (class_lt_of_not_blocked hopen hb).ne

/-- One step of the loop: the starter and the code point compose as in Unicode, and the
decomposition of the string stays the same. -/
theorem ready_step (h : tables.Stable) {s : Composing} {rest : List Nat} {r : Nat}
    (hs : Ready h s (r :: rest)) (hr : r < 2 ^ 21) (hfull : h.full r = [r])
    (hordered : RunsOrdered (unicodeCombiningClass tables) (r :: rest)) :
    Ready h (composeStep tables s r) rest ∧
      ComposesNext (unicodeCombiningClass tables)
        (PrimaryComposite tables) s.out r (composeStep tables s r).out ∧
      orderRuns (unicodeCombiningClass tables)
          ((composeStep tables s r).out.flatMap h.full ++ rest) =
        orderRuns (unicodeCombiningClass tables) (s.out.flatMap h.full ++ r :: rest) := by
  have hpush : (s.push tables r).out.flatMap h.full ++ rest = s.out.flatMap h.full ++
    r :: rest := by
    simp [Composing.push, hfull]
  cases hs with
  | before hbefore =>
      rw [composeStep_before hbefore.starter]
      refine ⟨ready_push_before h hbefore rest, .kept ?_, by rw [hpush]⟩
      intro pre a between hlast
      exact absurd hlast.starter (hbefore.marks a (by simp [hlast.out]))
  | @after pre marks a hafter hmarks hrest =>
      have hle := hrest r rfl
      obtain ⟨hopen, c, hc, hstep⟩ | ⟨hkept, hstep⟩ := composeStep_at hafter r
      · have hcomposes := (h.unicodeComposite_eq_some hr).mp hc
        rw [hstep]
        refine ⟨?_, .composed hafter.last hopen hcomposes, ?_⟩
        · refine @Ready.after tables h _ rest pre marks c
            ⟨⟨rfl, h.class_of_composite hcomposes, hafter.last.marks⟩, hafter.starter,
              hafter.lastClass, hafter.lastMark⟩ hmarks ?_
          intro next hnext hne m hm
          exact (class_lt_of_not_blocked hopen hm).le.trans
            (head_class_le hordered next hnext hne)
        · have hflat : marks.flatMap h.full = marks := by
            rw [List.flatMap_congr hmarks, List.flatMap_singleton']
          have hbefore : s.out.flatMap h.full ++ r :: rest =
              (pre.flatMap h.full ++ h.full a) ++ marks ++ r :: rest := by
            simp [hafter.last.out, hflat]
          have hcomposed : (pre ++ c :: marks).flatMap h.full ++ rest =
              (pre.flatMap h.full ++ h.full a) ++ r :: marks ++ rest := by
            simp [h.full_of_composite hcomposes, hfull, hflat]
          rw [hbefore, hcomposed]
          exact (orderRuns_open hopen hafter.last.marks _ _).symm
      · rw [hstep]
        refine ⟨ready_push_at h hafter hmarks hle hfull hordered, .kept ?_, by rw [hpush]⟩
        intro pre' a' between hlast
        obtain ⟨-, rfl, rfl⟩ := hafter.last.unique hlast
        refine hkept.imp id fun hnone c hc => ?_
        rw [(h.unicodeComposite_eq_some hr).mpr hc] at hnone
        cases hnone

/-! ## The whole loop -/

/-- The rest of the loop. -/
theorem foldl_composeStep (h : tables.Stable) {s : Composing} {x : List Nat} (hs : Ready h s x)
    (hx : ∀ r ∈ x, r < 2 ^ 21 ∧ h.full r = [r])
    (hordered : RunsOrdered (unicodeCombiningClass tables) x) :
    Composition (unicodeCombiningClass tables) (PrimaryComposite tables) s.out x
        (x.foldl (composeStep tables) s).out ∧
      orderRuns (unicodeCombiningClass tables)
          ((x.foldl (composeStep tables) s).out.flatMap h.full) =
        orderRuns (unicodeCombiningClass tables) (s.out.flatMap h.full ++ x) := by
  induction x generalizing s with
  | nil => exact ⟨.done s.out, by simp⟩
  | cons r x ih =>
      obtain ⟨hlt, hfull⟩ := hx r List.mem_cons_self
      obtain ⟨hready, hnext, hsame⟩ := ready_step h hs hlt hfull hordered
      obtain ⟨hrest, horder⟩ := ih hready (fun r' hr' => hx r' (List.mem_cons_of_mem r hr'))
        (List.isChain_cons.mp hordered).2
      exact ⟨.next hnext hrest, horder.trans hsame⟩

theorem ready_start (h : tables.Stable) (x : List Nat) :
    Ready h { out := [], starter := none, lastClass := 0 } x :=
  .before ⟨rfl, by simp⟩

/-- The loop composes a decomposed string as in Unicode. -/
theorem composition_composeCanonical (h : tables.Stable) {x : List Nat}
    (hx : ∀ r ∈ x, r < 2 ^ 21 ∧ h.full r = [r])
    (hordered : RunsOrdered (unicodeCombiningClass tables) x) :
    Composition (unicodeCombiningClass tables) (PrimaryComposite tables) [] x
      (composeCanonical tables x) :=
  (foldl_composeStep h (ready_start h x) hx hordered).1

/-- Decomposing the result again yields the string that was composed. -/
theorem orderRuns_composeCanonical (h : tables.Stable) {x : List Nat}
    (hx : ∀ r ∈ x, r < 2 ^ 21 ∧ h.full r = [r])
    (hordered : RunsOrdered (unicodeCombiningClass tables) x) :
    orderRuns (unicodeCombiningClass tables) ((composeCanonical tables x).flatMap h.full) = x := by
  have horder := (foldl_composeStep h (ready_start h x) hx hordered).2
  exact horder.trans (orderRuns_of_ordered hordered)

end Vsql.Unicode
