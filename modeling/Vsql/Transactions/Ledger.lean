import Vsql.Sessions
import Vsql.Transactions.Effects

/-!
# The ledger of a run

The transactions that have ended are compared with what is in the file: the
invariant of a run says which objects and active ids there can be, and what
every connection remembers of its own transaction.
-/

namespace Vsql

open Foundation StateError

variable {size : PageSize} {Def : Type}

namespace Storage

/-! ## Statements that write the file -/

theorem Opened.effect {alone : Bool} {others own : Nat → Prop} {s u : Storage size Def}
    (h : Opened alone s u) (hfile : s.committed.Sound)
    (hothers : ∀ T, others T → T ≠ 0 ∧ T ∉ s.deadIds alone s.committed.header) :
    Effect others own s.committed u.current := by
  refine Effect.ofLacks hfile h.lastId h.sound (fun T hT hmem => ((h.ids T hT).mp hmem).1)
    (fun T hT hmem => (h.ids T (hothers T hT).1).mpr ⟨hmem, (hothers T hT).2⟩)
    (fun R hzero hR => (hR.shrinks hzero h.shrinks).congr rfl) fun T hT n hn => ?_
  exact h.shrinks.ownedAt (hothers T hT).1 hn

theorem Opened.begins {alone : Bool} {s u : Storage size Def} (h : Opened alone s u)
    (hkeeps : s.Keeps u) (hs : Between s.committed s) (hfile : s.committed.Sound) :
    u.beginStatement.Begins := by
  have heffect : Effect (fun _ => False) (fun _ => False) s.committed u.current :=
    h.effect hfile fun _ => False.elim
  refine ⟨heffect.sound, ⟨hkeeps.medium.trans hs.medium, h.error.trans hs.error,
    fun hstate => ?_, fun hstate => ?_⟩, h.write, rfl⟩
  · obtain ⟨hdepth, hpages⟩ := hs.idle (hkeeps.state.symm.trans hstate)
    refine ⟨hkeeps.depth.trans hdepth, ?_⟩
    refine List.eq_nil_iff_forall_not_mem.mpr fun n hn => ?_
    simpa [hpages] using (hkeeps.pages n).mp hn
  · have hactive : s.transactionState = .active := hkeeps.state.symm.trans hstate
    obtain ⟨hdepth, hid, hlisted, hpages⟩ := hs.active hactive
    have hsame : u.transactionId = s.transactionId := hkeeps.id hactive
    refine ⟨hkeeps.depth.trans hdepth, hsame.symm ▸ hid, ?_, fun n hn => ?_⟩
    · show u.transactionId ∈ u.header.activeTransactionIds.tids
      rw [hsame, h.ids _ hid]
      refine ⟨hlisted, fun hdead => ?_⟩
      obtain ⟨-, -, -, hnot⟩ := mem_deadIds.mp hdead
      simp [hactive] at hnot
    · refine (hkeeps.pages n).mpr (hpages n ?_)
      rw [← hsame]
      exact h.shrinks.ownedAt (hsame.symm ▸ hid) hn

/-- What a successful statement did to the file and to its own connection. -/
structure Writes (others : Nat → Prop) (stmt : Statement Def)
    (s t : Storage size Def) : Prop where
  effect : Effect others s.Own s.committed t.committed
  settles : Settles (fun T => s.Own T ∧ stmt.Ends) s.committed t.committed
  between : Between t.committed t
  same : t.transactionState = .active →
    s.transactionState = .active ∧ t.transactionId = s.transactionId ∨
      s.committed.header.transactionId < t.transactionId
  commits : (∃ checks, stmt = .commit checks) → s.transactionState = .active ∧
    s.transactionId ∉ t.committed.header.activeTransactionIds.tids ∧
      t.committed.tree.Lacks fun _ xid => xid = s.transactionId
  rollsBack : stmt = .rollback → s.transactionState = .active ∧
    s.transactionId ∉ t.committed.header.activeTransactionIds.tids ∧
      t.committed.tree.Lacks (Owns s.transactionId)

theorem Wrote.writes {parser : SchemaParser Def} {alone : Bool} {faults : Faults}
    {stmt : Statement Def} {others : Nat → Prop} {s t : Storage size Def}
    (h : Wrote parser alone faults stmt s t) (hwrites : ¬ stmt.Reads)
    (hs : Between s.committed s) (hfile : s.committed.Sound)
    (hothers : ∀ T, others T → T ≠ 0 ∧ T ≤ s.committed.header.transactionId ∧ ¬ s.Own T ∧
      T ∉ s.deadIds alone s.committed.header)
    (hsafe : ∀ u, openStorage parser true alone faults.opening s = .ok () u →
      stmt.Safe others u.beginStatement) : Writes others stmt s t := by
  obtain ⟨haccepted, u, v, hopen, hbody, herror, hcommit⟩ := h
  have hopened := openStorage_opened hopen hs.parked (fun h => (hs.idle h).1) hfile.header
  have hkeeps := (openStorage_keeps parser true alone faults.opening hs.parked).1
  rw [hopen] at hkeeps
  have hkeeps : s.Keeps u := hkeeps
  have hbegins := hopened.begins hkeeps hs hfile
  have hown : ∀ T, u.beginStatement.Own T ↔ s.Own T := by
    intro T
    constructor
    · rintro ⟨hstate, rfl⟩
      have hactive : s.transactionState = .active := hkeeps.state.symm.trans hstate
      exact ⟨hactive, hkeeps.id hactive⟩
    · rintro ⟨hstate, rfl⟩
      exact ⟨hkeeps.state.trans hstate, (hkeeps.id hstate).symm⟩
  have hlast : s.committed.header.transactionId ≤ u.beginStatement.header.transactionId :=
    hopened.lastId
  have hrefusal : stmt.refusal u.beginStatement.transactionState = none := by
    show stmt.refusal u.transactionState = none
    rw [hkeeps.state]
    exact haccepted
  obtain ⟨hdid, hcommits, hrollsBack⟩ := stmt.body_did hbody herror hbegins hrefusal hwrites
    (fun T hT => ⟨(hothers T hT).1, (hothers T hT).2.1.trans hlast,
      fun h => (hothers T hT).2.2.1 ((hown T).mp h)⟩) (hsafe u hopen)
  have hopenEffect : Effect others s.Own s.committed u.current :=
    hopened.effect hfile fun T hT => ⟨(hothers T hT).1, (hothers T hT).2.2.2⟩
  have hownBound : ∀ T, s.Own T → T ≤ s.committed.header.transactionId :=
    fun T hT => hT.2 ▸ hfile.header.bound _ (hs.active hT.1).listed
  have hbodyEffect : Effect others s.Own u.current v.current :=
    hdid.effect.mono fun T hT => (hown T).mp hT
  have heffect : Effect others s.Own s.committed v.current :=
    hopenEffect.trans hbodyEffect hownBound
      fun T hT hmem => (hdid.closes T hT hmem).imp_right fun h => (hown T).mp h.1
  obtain rfl := commitStatement_ok hcommit hdid.between.medium
  refine ⟨heffect.congr rfl rfl rfl, fun T hT hmem => ?_, ?_, fun hactive => ?_,
    fun hstmt => ?_, fun hstmt => ?_⟩
  · by_cases hdead : T ∈ s.deadIds alone s.committed.header
    · refine .inr (.inr ?_)
      have hgone : v.current.tree.Lacks (Owns T) := by
        refine hbodyEffect.absent (Owns T) (fun tid xid h => Owns.of_xid hT h)
          (fun U hU => ?_) (hopened.recovered T hdead)
        have hne : T ≠ U := by
          rcases hU with howns | ⟨hlt, -⟩
          · rintro rfl
            obtain ⟨-, -, -, hnot⟩ := mem_deadIds.mp hdead
            simp [howns.1, howns.2] at hnot
          · have hle := hfile.header.bound T hmem
            have hlt : u.header.transactionId < U := hlt
            have hlast : s.committed.header.transactionId ≤ u.header.transactionId := hlast
            omega
        exact ⟨not_owns_new hne hT, fun tid xid h => Owns.of_xid hne h⟩
      exact hgone
    · rcases hdid.closes T hT ((hopened.ids T hT).mpr ⟨hmem, hdead⟩) with h | h
      · exact .inl h
      · exact .inr (.inl ⟨(hown T).mp h.1, h.2⟩)
  · obtain ⟨hmedium, herror, hidle, hactive⟩ := hdid.between
    refine ⟨hmedium, herror, hidle, fun hstate => ?_⟩
    obtain ⟨hdepth, hid, hlisted, hpages⟩ := hactive hstate
    exact ⟨hdepth, hid, hlisted, hpages⟩
  · rcases hdid.same hactive with ⟨hstate, hid⟩ | hlt
    · have hactive : s.transactionState = .active := hkeeps.state.symm.trans hstate
      exact .inl ⟨hactive, hid.trans (hkeeps.id hactive)⟩
    · exact .inr (hlast.trans_lt hlt)
  · have hactive : s.transactionState = .active := by
      obtain ⟨checks, rfl⟩ := hstmt
      cases hstate : s.transactionState with
      | active => rfl
      | notActive => simp [Statement.refusal, hstate] at haccepted
    have hid : u.beginStatement.transactionId = s.transactionId := hkeeps.id hactive
    obtain ⟨hids, hlacks⟩ := hcommits hstmt
    rw [hid] at hids hlacks
    exact ⟨hactive, hids, hlacks⟩
  · have hactive : s.transactionState = .active := by
      subst hstmt
      cases hstate : s.transactionState with
      | active => rfl
      | notActive => simp [Statement.refusal, hstate] at haccepted
    have hid : u.beginStatement.transactionId = s.transactionId := hkeeps.id hactive
    obtain ⟨hids, hlacks⟩ := hrollsBack hstmt
    rw [hid] at hids hlacks
    exact ⟨hactive, hids, hlacks⟩

/-! ## Statements that fail -/

/-- The values belong to objects that exist, each where its key leads to. -/
def ReplaysInPlace : List PageObject → Btree size → Prop
  | [], _ => True
  | obj :: objects, t => InPlace obj t ∧
      ∀ t', Btree.replaceValue obj obj.value t = .ok () t' → ReplaysInPlace objects t'

theorem replaceValues_confines {objects : List PageObject} {t t' : Btree size}
    (h : replaceValues objects t = .ok () t') (hplace : ReplaysInPlace objects t)
    (R : Nat → Nat → Prop) : Btree.Confines (fun o => R o.tid o.xid) t t' := by
  induction objects generalizing t with
  | nil =>
      obtain ⟨-, rfl⟩ := pure_eq_ok.mp h
      exact .refl t
  | cons obj objects ih =>
      obtain ⟨_, u, hreplace, hrest⟩ := bind_eq_ok.mp h
      obtain ⟨⟨path, depthIterator, n, page, hsearch, hpath, o, ho, -, htid, hxid⟩, hmore⟩ :=
        hplace
      refine .trans t u t' (Btree.replaceValue_confines hreplace fun hR => ?_)
        (ih hrest (hmore u hreplace))
      exact ⟨path, depthIterator, n, page, hsearch, hpath, o, ho, by rw [htid, hxid]; exact hR⟩

/-- The values that would be kept of a statement that fails are in place. -/
def DiscardsInPlace (parser : SchemaParser Def) (alone : Bool) (faults : Faults)
    (stmt : Statement Def) (s : Storage size Def) : Prop :=
  ∀ u, openStorage parser true alone faults.opening s = .ok () u →
    let v := (attempt (stmt.body parser faults) u.beginStatement).1
    ReplaysInPlace v.issuedValues v.putBack.btree

/-- The pages of the file with the values in them, and the header as it was when
the statement began. -/
theorem Replays.parts {parser : SchemaParser Def} {alone : Bool} {faults : Faults}
    {stmt : Statement Def} {s t : Storage size Def}
    (h : Replays parser alone faults stmt s t) (hs : Between s.committed s)
    (hfile : s.committed.Sound) (hplace : DiscardsInPlace parser alone faults stmt s) :
    ∃ u, Opened alone s u ∧
      t.committed.header.transactionId = u.header.transactionId ∧
      t.committed.header.activeTransactionIds = u.header.activeTransactionIds ∧
      ∀ R : Nat → Nat → Prop,
        Btree.Confines (fun o => R o.tid o.xid) s.committed.tree t.committed.tree := by
  obtain ⟨u, v, b, hopen, hv, -, hreplace, hcommitted⟩ := h
  have hopened := openStorage_opened hopen hs.parked (fun h => (hs.idle h).1) hfile.header
  have hkeeps := (openStorage_keeps parser true alone faults.opening hs.parked).2
  rw [hopen] at hkeeps
  have hpages : v.putBack.btree.pages = s.committed.pages := by
    have hheld := attempt_held (stmt.body_held parser faults) u.beginStatement
    rw [hv] at hheld
    show v.committed.pages = s.committed.pages
    rw [hheld.committed]
    exact congrArg CommittedState.pages hkeeps
  have hconfines := replaceValues_confines hreplace (hv ▸ hplace u hopen)
  refine ⟨u, hopened, by rw [hcommitted], by rw [hcommitted], fun R n hn => ?_⟩
  rw [hcommitted] at hn
  exact (Btree.holdsAt_congr (t := s.committed.tree) hpages).mp
    (hconfines R n ((Btree.holdsAt_congr (t := b) rfl).mp hn))

theorem Replays.effect {parser : SchemaParser Def} {alone : Bool} {faults : Faults}
    {stmt : Statement Def} {others own : Nat → Prop} {s t : Storage size Def}
    (h : Replays parser alone faults stmt s t) (hs : Between s.committed s)
    (hfile : s.committed.Sound) (hplace : DiscardsInPlace parser alone faults stmt s)
    (hothers : ∀ T, others T → T ≠ 0 ∧ T ∉ s.deadIds alone s.committed.header) :
    Effect others own s.committed t.committed := by
  obtain ⟨u, hopened, hlast, hids, hconfines⟩ := h.parts hs hfile hplace
  refine Effect.ofLacks hfile (hopened.lastId.trans_eq hlast.symm)
    ⟨hids ▸ hopened.sound.distinct, ?_⟩
    (fun T hT hmem => ((hopened.ids T hT).mp (hids ▸ hmem)).1)
    (fun T hT hmem => ?_) (fun R _ hR n hn => hR n (hconfines R n hn))
    fun T _ n hn => hconfines (Owns T) n hn
  · rw [hlast, hids]
    exact hopened.sound.bound
  · rw [hids]
    exact (hopened.ids T (hothers T hT).1).mpr ⟨hmem, (hothers T hT).2⟩

end Storage

/-! ## Transactions that have ended -/

/-- A property of the objects that only the transaction `T` has to do with. -/
structure Concerns (T : Nat) (R : Nat → Nat → Prop) : Prop where
  zero : ∀ tid xid, R tid 0 → R tid xid
  other : ∀ U, U ≠ T → ¬ R U 0 ∧ ∀ tid xid, R tid U → R tid xid

theorem concerns_xid {T : Nat} (hT : T ≠ 0) : Concerns T fun _ xid => xid = T :=
  ⟨fun _ _ h => absurd h.symm hT, fun _ hU => ⟨fun h => hT h.symm, fun _ _ h => absurd h hU⟩⟩

theorem concerns_owns {T : Nat} (hT : T ≠ 0) : Concerns T (Owns T) :=
  ⟨fun _ _ h => Owns.of_xid hT h,
    fun _ hU => ⟨not_owns_new hU.symm hT, fun _ _ h => Owns.of_xid hU.symm h⟩⟩

/-- The transaction has ended, and no object is left with the property. -/
structure Gone (file : CommittedState size) (T : Nat) (R : Nat → Nat → Prop) : Prop where
  id : T ≠ 0
  past : T ≤ file.header.transactionId
  ids : T ∉ file.header.activeTransactionIds.tids
  lacks : file.tree.Lacks R

theorem Gone.effect {others own : Nat → Prop} {f g : CommittedState size} {T : Nat}
    {R : Nat → Nat → Prop} (h : Gone f T R) (hR : Concerns T R)
    (heffect : Effect others own f g)
    (hown : ∀ U, own U → U ∈ f.header.activeTransactionIds.tids) : Gone g T R := by
  obtain ⟨hid, hpast, hids, hlacks⟩ := h
  refine ⟨hid, hpast.trans heffect.lastId, fun hmem => ?_,
    heffect.absent R hR.zero (fun U hU => hR.other U ?_) hlacks⟩
  · rcases heffect.ids T hid hmem with hmem | hlt
    · exact hids hmem
    · omega
  · rintro rfl
    rcases hU with howns | ⟨hlt, -⟩
    · exact hids (hown U howns)
    · omega

/-! ## The invariant -/

namespace Sessions

/-- The transactions that other connections have open. -/
def others (S : Sessions size Def) (connection T : Nat) : Prop :=
  ∃ c s, c ≠ connection ∧ S.connections[c]? = some (some s) ∧
    s.transactionState = .active ∧ s.transactionId = T

structure Ledger (S : Sessions size Def) : Prop where
  file : S.file.Sound
  committed : ∀ T ∈ S.committed, Gone S.file T fun _ xid => xid = T
  rolledBack : ∀ T ∈ S.rolledBack, Gone S.file T (Owns T)
  connections : ∀ (c : Nat) (s : Storage size Def),
    S.connections[c]? = some (some s) → s.Between S.file
  apart : ∀ (c d : Nat) (s s' : Storage size Def), c ≠ d → S.connections[c]? = some (some s) →
    S.connections[d]? = some (some s') → s.transactionState = .active →
      s'.transactionState = .active → s.transactionId ≠ s'.transactionId

/-- A statement meets no error that hides a written log, does not move objects
of other transactions, and keeps values of sequences in place. -/
def Allowed (parser : SchemaParser Def) (S : Sessions size Def) :
    SessionEvent Def → Prop
  | .execute connection stmt faults => ∀ s, S.connections[connection]? = some (some s) →
      faults.log.Truthful ∧
      (∀ u, Storage.openStorage parser true (S.alone connection) faults.opening
          { s with committed := S.file } = .ok () u →
        stmt.Safe (S.others connection) u.beginStatement) ∧
      Storage.DiscardsInPlace parser (S.alone connection) faults stmt
        { s with committed := S.file }
  | _ => True

theorem Ledger.init : (init : Sessions size Def).Ledger where
  file := by
    refine ⟨⟨TransactionIds.distinct_empty, fun T hT => ?_⟩, fun n hn => ?_⟩
    · have hzero : T = 0 := List.eq_of_mem_replicate hT
      omega
    · obtain ⟨contents, hleaf, -⟩ := hn
      simp [Btree.leafAt, CommittedState.tree, Sessions.init] at hleaf
  committed T hT := by simp [Sessions.init] at hT
  rolledBack T hT := by simp [Sessions.init] at hT
  connections c s hc := by simp [Sessions.init] at hc
  apart c d s s' _ hc := by simp [Sessions.init] at hc

theorem not_alone {S : Sessions size Def} {c T : Nat} (h : S.others c T) :
    S.alone c = false := by
  obtain ⟨d, s, hne, hd, -⟩ := h
  have hmem : some s ∈ S.connections.eraseIdx c :=
    List.mem_eraseIdx_iff_getElem?.mpr ⟨d, hne, hd⟩
  refine Bool.eq_false_iff.mpr fun hall => ?_
  have := List.all_eq_true.mp hall _ hmem
  simp at this

/-- One statement of a connection, whatever it did to its own transaction. -/
theorem Ledger.after {S : Sessions size Def} (hS : S.Ledger) {c : Nat}
    {s t : Storage size Def} {own : Nat → Prop} {C R : List Nat}
    (hc : S.connections[c]? = some (some s))
    (heffect : Effect (S.others c) own S.file t.committed)
    (hown : ∀ U, own U → U ∈ S.file.header.activeTransactionIds.tids)
    (hbetween : t.Between t.committed)
    (hsame : t.transactionState = .active →
      s.transactionState = .active ∧ t.transactionId = s.transactionId ∨
        S.file.header.transactionId < t.transactionId)
    (hC : ∀ T ∈ C, Gone t.committed T fun _ xid => xid = T)
    (hR : ∀ T ∈ R, Gone t.committed T (Owns T)) :
    Ledger { file := t.committed, connections := S.connections.set c (some t),
             committed := C ++ S.committed, rolledBack := R ++ S.rolledBack } := by
  have hlt : c < S.connections.length := (List.getElem?_eq_some_iff.mp hc).1
  have hself : (S.connections.set c (some t))[c]? = some (some t) :=
    List.getElem?_set_self hlt
  have hother : ∀ d, d ≠ c → (S.connections.set c (some t))[d]? = S.connections[d]? :=
    fun d hd => List.getElem?_set_ne hd.symm
  refine ⟨heffect.sound, fun T hT => ?_, fun T hT => ?_, fun d s' hd => ?_, ?_⟩
  · rcases List.mem_append.mp hT with hT | hT
    · exact hC T hT
    · exact (hS.committed T hT).effect (concerns_xid (hS.committed T hT).id) heffect hown
  · rcases List.mem_append.mp hT with hT | hT
    · exact hR T hT
    · exact (hS.rolledBack T hT).effect (concerns_owns (hS.rolledBack T hT).id) heffect hown
  · by_cases heq : d = c
    · subst heq
      obtain rfl : t = s' := by simpa [hself] using hd
      exact hbetween
    · simp only [hother d heq] at hd
      obtain ⟨hmedium, herror, hidle, hactive⟩ := hS.connections d s' hd
      refine ⟨hmedium, herror, hidle, fun hstate => ?_⟩
      obtain ⟨hdepth, hid, hlisted, hpages⟩ := hactive hstate
      have hothers : S.others c s'.transactionId := ⟨d, s', heq, hd, hstate, rfl⟩
      exact ⟨hdepth, hid, heffect.kept _ hothers hlisted,
        fun n hn => hpages n (heffect.others _ hothers n hn)⟩
  · -- A new transaction has a later id than those of the other connections.
    have hnew : ∀ d s', d ≠ c → S.connections[d]? = some (some s') →
        t.transactionState = .active → s'.transactionState = .active →
        t.transactionId ≠ s'.transactionId := by
      intro d s' hne hd ht hs'
      rcases hsame ht with ⟨hs, hid⟩ | hlt
      · rw [hid]
        exact hS.apart c d s s' hne.symm hc hd hs hs'
      · have := hS.file.header.bound _ ((hS.connections d s' hd).active hs').listed
        omega
    intro d e s₁ s₂ hne hd he h₁ h₂
    by_cases hdc : d = c
    · subst hdc
      obtain rfl : t = s₁ := by simpa [hself] using hd
      simp only [hother e hne.symm] at he
      exact hnew e s₂ hne.symm he h₁ h₂
    · simp only [hother d hdc] at hd
      by_cases hec : e = c
      · subst hec
        obtain rfl : t = s₂ := by simpa [hself] using he
        exact (hnew d s₁ hdc hd h₂ h₁).symm
      · simp only [hother e hec] at he
        exact hS.apart d e s₁ s₂ hne hd he h₁ h₂

end Sessions

theorem Storage.Writes.committedBy {others : Nat → Prop} {stmt : Statement Def}
    {s t : Storage size Def} (h : Storage.Writes others stmt s t)
    (hs : s.Between s.committed) (hfile : s.committed.Sound) {T : Nat}
    (hT : T ∈ Sessions.committedBy stmt s t) :
    Gone t.committed T fun _ xid => xid = T := by
  rcases List.mem_append.mp hT with hT | hT
  · simp only [Sessions.implicitIds, List.mem_filter, List.mem_range'_1,
      decide_eq_true_eq] at hT
    obtain ⟨⟨hlow, hhigh⟩, hids⟩ := hT
    have hle : T ≤ t.committed.header.transactionId := by omega
    exact ⟨by omega, hle, hids, h.effect.ended T (by omega) hle hids⟩
  · cases stmt with
    | commit checks =>
        obtain rfl : T = s.transactionId := by simpa using hT
        obtain ⟨hstate, hids, hlacks⟩ := h.commits ⟨checks, rfl⟩
        have hholds := hs.active hstate
        exact ⟨hholds.id, (hfile.header.bound _ hholds.listed).trans h.effect.lastId, hids,
          hlacks⟩
    | _ => simp at hT

theorem Storage.Writes.rolledBackBy {others : Nat → Prop} {stmt : Statement Def}
    {s t : Storage size Def} (h : Storage.Writes others stmt s t)
    (hs : s.Between s.committed) (hfile : s.committed.Sound) {T : Nat}
    (hT : T ∈ Sessions.rolledBackBy stmt s) : Gone t.committed T (Owns T) := by
  cases stmt with
  | rollback =>
      obtain rfl : T = s.transactionId := by simpa [Sessions.rolledBackBy] using hT
      obtain ⟨hstate, hids, hlacks⟩ := h.rollsBack rfl
      have hholds := hs.active hstate
      exact ⟨hholds.id, (hfile.header.bound _ hholds.listed).trans h.effect.lastId, hids,
        hlacks⟩
  | _ => simp [Sessions.rolledBackBy] at hT

namespace Sessions

/-- What holds of a statement of the connection `c`. -/
structure Acts (S : Sessions size Def) (c : Nat) (s : Storage size Def) : Prop where
  between : s.Between s.committed
  file : s.committed.Sound
  own : ∀ U, s.Own U → U ∈ S.file.header.activeTransactionIds.tids
  others : ∀ T, S.others c T → T ≠ 0 ∧ T ≤ s.committed.header.transactionId ∧ ¬ s.Own T ∧
    T ∉ s.deadIds (S.alone c) s.committed.header

theorem Ledger.acts {S : Sessions size Def} (hS : S.Ledger) {c : Nat}
    {s : Storage size Def} (hc : S.connections[c]? = some (some s)) :
    S.Acts c { s with committed := S.file } := by
  obtain ⟨hmedium, herror, hidle, hactive⟩ := hS.connections c s hc
  have hbetween : Storage.Between S.file { s with committed := S.file } := by
    refine ⟨hmedium, herror, hidle, fun hstate => ?_⟩
    obtain ⟨hdepth, hid, hlisted, hpages⟩ := hactive hstate
    exact ⟨hdepth, hid, hlisted, hpages⟩
  refine ⟨hbetween, hS.file, ?_, fun T hT => ?_⟩
  · rintro U ⟨hstate, rfl⟩
    exact (hbetween.active hstate).listed
  · have halone := not_alone hT
    obtain ⟨d, s', hne, hd, hstate, rfl⟩ := hT
    have hholds := (hS.connections d s' hd).active hstate
    refine ⟨hholds.id, hS.file.header.bound _ hholds.listed, ?_, ?_⟩
    · rintro ⟨hactive, heq⟩
      exact hS.apart d c s' s hne hd hc hstate hactive heq
    · rw [halone]
      simp [Storage.deadIds]

/-- The statement changed nothing that other connections or the ledger know of. -/
theorem Acts.kept {S : Sessions size Def} {c : Nat} {s t : Storage size Def}
    (hs : S.Acts c s) (hkeeps : s.Keeps t) (herror : t.isolationError = none)
    (heffect : Effect (fun T => S.others c T ∨ s.Own T) s.Own s.committed t.committed) :
    t.Between t.committed ∧ (t.transactionState = .active →
      s.transactionState = .active ∧ t.transactionId = s.transactionId) := by
  have hsame : t.transactionState = .active →
      s.transactionState = .active ∧ t.transactionId = s.transactionId := by
    intro hstate
    have hactive := hkeeps.state.symm.trans hstate
    exact ⟨hactive, hkeeps.id hactive⟩
  obtain ⟨hmedium, -, hidle, hactive⟩ := hs.between
  refine ⟨⟨hkeeps.medium.trans hmedium, herror, fun hstate => ?_, fun hstate => ?_⟩, hsame⟩
  · obtain ⟨hdepth, hpages⟩ := hidle (hkeeps.state.symm.trans hstate)
    refine ⟨hkeeps.depth.trans hdepth, List.eq_nil_iff_forall_not_mem.mpr fun n hn => ?_⟩
    simpa [hpages] using (hkeeps.pages n).mp hn
  · obtain ⟨hstate, hid⟩ := hsame hstate
    obtain ⟨hdepth, hzero, hlisted, hpages⟩ := hactive hstate
    refine ⟨hkeeps.depth.trans hdepth, hid ▸ hzero, ?_, fun n hn => ?_⟩
    · rw [hid]
      exact heffect.kept _ (.inr ⟨hstate, rfl⟩) hlisted
    · rw [hid] at hn
      exact (hkeeps.pages n).mpr (hpages n (heffect.others _ (.inr ⟨hstate, rfl⟩) n hn))

theorem Acts.ownOthers {S : Sessions size Def} {c : Nat} {s : Storage size Def}
    (hs : S.Acts c s) : ∀ T, S.others c T ∨ s.Own T →
      T ≠ 0 ∧ T ∉ s.deadIds (S.alone c) s.committed.header := by
  rintro T (hT | ⟨hstate, rfl⟩)
  · obtain ⟨hzero, -, -, hdead⟩ := hs.others T hT
    exact ⟨hzero, hdead⟩
  · refine ⟨(hs.between.active hstate).id, fun hdead => ?_⟩
    obtain ⟨-, -, -, hnot⟩ := Storage.mem_deadIds.mp hdead
    simp [hstate] at hnot

theorem Ledger.step {parser : SchemaParser Def} {S : Sessions size Def} (hS : S.Ledger)
    {e : SessionEvent Def} (hallowed : S.Allowed parser e) : (S.step parser e).Ledger := by
  cases e with
  | connect =>
      have hnew : ∀ (c : Nat) (s : Storage size Def),
          (S.connections ++ [some (.new .file)])[c]? = some (some s) →
          S.connections[c]? = some (some s) ∨ s = .new .file := by
        intro c s hc
        rw [List.getElem?_append] at hc
        split at hc
        · exact .inl hc
        · have hmem := List.mem_of_getElem? hc
          exact .inr (by simpa using hmem)
      refine ⟨hS.file, hS.committed, hS.rolledBack, fun c s hc => ?_,
        fun c d s s' hne hc hd hs hs' => ?_⟩
      · rcases hnew c s hc with hc | rfl
        · exact hS.connections c s hc
        · exact ⟨rfl, rfl, fun _ => ⟨rfl, rfl⟩, fun h => by cases h⟩
      · rcases hnew c s hc with hc | rfl
        · rcases hnew d s' hd with hd | rfl
          · exact hS.apart c d s s' hne hc hd hs hs'
          · cases hs'
        · cases hs
  | close c =>
      have hold : ∀ (d : Nat) (s : Storage size Def),
          (S.connections.set c none)[d]? = some (some s) →
          S.connections[d]? = some (some s) := by
        intro d s hd
        by_cases heq : c = d
        · subst heq
          rw [List.getElem?_set] at hd
          simp at hd
        · rwa [List.getElem?_set_ne heq] at hd
      exact ⟨hS.file, hS.committed, hS.rolledBack, fun d s hd => hS.connections d s (hold d s hd),
        fun d e s s' hne hd he => hS.apart d e s s' hne (hold d s hd) (hold e s' he)⟩
  | execute c stmt faults =>
      have hstep : ∀ s, S.connections[c]? = some (some s) → S.step parser
          (.execute c stmt faults) = S.run parser c stmt faults { s with committed := S.file } := by
        intro s hc
        simp only [Sessions.step, hc]
      rcases hc : S.connections[c]? with _ | _ | s
      · simpa only [Sessions.step, hc] using hS
      · simpa only [Sessions.step, hc] using hS
      rw [hstep s hc]
      obtain ⟨hlog, hsafe, hplace⟩ := hallowed s hc
      have hacts := hS.acts hc
      have hown : ∀ U, s.Own U → U ∈ S.file.header.activeTransactionIds.tids := hacts.own
      set s' : Storage size Def := { s with committed := S.file } with hs'
      unfold Sessions.run
      cases hrun : s'.execute parser (S.alone c) faults stmt with
      | mk t result =>
          have hsameFile : ∀ u : Storage size Def, u.committed = s'.committed →
              Effect (fun T => S.others c T ∨ s'.Own T) s'.Own s'.committed u.committed := by
            intro u hu
            rw [hu]
            exact .ofLacks hacts.file (le_refl _) hacts.file.header (fun _ _ h => h)
              (fun _ _ h => h) (fun _ _ h => h) fun _ _ _ h => h
          have hkept : ∀ C R, s'.Keeps t → t.isolationError = none →
              Effect (fun T => S.others c T ∨ s'.Own T) s'.Own s'.committed t.committed →
              (∀ T ∈ C, Gone t.committed T fun _ xid => xid = T) →
              (∀ T ∈ R, Gone t.committed T (Owns T)) →
              Ledger { file := t.committed, connections := S.connections.set c (some t),
                       committed := C ++ S.committed, rolledBack := R ++ S.rolledBack } := by
            intro C R hkeeps herror heffect hC hR
            obtain ⟨hbetween, hsame⟩ := hacts.kept hkeeps herror heffect
            exact hS.after hc (heffect.weaken fun _ => .inl) hown hbetween
              (fun h => .inl (hsame h)) hC hR
          cases result with
          | some e =>
              obtain ⟨hkeeps, herror, hfile⟩ := Storage.execute_failed hrun
                hacts.between.parked hacts.between.medium hacts.between.error hlog
              refine hkept [] [] hkeeps herror ?_ (by simp) (by simp)
              rcases hfile with hsame | hreplays
              · exact hsameFile t hsame
              · exact hreplays.effect hacts.between hacts.file hplace hacts.ownOthers
          | none =>
              rcases Storage.execute_ok hrun hacts.between.parked with
                ⟨hreads, hkeeps, hsame, herror⟩ | ⟨hwrites, hwrote⟩
              · refine hkept _ _ hkeeps herror (hsameFile t hsame) (fun T hT => ?_) fun T hT => ?_
                · cases stmt with
                  | read body => simp [committedBy, implicitIds, hsame] at hT
                  | _ => exact hreads.elim
                · cases stmt with
                  | read body => simp [rolledBackBy] at hT
                  | _ => exact hreads.elim
              · have hwrites := hwrote.writes hwrites hacts.between hacts.file hacts.others hsafe
                exact hS.after hc hwrites.effect hown hwrites.between hwrites.same
                  (fun T hT => hwrites.committedBy hacts.between hacts.file hT)
                  fun T hT => hwrites.rolledBackBy hacts.between hacts.file hT

end Sessions
end Vsql
