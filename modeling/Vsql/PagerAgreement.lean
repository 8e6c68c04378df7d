import Vsql.Foundation.Runs
import Vsql.Wal.Recovery

/-!
# Agreement of the two pagers

Both pagers are machines over the same operations, and what can be seen of them
is the result of each fetch, the number of pages and the root page.  A discard
forgets a new page or a new root page only in memory, and a page that starts
past the largest `int` cannot be read from a file; `pagers_agree` covers every
run without these.
-/

namespace Vsql

open Foundation ByteFile

variable {size : PageSize}

inductive PagerOp (size : PageSize) where
  | fetch (pageNumber : Nat)
  | store (pageNumber : Nat) (page : PageImage size)
  | append (page : PageImage size)
  | setRoot (pageNumber : Nat)
  | commit (header : Header)
  | discard

structure PagerOutput (size : PageSize) where
  fetched : Except Failure (Option (PageImage size))
  totalPages : Nat
  rootPage : Nat

/-! ## The two machines -/

/-- The write-ahead log and the checkpoint of a statement that does not fail. -/
def FilePager.commit (p : FilePager size) (header : Header) : FilePager size :=
  let edits := walStatementEdits { header with rootPage := p.rootPage } p
  { p with file := applyAll p.file edits }

def MemoryPager.stepOp (m : MemoryPager (PageImage size)) :
    PagerOp size → Except Failure (Option (PageImage size)) ×
      MemoryPager (PageImage size)
  | .fetch n => ((m.fetchPage n).map some, m)
  | .store n page => (.ok none, m.storePage n page)
  | .append page => (.ok none, (m.appendPage page).1)
  | .setRoot n => (.ok none, m.setRootPage n)
  | .commit _ =>
      match m.commit with
      | .ok committed => (.ok none, committed)
      | .error failure => (.error failure, m)
  | .discard => (.ok none, m.discard)

def FilePager.stepOp (f : FilePager size) :
    PagerOp size → Except Failure (Option (PageImage size)) × FilePager size
  | .fetch n =>
      match f.fetchPage n with
      | .ok (page, fetched) => (.ok (some page), fetched)
      | .error failure => (.error failure, f)
  | .store n page => (.ok none, f.storePage n page)
  | .append page => (.ok none, (f.appendPage page).1)
  | .setRoot n => (.ok none, f.setRootPage n)
  | .commit header => (.ok none, f.commit header)
  | .discard => (.ok none, f.discard)

def memoryMachine (size : PageSize) :
    Machine (MemoryPager (PageImage size)) (PagerOp size) (PagerOutput size) where
  step m op :=
    let (fetched, next) := m.stepOp op
    (⟨fetched, next.totalPages, next.rootPage⟩, next)

def fileMachine (size : PageSize) :
    Machine (FilePager size) (PagerOp size) (PagerOutput size) where
  step f op :=
    let (fetched, next) := f.stepOp op
    (⟨fetched, next.totalPages, next.rootPage⟩, next)

/-- The pages of a database, in memory. -/
def MemoryPager.ofPages (pages : List (PageImage size)) (rootPage : Nat) :
    MemoryPager (PageImage size) :=
  ⟨rootPage, pages, .empty, pages.length, rootPage⟩

def FilePager.ofPages (header : Header) (pages : List (PageImage size))
    (rootPage : Nat) (cacheSize : Int) : FilePager size :=
  .new (Database.file ⟨header, pages.map (·.bytes)⟩ : Bytes) rootPage cacheSize

/-- The operations that avoid the two differences.  A page is read from the
file if it is neither changed nor cached. -/
def PagerOk (m : MemoryPager (PageImage size)) (f : FilePager size) :
    PagerOp size → Prop
  | .fetch n =>
      n < m.total ∧ (n ∈ f.dirty.keys ∨ n ∈ f.cache.keys ∨
        headerSize + size * n < 2 ^ 31)
  | .discard => m.total = m.pages.length ∧ m.rootPage = m.savedRootPage
  | _ => True

/-! ## The relation between them -/

structure PagersRelated (m : MemoryPager (PageImage size))
    (f : FilePager size) : Prop where
  total_eq : f.totalPages = m.total
  root_eq : f.rootPage = m.rootPage
  pages_le : m.pages.length ≤ m.total
  -- Every page after the committed ones is a change of this statement.
  added : ∀ n, m.pages.length ≤ n → n < m.total → m.dirty.get? n ≠ none
  file_eq : ∃ header, f.file = Database.file ⟨header, m.pages.map (·.bytes)⟩
  dirty_new : ∀ n page, m.dirty.get? n = some page →
    f.dirty.get? n = some page.bytes
  -- What is left of earlier statements is as it was committed.
  dirty_old : ∀ n data, n < m.total → m.dirty.get? n = none →
    f.dirty.get? n = some data → (m.pages[n]?).map (·.bytes) = some data
  cache_eq : ∀ n data, f.dirty.get? n = none → f.cache.get? n = some data →
    (m.pages[n]?).map (·.bytes) = some data
  ring : 0 < f.cacheSize →
    f.cacheNext < f.cacheSize.toNat ∧ f.cacheOrder.length ≤ f.cacheSize.toNat

namespace PagersRelated

theorem initial (header : Header) (pages : List (PageImage size))
    (rootPage : Nat) (cacheSize : Int) :
    PagersRelated (.ofPages pages rootPage)
      (.ofPages header pages rootPage cacheSize) where
  total_eq := by simp [MemoryPager.ofPages, FilePager.ofPages]
  root_eq := rfl
  pages_le := Nat.le_refl _
  added n hle hlt := absurd hlt (Nat.not_lt.mpr hle)
  file_eq := ⟨header, rfl⟩
  dirty_new _ _ h := by cases h
  dirty_old _ _ _ _ h := by cases h
  cache_eq _ _ _ h := by cases h
  ring h := by
    simp only [FilePager.ofPages, FilePager.new] at h ⊢
    exact ⟨by omega, Nat.zero_le _⟩

variable {m : MemoryPager (PageImage size)} {f : FilePager size}

/-- The page that memory fetches, as the file pager has to find it. -/
theorem fetch_memory (h : PagersRelated m f) {n : Nat} (hn : n < m.total) :
    ∃ page, m.fetchPage n = .ok page ∧
      (f.dirty.get? n = some page.bytes ∨
        f.dirty.get? n = none ∧ m.pages[n]? = some page) := by
  cases hdirty : m.dirty.get? n with
  | some page =>
      exact ⟨page, by simp [MemoryPager.fetchPage, hdirty],
        .inl (h.dirty_new n page hdirty)⟩
  | none =>
      have hlt : n < m.pages.length := by
        by_contra hnot
        exact h.added n (Nat.le_of_not_lt hnot) hn hdirty
      refine ⟨m.pages[n], by simp [MemoryPager.fetchPage, hdirty, hlt], ?_⟩
      cases hfile : f.dirty.get? n with
      | none => exact .inr ⟨rfl, by simp [hlt]⟩
      | some data =>
          have hdata := h.dirty_old n data hn hdirty hfile
          simp only [List.getElem?_eq_getElem hlt, Option.map_some,
            Option.some.injEq] at hdata
          exact .inl (by rw [hdata])

theorem readBlock_page (header : Header) (pages : List (PageImage size))
    {n : Nat} {page : PageImage size} (hpage : pages[n]? = some page)
    (hoffset : headerSize + size * n < 2 ^ 31) :
    FilePager.readBlock
      (Database.file (⟨header, pages.map (·.bytes)⟩ : Database size))
      (toInt32 (headerSize + size * n)) = .ok page.bytes := by
  have hn : n < pages.length := (List.getElem?_eq_some_iff.mp hpage).1
  have hlast : size.val * (n + 1) ≤ size.val * pages.length :=
    Nat.mul_le_mul_left _ hn
  have hpos : 0 < size.val := Nat.lt_of_le_of_lt (Nat.zero_le _) size.property.1
  rw [Nat.mul_succ] at hlast
  have hlength : (Database.file
      (⟨header, pages.map (·.bytes)⟩ : Database size)).length =
        headerSize + size * pages.length := by
    simp [Database.length_file]
  have hseek : ¬((headerSize + size.val * n : Nat) : Int) < 0 := by omega
  have hend : ¬(Database.file
      (⟨header, pages.map (·.bytes)⟩ : Database size)).length ≤
        headerSize + size * n := by
    omega
  simp only [FilePager.readBlock, toInt32_of_lt hoffset, if_neg hseek,
    Int.toNat_natCast, if_neg hend, Except.ok.injEq]
  refine Subtype.ext (ext_byteAt ?_ fun i hi => ?_)
  · rw [length_resize, page.bytes.property]
  · rw [length_resize] at hi
    have hdrop : ∀ file : Bytes, byteAt (file.drop (headerSize + size * n)) i =
        byteAt file (headerSize + size * n + i) := by
      intro file
      simp [byteAt, List.getD_eq_getElem?_getD]
    rw [byteAt_resize, if_pos hi, hdrop, Database.byteAt_file_page _ _ hi]
    simp [hpage]

/-! ## Fetching -/

theorem cachePage (h : PagersRelated m f) {n : Nat} {page : PageImage size}
    (hpage : m.pages[n]? = some page) :
    ∃ cached, f.cachePage n page.bytes = .ok cached ∧ PagersRelated m cached := by
  unfold FilePager.cachePage
  by_cases hsize : f.cacheSize ≤ 0
  · exact ⟨f, if_pos hsize, h⟩
  rw [if_neg hsize]
  obtain ⟨hnext, horder⟩ := h.ring (by omega)
  by_cases hfull : (f.cacheOrder.length : Int) < f.cacheSize
  · rw [if_pos hfull]
    refine ⟨_, rfl, { h with
      cache_eq := fun j data hdirty hcache => ?_
      ring := fun _ => ⟨hnext, by simp; omega⟩ }⟩
    rw [OrderedMap.get?_set] at hcache
    split at hcache
    · next heq =>
        cases hcache
        simp [heq, hpage]
    · exact h.cache_eq j data hdirty hcache
  · have hin : f.cacheNext < f.cacheOrder.length := by omega
    rw [if_neg hfull, List.getElem?_eq_getElem hin]
    refine ⟨_, rfl, { h with
      cache_eq := fun j data hdirty hcache => ?_
      ring := fun _ => ⟨Nat.mod_lt _ (by omega), by simpa using horder⟩ }⟩
    rw [OrderedMap.get?_set, OrderedMap.get?_erase] at hcache
    split at hcache
    · next heq =>
        cases hcache
        simp [heq, hpage]
    · split at hcache
      · cases hcache
      · exact h.cache_eq j data hdirty hcache

theorem fetch (h : PagersRelated m f) {n : Nat} (hok : PagerOk m f (.fetch n)) :
    ∃ page next, m.fetchPage n = .ok page ∧
      f.fetchPage n = .ok (page, next) ∧ PagersRelated m next := by
  obtain ⟨hn, hreadable⟩ := hok
  obtain ⟨page, hfetch, hdirty | ⟨hdirty, hpage⟩⟩ := h.fetch_memory hn
  · refine ⟨page, f, hfetch, ?_, h⟩
    simp [FilePager.fetchPage, hdirty]
  cases hcache : f.cache.get? n with
  | some data =>
      have hdata := h.cache_eq n data hdirty hcache
      rw [hpage, Option.map_some, Option.some.injEq] at hdata
      refine ⟨page, f, hfetch, ?_, h⟩
      simp [FilePager.fetchPage, hdirty, hcache, ← hdata]
  | none =>
      have hoffset : headerSize + size.val * n < 2 ^ 31 := by
        rcases hreadable with hkey | hkey | hoffset
        · exact absurd hkey (f.dirty.get?_eq_none.mp hdirty)
        · exact absurd hkey (f.cache.get?_eq_none.mp hcache)
        · exact hoffset
      obtain ⟨header, hfile⟩ := h.file_eq
      obtain ⟨cached, hcached, hrelated⟩ := h.cachePage hpage
      refine ⟨page, cached, hfetch, ?_, hrelated⟩
      have hread := readBlock_page header m.pages hpage hoffset
      rw [← hfile] at hread
      simp [FilePager.fetchPage, hdirty, hcache, hread, hcached, bind,
        Except.bind]

/-! ## Changing pages -/

theorem store (h : PagersRelated m f) (n : Nat) (page : PageImage size) :
    PagersRelated (m.storePage n page) (f.storePage n page) := by
  refine { h with added := ?_, dirty_new := ?_, dirty_old := ?_, cache_eq := ?_ }
  · intro j hle hlt
    simp only [MemoryPager.storePage, OrderedMap.get?_set]
    split
    · simp
    · exact h.added j hle hlt
  · intro j old hold
    simp only [MemoryPager.storePage, FilePager.storePage,
      OrderedMap.get?_set] at hold ⊢
    split
    · next heq =>
        rw [if_pos heq] at hold
        cases hold
        rfl
    · next hne =>
        rw [if_neg hne] at hold
        exact h.dirty_new j old hold
  · intro j data hlt hmemory hfile
    simp only [MemoryPager.storePage, FilePager.storePage,
      OrderedMap.get?_set] at hmemory hfile
    split at hmemory
    · cases hmemory
    · next hne =>
        rw [if_neg hne] at hfile
        exact h.dirty_old j data hlt hmemory hfile
  · intro j data hdirty hcache
    simp only [FilePager.storePage, OrderedMap.get?_set] at hdirty
    split at hdirty
    · cases hdirty
    · exact h.cache_eq j data hdirty hcache

theorem append (h : PagersRelated m f) (page : PageImage size) :
    PagersRelated (m.appendPage page).1 (f.appendPage page).1 := by
  have hstore := h.store m.total page
  refine { hstore with
    total_eq := ?_, pages_le := ?_, added := ?_, dirty_new := ?_,
    dirty_old := ?_, cache_eq := ?_ }
  · simp [FilePager.appendPage, MemoryPager.appendPage, h.total_eq]
  · simp only [MemoryPager.appendPage]
    exact Nat.le_succ_of_le h.pages_le
  · intro j hle hlt
    simp only [MemoryPager.appendPage, OrderedMap.get?_set] at hlt ⊢
    split
    · simp
    · exact h.added j hle (by omega)
  · rw [FilePager.appendPage, h.total_eq]
    exact hstore.dirty_new
  · rw [FilePager.appendPage, h.total_eq]
    intro j data hlt hmemory hfile
    simp only [MemoryPager.appendPage] at hlt
    refine hstore.dirty_old j data ?_ hmemory hfile
    simp only [MemoryPager.storePage]
    by_contra hnot
    have heq : j = m.total := by omega
    simp [MemoryPager.appendPage, heq] at hmemory
  · rw [FilePager.appendPage, h.total_eq]
    exact hstore.cache_eq

theorem setRoot (h : PagersRelated m f) (n : Nat) :
    PagersRelated (m.setRootPage n) (f.setRootPage n) :=
  { h with root_eq := rfl }

theorem discard (h : PagersRelated m f) (hok : PagerOk m f .discard) :
    PagersRelated m.discard f.discard where
  total_eq := by
    rw [← show m.total = m.discard.total from hok.1]
    exact h.total_eq
  root_eq := by
    rw [← show m.rootPage = m.discard.rootPage from hok.2]
    exact h.root_eq
  pages_le := Nat.le_refl _
  added n hle hlt := absurd hlt (Nat.not_lt.mpr hle)
  file_eq := h.file_eq
  dirty_new _ _ h := by cases h
  dirty_old _ _ _ _ h := by cases h
  cache_eq _ _ _ h := by cases h
  ring hsize := ⟨by simp only [FilePager.discard] at hsize ⊢; omega,
    Nat.zero_le _⟩

/-! ## Committing -/

private theorem mapM_ok {α β : Type} {g : α → Except Failure β} {l : List α}
    (h : ∀ a ∈ l, ∃ b, g a = .ok b) :
    ∃ r, l.mapM g = .ok r ∧ r.map .ok = l.map g := by
  induction l with
  | nil => exact ⟨[], rfl, rfl⟩
  | cons a l ih =>
      obtain ⟨b, hb⟩ := h a (by simp)
      obtain ⟨r, hr, hmap⟩ := ih fun c hc => h c (List.mem_cons_of_mem _ hc)
      refine ⟨b :: r, ?_, by simp [hb, hmap]⟩
      simp [List.mapM_cons, hb, hr, bind, Except.bind, pure, Except.pure]

theorem commit (h : PagersRelated m f) (header : Header) :
    ∃ committed, m.commit = .ok committed ∧
      PagersRelated committed (f.commit header) := by
  obtain ⟨pages, hpages, hfetched⟩ := mapM_ok (g := m.fetchPage)
    (l := List.range m.total) fun n hn => by
      obtain ⟨page, hpage, -⟩ := h.fetch_memory (List.mem_range.mp hn)
      exact ⟨page, hpage⟩
  have hlength : pages.length = m.total := by
    simpa using congrArg List.length hfetched
  have hpage : ∀ n, n < m.total → ∃ page, pages[n]? = some page ∧
      (f.dirty.get? n = some page.bytes ∨
        f.dirty.get? n = none ∧ m.pages[n]? = some page) := by
    intro n hn
    obtain ⟨page, hfetch, hfile⟩ := h.fetch_memory hn
    have hn' : n < pages.length := by omega
    have hget := congrArg (·[n]?) hfetched
    simp only [List.getElem?_map, List.getElem?_range hn, Option.map_some,
      hfetch, List.getElem?_eq_getElem hn', Option.some.injEq,
      Except.ok.injEq] at hget
    exact ⟨page, by rw [List.getElem?_eq_getElem hn', hget], hfile⟩
  obtain ⟨old, hold⟩ := h.file_eq
  refine ⟨⟨m.rootPage, pages, .empty, m.total, m.rootPage⟩, ?_, ?_⟩
  · simp [MemoryPager.commit, hpages, bind, Except.bind]
  · refine {
      total_eq := h.total_eq
      root_eq := h.root_eq
      pages_le := by simp [hlength]
      added := fun n hle hlt => by simp only at hle hlt; omega
      file_eq := ⟨{ header with rootPage := f.rootPage }, ?_⟩
      dirty_new := fun _ _ h => by cases h
      dirty_old := fun n data hn _ hfile => ?_
      cache_eq := fun n data hfile hcache => ?_
      ring := h.ring }
    · simp only [FilePager.commit]
      rw [hold, applyAll_walStatementEdits, Database.commit]
      congr 2
      refine List.ext_getElem? fun n => ?_
      rw [h.total_eq]
      by_cases hn : n < m.total
      · obtain ⟨page, hget, hdirty | ⟨hdirty, hcommitted⟩⟩ := hpage n hn
        · simp [hn, hget, hdirty]
        · simp [hn, hget, hdirty, hcommitted]
      · have hn' : pages.length ≤ n := by omega
        simp [hn']
        omega
    · obtain ⟨page, hget, hdirty | ⟨hdirty, -⟩⟩ := hpage n hn
      · rw [show (f.commit header).dirty.get? n = f.dirty.get? n from rfl,
          hdirty] at hfile
        simpa [hget] using hfile
      · rw [show (f.commit header).dirty.get? n = f.dirty.get? n from rfl,
          hdirty] at hfile
        cases hfile
    · have hcommitted := h.cache_eq n data hfile hcache
      obtain ⟨page, hold, hbytes⟩ := Option.map_eq_some_iff.mp hcommitted
      have hn : n < m.total :=
        Nat.lt_of_lt_of_le (List.getElem?_eq_some_iff.mp hold).1 h.pages_le
      obtain ⟨same, hget, hdirty | ⟨-, hsame⟩⟩ := hpage n hn
      · rw [show (f.commit header).dirty.get? n = f.dirty.get? n from rfl,
          hdirty] at hfile
        cases hfile
      · rw [hold] at hsame
        cases hsame
        simp [hget, hbytes]

end PagersRelated

/-! ## Every run -/

theorem pagers_step (m : MemoryPager (PageImage size)) (f : FilePager size)
    (op : PagerOp size) (h : PagersRelated m f) (hok : PagerOk m f op) :
    ((memoryMachine size).step m op).1 = ((fileMachine size).step f op).1 ∧
      PagersRelated ((memoryMachine size).step m op).2
        ((fileMachine size).step f op).2 := by
  have hseen : ∀ {m' : MemoryPager (PageImage size)} {f' : FilePager size}
      (fetched : Except Failure (Option (PageImage size))),
      PagersRelated m' f' →
      PagerOutput.mk fetched m'.totalPages m'.rootPage =
        PagerOutput.mk fetched f'.totalPages f'.rootPage := by
    intro m' f' fetched h'
    rw [h'.root_eq, h'.total_eq]
    rfl
  cases op with
  | fetch n =>
      obtain ⟨page, next, hmemory, hfile, hnext⟩ := h.fetch hok
      simp only [memoryMachine, fileMachine, MemoryPager.stepOp,
        FilePager.stepOp, hmemory, hfile]
      exact ⟨hseen _ hnext, hnext⟩
  | store n page => exact ⟨hseen _ (h.store n page), h.store n page⟩
  | append page => exact ⟨hseen _ (h.append page), h.append page⟩
  | setRoot n => exact ⟨hseen _ (h.setRoot n), h.setRoot n⟩
  | commit header =>
      obtain ⟨committed, hcommit, hnext⟩ := h.commit header
      simp only [memoryMachine, fileMachine, MemoryPager.stepOp,
        FilePager.stepOp, hcommit]
      exact ⟨hseen _ hnext, hnext⟩
  | discard => exact ⟨hseen _ (h.discard hok), h.discard hok⟩

/-- The two pagers show the same in every run of allowed operations, and after
a discard the file pager is back at the last commit. -/
theorem pagers_agree (header : Header) (pages : List (PageImage size))
    (rootPage : Nat) (cacheSize : Int) (ops : List (PagerOp size))
    (hops : Machine.Allowed (memoryMachine size) (fileMachine size) PagerOk
      (.ofPages pages rootPage) (.ofPages header pages rootPage cacheSize)
      ops) :
    let memory := MemoryPager.ofPages pages rootPage
    let file := FilePager.ofPages header pages rootPage cacheSize
    let memoryEnd := (memoryMachine size).after memory ops
    let fileEnd := (fileMachine size).after file ops
    (memoryMachine size).outputs memory ops =
        (fileMachine size).outputs file ops ∧
      (PagerOk memoryEnd fileEnd .discard →
        fileEnd.discard.totalPages = memoryEnd.pages.length ∧
        fileEnd.discard.rootPage = memoryEnd.savedRootPage ∧
        ∀ n page, memoryEnd.pages[n]? = some page →
          headerSize + size * n < 2 ^ 31 →
          ∃ next, fileEnd.discard.fetchPage n = .ok (page, next)) := by
  intro memory file memoryEnd fileEnd
  have hinitial := PagersRelated.initial header pages rootPage cacheSize
  obtain ⟨houtputs, hrelated⟩ := Machine.simulation pagers_step hinitial hops
  refine ⟨houtputs, fun hdiscard => ?_⟩
  have hend := PagersRelated.discard hrelated hdiscard
  refine ⟨hend.total_eq, hend.root_eq, fun n page hpage hoffset => ?_⟩
  have hn : n < memoryEnd.discard.total :=
    (List.getElem?_eq_some_iff.mp hpage).1
  obtain ⟨fetched, next, hmemory, hfile, -⟩ :=
    hend.fetch ⟨hn, .inr (.inr hoffset)⟩
  have hsame : memoryEnd.discard.fetchPage n = .ok page := by
    simp [MemoryPager.fetchPage, MemoryPager.discard, hpage]
  rw [hsame] at hmemory
  cases hmemory
  exact ⟨next, hfile⟩

/-- A page that holds no objects. -/
def PageImage.empty : PageImage .least := ⟨0, 16, [0], rfl⟩

/-- A page is added and read again, and a change of it is read and then discarded. -/
def appendAndFetch : List (PagerOp .least) :=
  [.append .empty, .setRoot 0, .commit (.new .least), .fetch 0, .store 0 ⟨0, 16, [7], rfl⟩,
    .fetch 0, .discard, .fetch 0]

theorem pagers_agree_appendAndFetch :
    (memoryMachine .least).outputs (.ofPages [] 0) appendAndFetch =
      (fileMachine .least).outputs (.ofPages (.new .least) [] 0 2) appendAndFetch := by
  have hoffset : headerSize + (PageSize.least : Nat) * 0 < 2 ^ 31 := by decide
  exact (pagers_agree (.new .least) [] 0 2 appendAndFetch
    ⟨trivial, trivial, trivial, ⟨by decide, .inr (.inr hoffset)⟩, trivial,
      ⟨by decide, .inr (.inr hoffset)⟩, ⟨rfl, rfl⟩, ⟨by decide, .inr (.inr hoffset)⟩, trivial⟩).1

/-- A statement that adds a page and is discarded leaves the page count of a
file one too large. -/
theorem pagers_differ_append_discard :
    (memoryMachine .least).outputs (.ofPages [] 0)
        [.append .empty, .discard] ≠
      (fileMachine .least).outputs (.ofPages (.new .least) [] 0 0)
        [.append .empty, .discard] := by
  intro hsame
  have htotals := congrArg (List.map PagerOutput.totalPages) hsame
  simp [Machine.outputs, memoryMachine, fileMachine, MemoryPager.stepOp,
    FilePager.stepOp, MemoryPager.appendPage, FilePager.appendPage,
    MemoryPager.discard, FilePager.discard, MemoryPager.totalPages,
    MemoryPager.ofPages, FilePager.ofPages] at htotals

end Vsql
