import Rmdb.Storage.PoolRuns
import Mathlib.Algebra.Group.Pi.Lemmas
import Mathlib.Algebra.Order.Group.Int

/-! How often each page is pinned, and what the calls of the pool do to it, also those that throw. -/
namespace Rmdb.BufferPoolManager

open Program

variable {n : ℕ} {δ : Type} {io : DiskIo δ} {pool pool' claimed : BufferPoolManager n δ}
  {f : Fin n} {id : PageId} {fd : ℤ}

/-- A page that is not in the pool is not pinned. -/
def pins (pool : BufferPoolManager n δ) (id : PageId) : ℤ :=
  match pool.pageTable id with
  | some f => (pool.pages f).pinCount
  | none => 0

/-- A frame that may be taken is not pinned, the page table is what the frames say, and no page behind the end of
its file is in the pool. A frame may be in neither list and not pinned. -/
structure Steady (pool : BufferPoolManager n δ) : Prop where
  not_both : ∀ f, ¬(f ∈ pool.freeList ∧ f ∈ pool.replacer)
  idle : ∀ f, f ∈ pool.freeList ∨ f ∈ pool.replacer → (pool.pages f).pinCount = 0
  notFree : ∀ id f, pool.pageTable id = some f → f ∉ pool.freeList
  mapped_iff : ∀ id f, pool.pageTable id = some f ↔ (pool.pages f).id = id ∧ id.pageNo ≠ invalidPageNo
  nodup : pool.freeList.Nodup
  pinCount_nonneg : ∀ f, 0 ≤ (pool.pages f).pinCount
  numbered : ∀ fd, 0 ≤ pool.fd2pageno fd
  beyond : ∀ id : PageId, pool.fd2pageno id.fd ≤ id.pageNo → pool.pageTable id = none

theorem start_steady (fds : Fin n → ℤ) (disk : δ) {fd2pageno : ℤ → ℤ} (hnumbered : ∀ fd, 0 ≤ fd2pageno fd) :
    Steady (start fds disk fd2pageno) where
  not_both _ hboth := List.not_mem_nil hboth.2
  idle _ _ := rfl
  notFree _ _ := nofun
  mapped_iff _ _ := iff_of_false nofun fun h => h.2 (h.1 ▸ rfl)
  nodup := List.nodup_finRange n
  pinCount_nonneg _ := le_refl 0
  numbered := hnumbered
  beyond _ _ := rfl

theorem pins_eq (hmapped : pool.pageTable id = some f) : pool.pins id = (pool.pages f).pinCount := by
  rw [pins, hmapped]

theorem pins_eq_zero (hmapped : pool.pageTable id = none) : pool.pins id = 0 := by
  rw [pins, hmapped]

theorem Steady.pins_nonneg (h : Steady pool) (id : PageId) : 0 ≤ pool.pins id := by
  unfold pins
  split
  · exact h.pinCount_nonneg _
  · exact le_refl 0

theorem pins_congr (htable : pool'.pageTable = pool.pageTable)
    (hpin : ∀ f, (pool'.pages f).pinCount = (pool.pages f).pinCount) : pool'.pins = pool.pins := by
  funext id
  unfold pins
  rw [htable]
  split
  · exact hpin _
  · rfl

/-- One more or one less of a page. -/
theorem update_add_single {α : Type} [DecidableEq α] (p : α → ℤ) (a : α) (z : ℤ) :
    Function.update p a (p a + z) = p + Pi.single a z := by
  funext b
  by_cases hb : b = a
  · rw [hb, Function.update_self, Pi.add_apply, Pi.single_eq_same]
  · rw [Function.update_of_ne hb, Pi.add_apply, Pi.single_eq_of_ne hb, Int.add_zero]

/-- A page is pinned and released. -/
theorem single_add_neg (id : PageId) : (Pi.single id 1 + Pi.single id (-1) : PageId → ℤ) = 0 := by
  rw [← Pi.single_add]
  exact Pi.single_zero id

/-- The lists and the pages but for their data. -/
theorem Steady.same (h : Steady pool) (hsame : Same pool pool') (hnum : pool'.fd2pageno = pool.fd2pageno) :
    Steady pool' ∧ pool'.pins = pool.pins := by
  obtain ⟨hfree, hreplacer, htable, hid, hpin⟩ := hsame
  refine ⟨⟨?_, ?_, ?_, ?_, hfree ▸ h.nodup, ?_, hnum ▸ h.numbered, ?_⟩, pins_congr htable hpin⟩
  · intro f
    rw [hfree, hreplacer]
    exact h.not_both f
  · intro f
    rw [hfree, hreplacer, hpin]
    exact h.idle f
  · rw [htable, hfree]
    exact h.notFree
  · intro id f
    rw [htable, hid]
    exact h.mapped_iff id f
  · intro f
    rw [hpin]
    exact h.pinCount_nonneg f
  · rw [hnum, htable]
    exact h.beyond

theorem Steady.claims (h : Steady pool) (hvictim : pool.victimOf = some (f, claimed)) : pool.Claims f claimed :=
  victimOf_claims h.not_both h.idle h.nodup hvictim

/-- A frame was taken, and its page stays. -/
theorem Claims.kept (h : pool.Claims f claimed) (hs : Steady pool) (hfree : pool'.freeList = claimed.freeList)
    (hreplacer : pool'.replacer = claimed.replacer) (hpages : pool'.pages = claimed.pages)
    (htable : pool'.pageTable = claimed.pageTable) (hnum : ∀ fd, pool.fd2pageno fd ≤ pool'.fd2pageno fd) :
    Steady pool' ∧ pool'.pins = pool.pins := by
  rw [h.pages] at hpages
  rw [h.pageTable] at htable
  refine ⟨⟨?_, ?_, ?_, ?_, hfree ▸ h.nodup, ?_, ?_, ?_⟩, pins_congr htable fun g => by rw [hpages]⟩
  · intro g
    rw [hfree, hreplacer, h.free, h.replacer]
    exact fun hboth => hs.not_both g ⟨hboth.1.2, hboth.2.2⟩
  · intro g hg
    rw [hpages]
    rw [hfree, hreplacer, h.free, h.replacer] at hg
    exact hs.idle g (hg.imp And.right And.right)
  · intro id g hg
    rw [hfree, h.free]
    exact fun hmem => hs.notFree id g (htable ▸ hg) hmem.2
  · rw [hpages, htable]
    exact hs.mapped_iff
  · rw [hpages]
    exact hs.pinCount_nonneg
  · exact fun fd => le_trans (hs.numbered fd) (hnum fd)
  · intro id hle
    rw [htable]
    exact hs.beyond id (le_trans (hnum id.fd) hle)

/-- A frame was taken for a page that was not in the pool. -/
theorem Claims.fresh (h : pool.Claims f claimed) (hs : Steady pool) (page : Page) (hfresh : pool.pageTable id = none)
    (hvalid : id.pageNo ≠ invalidPageNo) (hin : id.pageNo < pool'.fd2pageno id.fd)
    (hnum : ∀ fd, pool.fd2pageno fd ≤ pool'.fd2pageno fd) (hid : page.id = id) (hpin : 0 ≤ page.pinCount)
    (hfree : pool'.freeList = claimed.freeList) (hreplacer : ∀ g, g ∈ pool'.replacer ↔ g ∈ claimed.replacer)
    (hpages : pool'.pages = Function.update claimed.pages f page)
    (htable : pool'.pageTable =
      Function.update (Function.update claimed.pageTable (claimed.pages f).id none) id (some f)) :
    Steady pool' ∧ pool'.pins = Function.update pool.pins id page.pinCount := by
  rw [h.pages] at hpages htable
  rw [h.pageTable] at htable
  have hself : pool'.pages f = page := by rw [hpages, Function.update_self]
  have hother : ∀ g, g ≠ f → pool'.pages g = pool.pages g := by
    intro g hg
    rw [hpages, Function.update_of_ne hg]
  have hmapped : pool'.pageTable id = some f := by rw [htable, Function.update_self]
  have hold : ∀ id', id' ≠ id → pool'.pageTable id' = if id' = (pool.pages f).id then none else pool.pageTable id' := by
    intro id' hne
    rw [htable, Function.update_of_ne hne, Function.update_apply]
  refine ⟨⟨?_, ?_, ?_, ?_, hfree ▸ h.nodup, ?_, ?_, ?_⟩, ?_⟩
  · intro g
    rw [hfree, hreplacer, h.free, h.replacer]
    exact fun hboth => hs.not_both g ⟨hboth.1.2, hboth.2.2⟩
  · intro g hg
    rw [hfree, hreplacer, h.free, h.replacer, ← and_or_left] at hg
    rw [hother g hg.1]
    exact hs.idle g hg.2
  · intro id' g hg
    rw [hfree, h.free]
    intro ⟨hne, hmem⟩
    by_cases heq : id' = id
    · rw [heq, hmapped] at hg
      exact hne (Option.some.inj hg).symm
    · rw [hold id' heq] at hg
      split at hg
      · cases hg
      · exact hs.notFree id' g hg hmem
  · intro id' g
    by_cases hg : g = f
    · rw [hg, hself, hid]
      by_cases heq : id' = id
      · rw [heq, hmapped]
        exact iff_of_true rfl ⟨rfl, hvalid⟩
      · rw [hold id' heq]
        apply iff_of_false
        · intro hsome
          split at hsome
          · cases hsome
          · rename_i hne
            exact hne ((hs.mapped_iff id' f).mp hsome).1.symm
        · exact fun hand => heq hand.1.symm
    · rw [hother g hg, ← hs.mapped_iff]
      by_cases heq : id' = id
      · rw [heq, hmapped, hfresh]
        exact iff_of_false (fun hsome => hg (Option.some.inj hsome).symm) nofun
      · rw [hold id' heq]
        split
        · rename_i hsame
          refine iff_of_false nofun fun hsome => hg ?_
          -- two frames with the page of one
          have hvalid' := ((hs.mapped_iff id' g).mp hsome).2
          have hf := (hs.mapped_iff id' f).mpr ⟨hsame.symm, hvalid'⟩
          exact Option.some.inj (hsome.symm.trans hf)
        · rfl
  · intro g
    by_cases hg : g = f
    · rw [hg, hself]
      exact hpin
    · rw [hother g hg]
      exact hs.pinCount_nonneg g
  · exact fun fd => le_trans (hs.numbered fd) (hnum fd)
  · intro id' hle
    have hne : id' ≠ id := by
      intro heq
      rw [heq] at hle
      omega
    rw [hold id' hne, hs.beyond id' (le_trans (hnum id'.fd) hle), ite_self]
  · funext id'
    by_cases heq : id' = id
    · rw [heq, Function.update_self, pins_eq hmapped, hself]
    · rw [Function.update_of_ne heq]
      unfold pins
      rw [hold id' heq]
      split
      · rename_i g hsome
        split at hsome
        · cases hsome
        · rename_i hne
          have hg : g ≠ f := by
            intro hgf
            exact hne ((hs.mapped_iff id' f).mp (hgf ▸ hsome)).1.symm
          rw [hsome, hother g hg]
      · rename_i hnone
        split at hnone
        · rename_i hsame
          cases hmap : pool.pageTable id' with
          | none => rfl
          | some g =>
            have hvalid' := ((hs.mapped_iff id' g).mp hmap).2
            have hf := (hs.mapped_iff id' f).mpr ⟨hsame.symm, hvalid'⟩
            obtain rfl := Option.some.inj (hmap.symm.trans hf)
            exact h.unpinned.symm
        · rw [hnone]

/-- A page in the pool is pinned more or less often. -/
theorem Steady.repin (h : Steady pool) (hmapped : pool.pageTable id = some f) (page : Page) (hid : page.id = (pool.pages f).id)
    (hpin : 0 ≤ page.pinCount) (hpages : pool'.pages = Function.update pool.pages f page)
    (hfree : pool'.freeList = pool.freeList) (htable : pool'.pageTable = pool.pageTable)
    (hreplacer : ∀ g, g ∈ pool'.replacer → g ≠ f ∧ g ∈ pool.replacer ∨ g = f ∧ page.pinCount = 0)
    (hnum : pool'.fd2pageno = pool.fd2pageno) :
    Steady pool' ∧ pool'.pins = Function.update pool.pins id page.pinCount := by
  have hself : pool'.pages f = page := by rw [hpages, Function.update_self]
  have hother : ∀ g, g ≠ f → pool'.pages g = pool.pages g := by
    intro g hg
    rw [hpages, Function.update_of_ne hg]
  refine ⟨⟨?_, ?_, ?_, ?_, hfree ▸ h.nodup, ?_, hnum ▸ h.numbered, ?_⟩, ?_⟩
  · intro g ⟨hg, hmem⟩
    rw [hfree] at hg
    rcases hreplacer g hmem with ⟨_, hold⟩ | ⟨rfl, _⟩
    · exact h.not_both g ⟨hg, hold⟩
    · exact h.notFree id g hmapped hg
  · intro g hg
    rw [hfree] at hg
    by_cases heq : g = f
    · rw [heq, hself]
      rw [heq] at hg
      rcases hg with hg | hg
      · exact absurd hg (h.notFree id f hmapped)
      · rcases hreplacer f hg with ⟨hne, _⟩ | ⟨_, hzero⟩
        · exact absurd rfl hne
        · exact hzero
    · rw [hother g heq]
      apply h.idle g
      exact hg.imp_right fun hmem => ((hreplacer g hmem).resolve_right fun hand => heq hand.1).2
  · rw [htable, hfree]
    exact h.notFree
  · intro id' g
    rw [htable, h.mapped_iff]
    by_cases heq : g = f
    · rw [heq, hself, hid]
    · rw [hother g heq]
  · intro g
    by_cases heq : g = f
    · rw [heq, hself]
      exact hpin
    · rw [hother g heq]
      exact h.pinCount_nonneg g
  · rw [hnum, htable]
    exact h.beyond
  · funext id'
    by_cases heq : id' = id
    · rw [heq, Function.update_self, pins_eq (htable ▸ hmapped), hself]
    · rw [Function.update_of_ne heq]
      unfold pins
      rw [htable]
      split
      · rename_i g hsome
        have hg : g ≠ f := by
          intro hgf
          have hid' := ((h.mapped_iff id' g).mp hsome).1
          rw [hgf, ((h.mapped_iff id f).mp hmapped).1] at hid'
          exact heq hid'.symm
        rw [hother g hg]
      · rfl

/-! ### The calls -/

/-- What `fetch_page` would find in a page, and the disk behind the call; `none` where it gives no page. -/
def fetched (io : DiskIo δ) (pool : BufferPoolManager n δ) (id : PageId) : Option (Bytes × δ) :=
  match pool.pageTable id with
  | some f => some ((pool.pages f).data, pool.disk)
  | none => pool.victimOf.bind fun (f, claimed) => (claimed.writeBack io f).bind (io.readPage id)

/-- The disk on which `new_page` would leave the pool; `none` where it gives no page. -/
def freed (io : DiskIo δ) (pool : BufferPoolManager n δ) : Option δ :=
  pool.victimOf.bind fun (f, claimed) => claimed.writeBack io f

/-- A page is in a frame and pinned once more. -/
structure Pinned (pool : BufferPoolManager n δ) (f : Fin n) (id : PageId) (data : Bytes) (disk : δ)
    (pool' : BufferPoolManager n δ) : Prop where
  steady : Steady pool'
  pins : pool'.pins = pool.pins + Pi.single id 1
  mapped : pool'.pageTable id = some f
  data : (pool'.pages f).data = data
  disk : pool'.disk = disk
  numbers : ∀ fd, pool.fd2pageno fd ≤ pool'.fd2pageno fd

/-- No page is pinned more or less often. -/
structure Balanced (pool pool' : BufferPoolManager n δ) : Prop where
  steady : Steady pool'
  pins : pool'.pins = pool.pins
  numbers : ∀ fd, pool.fd2pageno fd ≤ pool'.fd2pageno fd

/-- A frame's page after `update_page`. -/
def emptied (page : Page) (id : PageId) : Page :=
  ⟨id, List.replicate pageSize 0, page.isDirty && page.id.pageNo = invalidPageNo, page.pinCount⟩

theorem install_pages (pool : BufferPoolManager n δ) (f : Fin n) (id : PageId) (disk : δ) :
    (pool.install f id disk).pages = Function.update pool.pages f (emptied (pool.pages f) id) := rfl

theorem occupy_pages (pool : BufferPoolManager n δ) (f : Fin n) (id : PageId) (data : Bytes) (disk disk' : δ) :
    ((pool.install f id disk).occupy f data disk').pages =
      Function.update pool.pages f ⟨id, data, (emptied (pool.pages f) id).isDirty, 1⟩ := by
  have hself : (pool.install f id disk).pages f = emptied (pool.pages f) id := by
    rw [install_pages, Function.update_self]
  unfold occupy
  rw [hself, install_pages, Function.update_idem]
  rfl

theorem Claims.pinned (h : pool.Claims f claimed) (hs : Steady pool) (pool' : BufferPoolManager n δ) (page : Page)
    (hfresh : pool.pageTable id = none)
    (hvalid : id.pageNo ≠ invalidPageNo) (hin : id.pageNo < pool'.fd2pageno id.fd)
    (hnum : ∀ fd, pool.fd2pageno fd ≤ pool'.fd2pageno fd) (hid : page.id = id) (hpin : page.pinCount = 1)
    (hfree : pool'.freeList = claimed.freeList) (hreplacer : pool'.replacer = claimed.replacer.pin f)
    (hpages : pool'.pages = Function.update claimed.pages f page)
    (htable : pool'.pageTable =
      Function.update (Function.update claimed.pageTable (claimed.pages f).id none) id (some f)) :
    pool.Pinned f id page.data pool'.disk pool' := by
  have hlru : ∀ g, g ∈ pool'.replacer ↔ g ∈ claimed.replacer := by
    intro g
    rw [hreplacer, LruReplacer.mem_pin, h.replacer]
    exact and_iff_right_of_imp And.left
  have hone : (0 : ℤ) ≤ page.pinCount := by omega
  obtain ⟨hsteady, hpins⟩ := h.fresh hs page hfresh hvalid hin hnum hid hone hfree hlru hpages htable
  refine ⟨hsteady, ?_, ?_, ?_, rfl, hnum⟩
  · have hzero := pins_eq_zero hfresh
    rw [hpins, hpin, ← update_add_single, hzero, Int.zero_add]
  · rw [htable, Function.update_self]
  · rw [hpages, Function.update_self]

theorem fetchPage_cases (h : Steady pool) (io : DiskIo δ) (id : PageId) (hvalid : id.pageNo ≠ invalidPageNo)
    (hin : id.pageNo < pool.fd2pageno id.fd) :
    (∃ f data disk pool', pool.fetched io id = some (data, disk) ∧
      runFrom (fetchPage io id) pool = (.ok (some f), pool') ∧ pool.Pinned f id data disk pool') ∨
    (pool.fetched io id = none ∧ (runFrom (fetchPage io id) pool = (.ok none, pool) ∧ pool.freed io = none ∨
      ∃ pool', runFrom (fetchPage io id) pool = (.error .internalError, pool') ∧ pool.Balanced pool')) := by
  cases hmapped : pool.pageTable id with
  | some f =>
    left
    have hnonneg := h.pinCount_nonneg f
    obtain ⟨page, hpage⟩ : ∃ page, page = { pool.pages f with pinCount := (pool.pages f).pinCount + 1 } := ⟨_, rfl⟩
    have hpin : page.pinCount = (pool.pages f).pinCount + 1 := by rw [hpage]
    obtain ⟨pool', hpool'⟩ : ∃ pool', pool' = { pool with
      replacer := pool.replacer.pin f
      pages := Function.update pool.pages f page } := ⟨_, rfl⟩
    have hpages : pool'.pages = Function.update pool.pages f page := by rw [hpool']
    have htable : pool'.pageTable = pool.pageTable := by rw [hpool']
    have hreplacer : ∀ g, g ∈ pool'.replacer → g ≠ f ∧ g ∈ pool.replacer ∨ g = f ∧ page.pinCount = 0 := by
      rw [hpool']
      exact fun g hg => Or.inl (LruReplacer.mem_pin.mp hg)
    obtain ⟨hsteady, hpins⟩ := h.repin hmapped page (by rw [hpage]) (by omega) hpages (by rw [hpool']) htable hreplacer
      (by rw [hpool'])
    refine ⟨f, (pool.pages f).data, pool.disk, pool', ?_, ?_, hsteady, ?_, htable ▸ hmapped, ?_, by rw [hpool'], ?_⟩
    · rw [fetched, hmapped]
    · rw [runFrom_fetchPage_hit hmapped, hpool', hpage]
    · rw [hpins, hpin, ← update_add_single, pins_eq hmapped]
    · rw [hpages, Function.update_self, hpage]
    · rw [hpool']
      exact fun fd => le_refl _
  | none =>
    cases hvictim : pool.victimOf with
    | none =>
      right
      have hfreed : pool.freed io = none := by
        rw [freed, hvictim]
        rfl
      refine ⟨?_, Or.inl ⟨runFrom_fetchPage_full hmapped hvictim, hfreed⟩⟩
      rw [fetched, hmapped, hvictim]
      rfl
    | some victim =>
      obtain ⟨f, claimed⟩ := victim
      have hclaims := h.claims hvictim
      obtain ⟨-, -, -, hnum⟩ := victimOf_fields hvictim
      have hnumbers : ∀ fd, pool.fd2pageno fd ≤ claimed.fd2pageno fd := fun fd => le_of_eq (congrFun hnum fd).symm
      have hin' : id.pageNo < claimed.fd2pageno id.fd := hnum ▸ hin
      have hfetched : pool.fetched io id = (claimed.writeBack io f).bind (io.readPage id) := by
        rw [fetched, hmapped, hvictim]
        rfl
      rw [runFrom_fetchPage_victim io hmapped hvictim, hfetched]
      cases hwrite : claimed.writeBack io f with
      | none =>
        right
        obtain ⟨hsteady, hpins⟩ := hclaims.kept h rfl rfl rfl rfl hnumbers
        exact ⟨rfl, Or.inr ⟨claimed, rfl, hsteady, hpins, hnumbers⟩⟩
      | some disk =>
        rw [Option.bind_some]
        dsimp only
        cases hread : io.readPage id disk with
        | none =>
          right
          have hidle : (emptied (claimed.pages f) id).pinCount = 0 := by
            rw [emptied, hclaims.pages, hclaims.unpinned]
          have hinstalled : Steady (claimed.install f id disk) ∧ (claimed.install f id disk).pins = _ :=
            hclaims.fresh h (emptied (claimed.pages f) id) hmapped hvalid hin' hnumbers rfl (le_of_eq hidle.symm) rfl
              (fun g => Iff.rfl) (install_pages ..) rfl
          obtain ⟨hsteady, hpins⟩ := hinstalled
          refine ⟨rfl, Or.inr ⟨_, rfl, hsteady, ?_, hnumbers⟩⟩
          rw [hpins, hidle, ← pins_eq_zero hmapped, Function.update_eq_self]
        | some read =>
          left
          obtain ⟨data, disk'⟩ := read
          have hpinned : pool.Pinned f id data disk' ((claimed.install f id disk).occupy f data disk') :=
            hclaims.pinned h ((claimed.install f id disk).occupy f data disk')
              ⟨id, data, (emptied (claimed.pages f) id).isDirty, 1⟩ hmapped hvalid hin' hnumbers
              rfl rfl rfl rfl (occupy_pages ..) rfl
          exact ⟨f, data, disk', _, rfl, rfl, hpinned⟩

theorem newPage_cases (h : Steady pool) (io : DiskIo δ) (hfd : 0 ≤ fd ∧ fd < maxFd) :
    (∃ f disk pool', pool.freed io = some disk ∧ runFrom (newPage io (some fd)) pool = (.ok (some f), pool') ∧
      pool.Pinned f ⟨fd, pool.fd2pageno fd⟩ (List.replicate pageSize 0) disk pool') ∨
    (pool.freed io = none ∧ (runFrom (newPage io (some fd)) pool = (.ok none, pool) ∨
      ∃ pool', runFrom (newPage io (some fd)) pool = (.error .internalError, pool') ∧ pool.Balanced pool')) := by
  cases hvictim : pool.victimOf with
  | none =>
    right
    refine ⟨?_, Or.inl (runFrom_newPage_full hvictim fd)⟩
    rw [freed, hvictim]
    rfl
  | some victim =>
    obtain ⟨f, claimed⟩ := victim
    have hclaims := h.claims hvictim
    obtain ⟨-, -, -, hnum⟩ := victimOf_fields hvictim
    have hfreed : pool.freed io = claimed.writeBack io f := by
      rw [freed, hvictim]
      rfl
    have hnumbers : ∀ fd', pool.fd2pageno fd' ≤
        Function.update claimed.fd2pageno fd (claimed.fd2pageno fd + 1) fd' := by
      intro fd'
      rw [hnum, Function.update_apply]
      split
      · rename_i heq
        rw [heq]
        omega
      · exact le_refl _
    have hneg : ¬fd < 0 := by omega
    have hmax : ¬maxFd ≤ fd := by omega
    rw [runFrom_newPage_victim io hvictim, if_neg hneg, if_neg hmax, hfreed]
    dsimp only
    cases hwrite : claimed.writeBack io f with
    | none =>
      right
      have hkept : Steady { claimed with
            fd2pageno := Function.update claimed.fd2pageno fd (claimed.fd2pageno fd + 1) } ∧ _ = pool.pins :=
        hclaims.kept h rfl rfl rfl rfl hnumbers
      exact ⟨rfl, Or.inr ⟨_, rfl, hkept.1, hkept.2, hnumbers⟩⟩
    | some disk =>
      left
      have hfresh : pool.pageTable ⟨fd, pool.fd2pageno fd⟩ = none := h.beyond _ (le_refl _)
      have hvalid : pool.fd2pageno fd ≠ invalidPageNo := by
        have hnonneg := h.numbered fd
        unfold invalidPageNo
        omega
      have hin : pool.fd2pageno fd < Function.update claimed.fd2pageno fd (claimed.fd2pageno fd + 1) fd := by
        rw [Function.update_self, hnum]
        omega
      obtain ⟨pool', hpool'⟩ : ∃ pool', pool' =
          (({ claimed with fd2pageno := Function.update claimed.fd2pageno fd (claimed.fd2pageno fd + 1) } :
            BufferPoolManager n δ).install f ⟨fd, pool.fd2pageno fd⟩ disk).occupy f (List.replicate pageSize 0) disk :=
        ⟨_, rfl⟩
      have hnum' : pool'.fd2pageno = Function.update claimed.fd2pageno fd (claimed.fd2pageno fd + 1) := by
        rw [hpool']
        rfl
      have hpages : pool'.pages = Function.update claimed.pages f ⟨⟨fd, pool.fd2pageno fd⟩, List.replicate pageSize 0,
          (emptied (claimed.pages f) ⟨fd, pool.fd2pageno fd⟩).isDirty, 1⟩ := by
        rw [hpool']
        exact occupy_pages ..
      have hpinned := hclaims.pinned h pool' _ hfresh hvalid (hnum' ▸ hin) (hnum' ▸ hnumbers) rfl rfl (by rw [hpool']; rfl)
        (by rw [hpool']; rfl) hpages (by rw [hpool']; rfl)
      have hdisk : pool'.disk = disk := by
        rw [hpool']
        rfl
      rw [hdisk] at hpinned
      refine ⟨f, disk, pool', rfl, ?_, hpinned⟩
      dsimp only
      rw [hpool', hnum]

/-- A page that is pinned is released once. -/
theorem unpinPage_spec (h : Steady pool) (hmapped : pool.pageTable id = some f) (hpos : 0 < pool.pins id)
    (isDirty : Bool) : ∃ pool', runFrom (unpinPage id isDirty) pool = (.ok true, pool') ∧ Steady pool' ∧
      pool'.pins = pool.pins + Pi.single id (-1) ∧ pool'.pageTable = pool.pageTable ∧
        (∀ g, (pool'.pages g).data = (pool.pages g).data) ∧ pool'.disk = pool.disk ∧ pool'.fd2pageno = pool.fd2pageno := by
  rw [pins_eq hmapped] at hpos
  have hne : ¬(pool.pages f).pinCount = 0 := by omega
  obtain ⟨page, hpage⟩ : ∃ page : Page, page = { pool.pages f with
    pinCount := (pool.pages f).pinCount - 1
    isDirty := (pool.pages f).isDirty || isDirty } := ⟨_, rfl⟩
  have hpin : page.pinCount = (pool.pages f).pinCount - 1 := by rw [hpage]
  obtain ⟨pool', hpool'⟩ : ∃ pool', pool' = { pool with
    replacer := if (pool.pages f).pinCount - 1 = 0 then pool.replacer.unpin f else pool.replacer
    pages := Function.update pool.pages f page } := ⟨_, rfl⟩
  have hpages : pool'.pages = Function.update pool.pages f page := by rw [hpool']
  have hreplacer : ∀ g, g ∈ pool'.replacer → g ≠ f ∧ g ∈ pool.replacer ∨ g = f ∧ page.pinCount = 0 := by
    intro g hg
    rw [hpool'] at hg
    dsimp only at hg
    split at hg
    · rename_i hzero
      rw [LruReplacer.mem_unpin] at hg
      by_cases heq : g = f
      · exact Or.inr ⟨heq, by omega⟩
      · exact Or.inl ⟨heq, hg.resolve_left heq⟩
    · refine Or.inl ⟨fun heq => ?_, hg⟩
      exact hne (h.idle f (Or.inr (heq ▸ hg)))
  obtain ⟨hsteady, hpins⟩ := h.repin hmapped page (by rw [hpage]) (by omega) hpages (by rw [hpool']) (by rw [hpool'])
    hreplacer (by rw [hpool'])
  refine ⟨pool', ?_, hsteady, ?_, by rw [hpool'], fun g => ?_, by rw [hpool'], by rw [hpool']⟩
  · simp only [unpinPage, runFrom_bind, runFrom_get, hmapped, hne, if_false, runFrom_modify, runFrom_pure]
    rw [hpool', hpage]
    rfl
  · rw [hpins, hpin, ← update_add_single, pins_eq hmapped]
    rfl
  · rw [hpages]
    by_cases hg : g = f
    · rw [hg, Function.update_self, hpage]
    · rw [Function.update_of_ne hg]

end Rmdb.BufferPoolManager
