import Mathlib.Data.List.Pairwise
import ZhuOS.Lib.Assignment
import ZhuOS.Lib.Guarded
import ZhuOS.Vaddr

/-!
# Kernel pages: the virtual bitmap, the frame bitmap and the page tables

`Mapped m f` says the page tables carry the abstract map `f` from heap pages to
frames: distinct pages have distinct frames, and the frame bitmap marks exactly
the frames in use. `mallocPage` and `mfreePage` extend and cut that map page by
page; the virtual bitmap is compared with it only between two calls, since it
is marked whole before the first page is mapped.
-/

namespace ZhuOS

open PackedBits Assignment

/-- The directory `setup_page` builds: a table for every 4 MB of the kernel's
gigabyte but the last, which is the directory itself. -/
structure LoaderDir (m : Mmu) : Prop where
  cr3 : m.cr3 = 0x100000
  self : m.phys 0x100 1023 = 0x100 * 4096 + 7
  kernel : ∀ k < 255, m.phys 0x100 (768 + k) = (0x101 + k) * 4096 + 7

/-- The pages from `K_HEAP_START` up to the directory's own 4 MB. -/
def HEAP_PAGES : Nat := 260864

def pageAddr (i : Nat) : Nat := K_HEAP_START + PG_SIZE * i

/-- The table entry of heap page `i`. -/
def pteOf (m : Mmu) (i : Nat) : Nat := m.phys (0x101 + (256 + i) / 1024) ((256 + i) % 1024)

def setPte (m : Mmu) (i e : Nat) : Mmu := m.put (0x101 + (256 + i) / 1024) ((256 + i) % 1024) e

theorem pteOf_setPte (m : Mmu) (i j e : Nat) :
    pteOf (setPte m i e) j = if j = i then e else pteOf m j := by
  unfold pteOf setPte
  rw [Mmu.put_phys]
  by_cases h : j = i
  · simp [h]
  · rw [if_neg h, if_neg (by omega)]

namespace LoaderDir

variable {m : Mmu}

theorem selfMapped (h : LoaderDir m) : SelfMapped m 0x100 := ⟨by rw [h.cr3], h.self⟩

theorem setPte (h : LoaderDir m) (i e : Nat) : LoaderDir (setPte m i e) := by
  refine ⟨h.cr3, ?_, fun k hk => ?_⟩
  · rw [ZhuOS.setPte, Mmu.put_phys, if_neg (by omega)]; exact h.self
  · rw [ZhuOS.setPte, Mmu.put_phys, if_neg (by omega)]; exact h.kernel k hk

theorem pageAddr_lt {i : Nat} (hi : i < HEAP_PAGES) : pageAddr i < 2 ^ 32 := by
  unfold HEAP_PAGES at hi
  unfold pageAddr K_HEAP_START PG_SIZE
  omega

theorem pageAddr_dir (i : Nat) : pageAddr i / 2 ^ 22 = 768 + (256 + i) / 1024 := by
  unfold pageAddr K_HEAP_START PG_SIZE; omega

theorem pageAddr_word (i : Nat) : pageAddr i / 4096 % 1024 = (256 + i) % 1024 := by
  unfold pageAddr K_HEAP_START PG_SIZE; omega

/-- The directory entry of a heap page is present and leads to its table. -/
theorem pde (h : LoaderDir m) {i : Nat} (hi : i < HEAP_PAGES) :
    m.phys 0x100 (pageAddr i / 2 ^ 22) = (0x101 + (256 + i) / 1024) * 4096 + 7 := by
  rw [pageAddr_dir]
  exact h.kernel _ (by unfold HEAP_PAGES at hi; omega)

theorem load_pde (h : LoaderDir m) {i : Nat} (hi : i < HEAP_PAGES) :
    m.load (pdePtr (pageAddr i)) = .ok ((0x101 + (256 + i) / 1024) * 4096 + 7) := by
  rw [h.selfMapped.load_pdePtr (pageAddr_lt hi), h.pde hi]

theorem table (h : LoaderDir m) {i : Nat} (hi : i < HEAP_PAGES) :
    m.phys 0x100 (pageAddr i / 2 ^ 22) / 4096 = 0x101 + (256 + i) / 1024 := by
  rw [h.pde hi]; omega

theorem load_pte (h : LoaderDir m) {i : Nat} (hi : i < HEAP_PAGES) :
    m.load (ptePtr (pageAddr i)) = .ok (pteOf m i) := by
  rw [h.selfMapped.load_ptePtr (pageAddr_lt hi) (by rw [h.pde hi]; omega), h.table hi,
    pageAddr_word, pteOf]

theorem store_pte (h : LoaderDir m) {i : Nat} (hi : i < HEAP_PAGES) (e : Nat) :
    m.store (ptePtr (pageAddr i)) e = .ok (ZhuOS.setPte m i e) := by
  rw [h.selfMapped.store_ptePtr (pageAddr_lt hi) e (by rw [h.pde hi]; omega), h.table hi,
    pageAddr_word, ZhuOS.setPte]

/-- The hardware's walk of a heap page reads its entry. -/
theorem walk (h : LoaderDir m) {i : Nat} (hi : i < HEAP_PAGES) :
    m.walk (pageAddr i) =
      if pteOf m i % 2 = 0 then .error .badAddress else .ok (pteOf m i / 4096) := by
  simp only [Mmu.walk, h.cr3]
  rw [show 0x100000 / 4096 = 0x100 by decide, h.table hi, h.pde hi, if_neg (by omega),
    pageAddr_word]
  rfl

end LoaderDir

/-- What page requests leave alone besides: the running thread, and the pool's
size and lock. -/
structure Memory.Frame (m m' : Memory) : Prop where
  running : m'.running = m.running
  poolSize : m'.kernelPool.poolSize = m.kernelPool.poolSize
  lockDepth : m'.kernelPool.lockDepth = m.kernelPool.lockDepth

theorem Memory.Frame.refl (m : Memory) : m.Frame m := ⟨rfl, rfl, rfl⟩

theorem Memory.Frame.trans {m m' m'' : Memory} (h : m.Frame m') (h' : m'.Frame m'') :
    m.Frame m'' :=
  ⟨h'.running.trans h.running, h'.poolSize.trans h.poolSize, h'.lockDepth.trans h.lockDepth⟩

/-- The physical address of frame `k` of the kernel pool. -/
def frameAddr (k : Nat) : Nat := USED_MEM + PG_SIZE * k

/-- What no call changes: where the pools lie and which tables there are. -/
structure Geometry (m : Memory) : Prop where
  dir : LoaderDir m.mmu
  vstart : m.kernelVaddr.vaddrStart = K_HEAP_START
  kstart : m.kernelPool.phyAddrStart = USED_MEM
  vsize : m.kernelVaddr.vaddrBitmap.size ≤ 2 ^ 15
  ksize : m.kernelPool.poolBitmap.size ≤ 2 ^ 15
  ustart : frameAddr m.kernelPool.poolBitmap.size ≤ m.userPool.phyAddrStart

/-- The page tables carry the map `f` from heap pages to frames of the pool. -/
structure Mapped (m : Memory) (f : Nat → Option Nat) : Prop extends Geometry m where
  distinct : Distinct f
  taken : ∀ k < m.kernelPool.poolBitmap.size, m.kernelPool.poolBitmap.bit k = true ↔ Taken f k
  bound : ∀ i k, f i = some k →
    i < m.kernelVaddr.vaddrBitmap.size ∧ k < m.kernelPool.poolBitmap.size
  present : ∀ i k, f i = some k → pteOf m.mmu i = frameAddr k + 7
  absent : ∀ i < m.kernelVaddr.vaddrBitmap.size, f i = none → pteOf m.mmu i % 2 = 0

theorem Geometry.page {m : Memory} (h : Geometry m) {i : Nat}
    (hi : i < m.kernelVaddr.vaddrBitmap.size) : i < HEAP_PAGES := by
  have := h.vsize
  unfold HEAP_PAGES
  omega

theorem frameAddr_mod (k : Nat) : frameAddr k % 4096 = 0 := by
  unfold frameAddr USED_MEM PG_SIZE; omega

/-- The map with a page added. -/
theorem Mapped.add {m : Memory} {f : Nat → Option Nat} (h : Mapped m f) {i k : Nat}
    (hi : i < m.kernelVaddr.vaddrBitmap.size) (hfi : f i = none)
    (hk : k < m.kernelPool.poolBitmap.size) (hfree : m.kernelPool.poolBitmap.bit k = false) :
    let pool := { m.kernelPool with poolBitmap := bitmapSet m.kernelPool.poolBitmap k true }
    Mapped { m with kernelPool := pool, mmu := setPte m.mmu i (frameAddr k + 7) }
      (Function.update f i (some k)) := by
  intro pool
  have hnot : ¬ Taken f k := fun ht => by simp [(h.taken k hk).mpr ht] at hfree
  refine ⟨⟨h.dir.setPte _ _, h.vstart, h.kstart, h.vsize, h.ksize, h.ustart⟩,
    h.distinct.assign hnot, ?_, ?_, ?_, ?_⟩
  · intro l hl
    simp only [bitmapSet_bit, pool, taken_assign hfi]
    by_cases he : l = k
    · simp [he]
    · simpa [he] using h.taken l hl
  · intro j l hj
    by_cases he : j = i
    · subst he
      rw [Function.update_self] at hj
      cases hj
      exact ⟨hi, hk⟩
    · rw [Function.update_of_ne he] at hj
      exact h.bound j l hj
  · intro j l hj
    rw [pteOf_setPte]
    by_cases he : j = i
    · subst he
      rw [Function.update_self] at hj
      cases hj
      exact if_pos rfl
    · rw [Function.update_of_ne he] at hj
      rw [if_neg he]
      exact h.present j l hj
  · intro j hj hn
    have he : j ≠ i := by rintro rfl; simp at hn
    rw [Function.update_of_ne he] at hn
    rw [pteOf_setPte, if_neg he]
    exact h.absent j hj hn

/-- The map with a page removed. -/
theorem Mapped.remove {m : Memory} {f : Nat → Option Nat} (h : Mapped m f) {i k e : Nat}
    (hfi : f i = some k) (he : e % 2 = 0) :
    let pool := { m.kernelPool with poolBitmap := bitmapSet m.kernelPool.poolBitmap k false }
    Mapped { m with kernelPool := pool, mmu := setPte m.mmu i e } (Function.update f i none) := by
  intro pool
  refine ⟨⟨h.dir.setPte _ _, h.vstart, h.kstart, h.vsize, h.ksize, h.ustart⟩,
    h.distinct.release, ?_, ?_, ?_, ?_⟩
  · intro l hl
    simp only [bitmapSet_bit, pool, taken_release h.distinct hfi]
    by_cases hlk : l = k
    · simp [hlk]
    · simpa [hlk] using h.taken l hl
  · intro j l hj
    have hji : j ≠ i := by rintro rfl; simp at hj
    rw [Function.update_of_ne hji] at hj
    exact h.bound j l hj
  · intro j l hj
    have hji : j ≠ i := by rintro rfl; simp at hj
    rw [Function.update_of_ne hji] at hj
    rw [pteOf_setPte, if_neg hji]
    exact h.present j l hj
  · intro j hj hn
    rw [pteOf_setPte]
    by_cases hji : j = i
    · rw [if_pos hji]; exact he
    · rw [Function.update_of_ne hji] at hn
      rw [if_neg hji]
      exact h.absent j hj hn

/-- A frame of the kernel pool behind an unmapped heap page. -/
theorem pageTableAdd_heap {m : Memory} (hg : Geometry m) {i : Nat}
    (hi : i < m.kernelVaddr.vaddrBitmap.size) (habs : pteOf m.mmu i % 2 = 0) (k : Nat) :
    pageTableAdd m (pageAddr i) (frameAddr k) =
      .ok { m with mmu := setPte m.mmu i (frameAddr k + 7) } := by
  have hp := hg.page hi
  have hpde : ((0x101 + (256 + i) / 1024) * 4096 + 7) &&& 0x00000001 ≠ 0 := by
    rw [Nat.and_one_is_mod]; omega
  have hpte : pteOf m.mmu i &&& 0x00000001 = 0 := by rw [Nat.and_one_is_mod]; exact habs
  simp only [pageTableAdd, hg.dir.load_pde hp, ok_bind, hpde, ne_eq, not_false_eq_true,
    ↓reduceIte, hg.dir.load_pte hp, ASSERT_true hpte, hg.dir.store_pte hp,
    entry_eq (frameAddr_mod k)]
  rfl

theorem u32_frame {m : Memory} (hg : Geometry m) {k : Nat}
    (hk : k < m.kernelPool.poolBitmap.size) :
    u32 (k * PG_SIZE + m.kernelPool.phyAddrStart) = frameAddr k := by
  have := hg.ksize
  rw [hg.kstart, u32_eq (by unfold USED_MEM PG_SIZE; omega)]
  unfold frameAddr PG_SIZE; omega

theorem u32_next {i : Nat} (hi : i < 2 ^ 15) : u32 (pageAddr i + PG_SIZE) = pageAddr (i + 1) := by
  rw [u32_eq (by unfold pageAddr K_HEAP_START PG_SIZE; omega)]
  unfold pageAddr PG_SIZE; omega

/-- The loop of `malloc_page` maps its pages when there are frames enough. -/
theorem mapPages_heap {m : Memory} {f : Nat → Option Nat} (h : Mapped m f) (cnt i : Nat)
    (hend : i + cnt ≤ m.kernelVaddr.vaddrBitmap.size)
    (hnone : ∀ j, i ≤ j → j < i + cnt → f j = none)
    (hfree : cnt ≤ m.kernelPool.poolBitmap.free.card) :
    ∃ m' f', mapPages .PF_KERNEL cnt (pageAddr i) m = .ok (true, m') ∧ Mapped m' f' ∧
      (∀ j, (f' j).isSome = ((f j).isSome || decide (i ≤ j ∧ j < i + cnt))) ∧
      m'.kernelVaddr = m.kernelVaddr ∧ m.Frame m' := by
  induction cnt generalizing i m f with
  | zero => exact ⟨m, f, rfl, h, by simp, rfl, rfl, rfl, rfl⟩
  | succ cnt ih =>
    have hex := Bitmap.free_pos.mp (show 0 < m.kernelPool.poolBitmap.free.card by omega)
    obtain ⟨⟨r, p⟩, hr⟩ := palloc_total hex
    obtain ⟨k, hk, hkf, rfl, rfl⟩ := palloc_ok hr
    have hi : i < m.kernelVaddr.vaddrBitmap.size := by omega
    have hfi : f i = none := hnone i (Nat.le_refl _) (by omega)
    have hadd := h.add hi hfi hk hkf
    -- the table is written with the frame already marked
    have hstep := pageTableAdd_heap (m := m.setPool { m.kernelPool with
      poolBitmap := bitmapSet m.kernelPool.poolBitmap k true } .PF_KERNEL)
      ⟨h.dir, h.vstart, h.kstart, h.vsize, h.ksize, h.ustart⟩ hi (h.absent i hi hfi) k
    obtain ⟨m', f', hm', hmap, hsome, hva, hfr⟩ := ih hadd (i + 1)
      (by simpa [Nat.add_assoc, Nat.add_comm 1] using hend)
      (fun j hj hlt => by
        rw [Function.update_of_ne (by omega)]
        exact hnone j (by omega) (by omega))
      (by have := card_free_bitmapSet_true hk hkf; dsimp only; omega)
    refine ⟨m', f', ?_, hmap, ?_, hva, hfr.running, hfr.poolSize, hfr.lockDepth⟩
    · have := h.vsize
      simp only [mapPages, Memory.pool, hr, ok_bind, u32_frame h.toGeometry hk, hstep,
        u32_next (show i < 2 ^ 15 by omega)]
      exact hm'
    · intro j
      rw [hsome j]
      by_cases hj : j = i
      · subst hj; simp
      · rw [Function.update_of_ne hj]
        congr 1
        simp only [decide_eq_decide]
        omega

/-- The physical address the code reads back for a mapped page. -/
theorem addrV2p_heap {m : Memory} {f : Nat → Option Nat} (h : Mapped m f) {i k : Nat}
    (hfi : f i = some k) : addrV2p m (pageAddr i) = .ok (frameAddr k) := by
  obtain ⟨hi, hk⟩ := h.bound i k hfi
  have hks := h.ksize
  have hpte : (frameAddr k + 7) &&& 0xfffff000 = frameAddr k := by
    have := and_field (frameAddr k + 7) 20 12
    rw [show (2 ^ 20 - 1) <<< 12 = 0xfffff000 by decide] at this
    rw [this]
    unfold frameAddr USED_MEM PG_SIZE
    omega
  have hoff : pageAddr i &&& 0x00000fff = 0 := by
    have := Nat.and_two_pow_sub_one_eq_mod (pageAddr i) 12
    rw [show 2 ^ 12 - 1 = 0x00000fff by decide] at this
    rw [this]
    unfold pageAddr K_HEAP_START PG_SIZE
    omega
  simp only [addrV2p, h.dir.load_pte (h.page hi), ok_bind, h.present i k hfi, hpte, hoff]
  rfl

/-- Giving a frame of the kernel pool back clears its bit. -/
theorem pfree_heap {m : Memory} (hg : Geometry m) {k : Nat}
    (hk : k < m.kernelPool.poolBitmap.size) :
    pfree m (frameAddr k) = { m with kernelPool := { m.kernelPool with
      poolBitmap := bitmapSet m.kernelPool.poolBitmap k false } } := by
  have hu := hg.ustart
  have hks := hg.ksize
  have hlow : ¬ m.userPool.phyAddrStart ≤ frameAddr k := by
    unfold frameAddr PG_SIZE at hu ⊢; omega
  have hidx : sub32 (frameAddr k) m.kernelPool.phyAddrStart / PG_SIZE = k := by
    rw [hg.kstart, sub32_eq (by unfold frameAddr; omega)
      (by unfold frameAddr USED_MEM PG_SIZE; omega)]
    unfold frameAddr PG_SIZE
    omega
  simp only [pfree, hlow, ↓reduceIte, Memory.pool, Memory.setPool, hidx]

/-- One round of the loop of `mfree_page`. -/
theorem release_heap {m : Memory} {f : Nat → Option Nat} (h : Mapped m f) {i k : Nat}
    (hfi : f i = some k) :
    pageTablePteRemove (pfree m (frameAddr k)) (pageAddr i) =
      .ok { m with
        kernelPool := { m.kernelPool with poolBitmap := bitmapSet m.kernelPool.poolBitmap k false }
        mmu := setPte m.mmu i (pteOf m.mmu i &&& 0xfffffffe) } := by
  obtain ⟨hi, hk⟩ := h.bound i k hfi
  have hp := h.page hi
  rw [pfree_heap h.toGeometry hk]
  simp only [pageTablePteRemove, h.dir.load_pte hp, ok_bind, h.dir.store_pte hp]
  rfl

/-- The map without the pages `i`, …, `i + cnt - 1`. -/
def cut (f : Nat → Option Nat) (i cnt : Nat) : Nat → Option Nat :=
  fun j => if i ≤ j ∧ j < i + cnt then none else f j

theorem cut_update (f : Nat → Option Nat) (i cnt : Nat) :
    cut (Function.update f i none) (i + 1) cnt = cut f i (cnt + 1) := by
  funext j
  unfold cut
  by_cases hj : j = i
  · subst hj
    simp
  · rw [Function.update_of_ne hj]
    by_cases hin : i + 1 ≤ j ∧ j < i + 1 + cnt
    · rw [if_pos hin, if_pos (by omega)]
    · rw [if_neg hin, if_neg (by omega)]

theorem releasePages_heap {m : Memory} {f : Nat → Option Nat} (h : Mapped m f)
    (inPool : Nat → Bool) (cnt i : Nat)
    (hin : ∀ k < m.kernelPool.poolBitmap.size, inPool (frameAddr k) = true)
    (hsome : ∀ j, i ≤ j → j < i + cnt → (f j).isSome) :
    ∃ m', releasePages inPool cnt (pageAddr i) m = .ok m' ∧ Mapped m' (cut f i cnt) ∧
      m'.kernelVaddr = m.kernelVaddr ∧ m.Frame m' := by
  induction cnt generalizing i m f with
  | zero =>
    refine ⟨m, rfl, ?_, rfl, rfl, rfl, rfl⟩
    have : cut f i 0 = f := by funext j; simp [cut]
    rwa [this]
  | succ cnt ih =>
    obtain ⟨k, hfi⟩ := Option.isSome_iff_exists.mp (hsome i (Nat.le_refl _) (by omega))
    obtain ⟨hi, hk⟩ := h.bound i k hfi
    obtain ⟨m', hm', hmap, hva, hfr⟩ :=
      ih (h.remove hfi (clear_present (pteOf m.mmu i))) (i + 1) hin
      (fun j hj hlt => by
        rw [Function.update_of_ne (by omega)]
        exact hsome j (by omega) (by omega))
    have hvs := h.vsize
    refine ⟨m', ?_, by rwa [cut_update] at hmap, hva, hfr.running, hfr.poolSize, hfr.lockDepth⟩
    simp only [releasePages, addrV2p_heap h hfi, ok_bind,
      ASSERT_true (show frameAddr k % PG_SIZE = 0 ∧ inPool (frameAddr k) = true from
        ⟨frameAddr_mod k, hin k hk⟩), release_heap h hfi, u32_next (show i < 2 ^ 15 by omega)]
    exact hm'

/-! ## Whole requests -/

/-- A live allocation of pages. -/
structure PageRange where
  vaddr : Nat
  pgCnt : Nat
  deriving DecidableEq, Repr

def PageRange.Covers (r : PageRange) (a : Nat) : Prop :=
  r.vaddr ≤ a ∧ a < r.vaddr + PG_SIZE * r.pgCnt

def PageRange.Apart (r s : PageRange) : Prop :=
  r.vaddr + PG_SIZE * r.pgCnt ≤ s.vaddr ∨ s.vaddr + PG_SIZE * s.pgCnt ≤ r.vaddr

theorem covers_page {i j n : Nat} :
    (PageRange.mk (pageAddr i) n).Covers (pageAddr j) ↔ i ≤ j ∧ j < i + n := by
  unfold PageRange.Covers pageAddr PG_SIZE
  dsimp only
  omega

instance : Std.Symm PageRange.Apart := ⟨fun _ _ => Or.symm⟩

theorem apart_page {i j n k : Nat} :
    (PageRange.mk (pageAddr i) n).Apart ⟨pageAddr j, k⟩ ↔ i + n ≤ j ∨ j + k ≤ i := by
  unfold PageRange.Apart pageAddr PG_SIZE
  dsimp only
  omega

/-- The live ranges are the pages of the abstract map, and the virtual bitmap
marks them. -/
structure LiveRanges (m : Memory) (f : Nat → Option Nat) (live : List PageRange) : Prop where
  marked : ∀ i < m.kernelVaddr.vaddrBitmap.size,
    m.kernelVaddr.vaddrBitmap.bit i = (f i).isSome
  owned : ∀ i, (f i).isSome = true ↔ ∃ r ∈ live, r.Covers (pageAddr i)
  placed : ∀ r ∈ live, ∃ i, r.vaddr = pageAddr i ∧ 1 ≤ r.pgCnt
  apart : live.Pairwise PageRange.Apart

/-- The three structures agree about the live ranges. -/
def PagesOk (m : Memory) (live : List PageRange) : Prop :=
  ∃ f, Mapped m f ∧ LiveRanges m f live

theorem LiveRanges.nodup {m : Memory} {f : Nat → Option Nat} {live : List PageRange}
    (h : LiveRanges m f live) : live.Nodup := by
  refine h.apart.imp_of_mem fun {r s} hr _ hrs he => ?_
  obtain ⟨i, hi, hn⟩ := h.placed r hr
  subst he
  unfold PageRange.Apart PG_SIZE at hrs
  omega

/-- Only the size of the virtual bitmap matters to the mapping. -/
theorem Mapped.setVaddr {m : Memory} {f : Nat → Option Nat} (h : Mapped m f) {b : Bitmap}
    (hb : b.size = m.kernelVaddr.vaddrBitmap.size) :
    Mapped (m.setVaddrBitmap b .PF_KERNEL) f := by
  refine ⟨⟨h.dir, h.vstart, h.kstart, ?_, h.ksize, h.ustart⟩, h.distinct, h.taken, ?_,
    h.present, ?_⟩
  · exact hb ▸ h.vsize
  · intro i k hf
    exact ⟨hb ▸ (h.bound i k hf).1, (h.bound i k hf).2⟩
  · intro i hi hf
    exact h.absent i (hb ▸ hi) hf

/-- A request that the bitmaps can meet is met with a range apart from the live
ones. -/
theorem mallocPage_pages {m : Memory} {live : List PageRange} (h : PagesOk m live) {n s : Nat}
    (hn : 0 < n ∧ n < 3840)
    (hrun : ClearRun m.kernelVaddr.vaddrBitmap.bits m.kernelVaddr.vaddrBitmap.size s n)
    (hfree : n ≤ m.kernelPool.poolBitmap.free.card) :
    ∃ i m', mallocPage m .PF_KERNEL n = .ok (some (pageAddr i), m') ∧ i + n ≤ 2 ^ 15 ∧
      PagesOk m' (⟨pageAddr i, n⟩ :: live) ∧ m.Frame m' := by
  obtain ⟨f, hmap, hlive⟩ := h
  obtain ⟨i, hi⟩ := exists_leastRun hrun
  have hend := hi.run.inside
  have hvs := hmap.vsize
  have hclear : ∀ j, i ≤ j → j < i + n → f j = none := by
    intro j hj hlt
    have hb : m.kernelVaddr.vaddrBitmap.bit j = false := hi.run.clear j hj hlt
    rw [hlive.marked j (by omega)] at hb
    simpa using hb
  have hstart : u32 (m.kernelVaddr.vaddrStart + i * PG_SIZE) = pageAddr i := by
    rw [hmap.vstart, u32_eq (by unfold K_HEAP_START PG_SIZE; omega), Nat.mul_comm]
    rfl
  have hset := hmap.setVaddr (bitmapSetRun_size true n i m.kernelVaddr.vaddrBitmap)
  obtain ⟨m', f', hm', hmap', hsome, hva, hfr⟩ := mapPages_heap hset n i
    (by simpa [Memory.setVaddrBitmap] using hend) hclear hfree
  refine ⟨i, m', ?_, by omega, ⟨f', hmap', ?_⟩, hfr.running, hfr.poolSize, hfr.lockDepth⟩
  · simp only [mallocPage, ASSERT_true hn, ok_bind, vaddrGet_kernel hn.1 hi, hstart, hm',
      ↓reduceIte]
    rfl
  · refine ⟨fun j hj => ?_, fun j => ?_, ?_, ?_⟩
    · rw [hva] at hj ⊢
      simp only [Memory.setVaddrBitmap, bitmapSetRun_size] at hj
      simp only [Memory.setVaddrBitmap, bitmapSetRun_bit, hsome j, hlive.marked j hj]
      split <;> simp_all
    · simp only [hsome j, Bool.or_eq_true, hlive.owned j, decide_eq_true_eq, List.mem_cons,
        exists_eq_or_imp, covers_page]
      exact or_comm
    · intro r hr
      rcases List.mem_cons.mp hr with rfl | hr
      · exact ⟨i, rfl, hn.1⟩
      · exact hlive.placed r hr
    · refine List.pairwise_cons.mpr ⟨fun r hr => ?_, hlive.apart⟩
      obtain ⟨k, hk, hpos⟩ := hlive.placed r hr
      obtain ⟨v, c⟩ := r
      dsimp only at hk hpos
      subst hk
      rw [apart_page]
      by_contra hover
      -- a common page would be mapped before the call
      have hcommon : (f (max i k)).isSome = true :=
        (hlive.owned _).mpr ⟨_, hr, covers_page.mpr (by omega)⟩
      rw [hclear (max i k) (by omega) (by omega)] at hcommon
      cases hcommon

/-- Releasing a live range takes exactly its pages out of the three structures. -/
theorem mfreePage_pages {m : Memory} {live : List PageRange} (h : PagesOk m live)
    {r : PageRange} (hr : r ∈ live) :
    ∃ m', mfreePage m .PF_KERNEL r.vaddr r.pgCnt = .ok m' ∧ PagesOk m' (live.erase r) ∧
      m.Frame m' := by
  obtain ⟨f, hmap, hlive⟩ := h
  obtain ⟨i, hvi, hpos⟩ := hlive.placed r hr
  obtain ⟨v, n⟩ := r
  dsimp only at hvi hpos ⊢
  subst hvi
  have hsome : ∀ j, i ≤ j → j < i + n → (f j).isSome = true :=
    fun j hj hlt => (hlive.owned j).mpr ⟨_, hr, covers_page.mpr ⟨hj, hlt⟩⟩
  obtain ⟨k, hk⟩ := Option.isSome_iff_exists.mp (hsome i (Nat.le_refl _) (by omega))
  obtain ⟨hi, hkb⟩ := hmap.bound i k hk
  have hu := hmap.ustart
  have hvs := hmap.vsize
  have hlow : ¬ m.userPool.phyAddrStart ≤ frameAddr k := by
    unfold frameAddr PG_SIZE at hu ⊢; omega
  have hpool : ∀ l < m.kernelPool.poolBitmap.size, decide (m.kernelPool.phyAddrStart ≤ frameAddr l ∧
      frameAddr l < m.userPool.phyAddrStart) = true := by
    intro l hl
    rw [hmap.kstart]
    unfold frameAddr PG_SIZE at *
    simp only [decide_eq_true_eq]
    omega
  obtain ⟨m', hm', hmap', hva, hfr⟩ := releasePages_heap hmap
    (fun p => decide (m.kernelPool.phyAddrStart ≤ p ∧ p < m.userPool.phyAddrStart)) n i hpool hsome
  have hidx : sub32 (pageAddr i) m'.kernelVaddr.vaddrStart / PG_SIZE = i := by
    rw [hmap'.vstart, sub32_eq (by unfold pageAddr; omega)
      (by unfold pageAddr K_HEAP_START PG_SIZE; omega)]
    unfold pageAddr PG_SIZE
    omega
  rw [hva] at hidx
  refine ⟨vaddrRemove m' .PF_KERNEL (pageAddr i) n, ?_, ⟨cut f i n, ?_, ?_⟩,
    hfr.running, hfr.poolSize, hfr.lockDepth⟩
  · have hpage : 1 ≤ n ∧ pageAddr i % PG_SIZE = 0 :=
      ⟨hpos, by unfold pageAddr K_HEAP_START PG_SIZE; omega⟩
    have hframe : frameAddr k % PG_SIZE = 0 ∧ 0x102000 ≤ frameAddr k :=
      ⟨frameAddr_mod k, by unfold frameAddr USED_MEM PG_SIZE; omega⟩
    simp only [mfreePage, ASSERT_true hpage, ok_bind, addrV2p_heap hmap hk, ASSERT_true hframe,
      hlow, ↓reduceIte, hm']
    rfl
  · simp only [vaddrRemove, Memory.vaddrPool]
    exact hmap'.setVaddr (bitmapSetRun_size ..)
  · refine ⟨fun j hj => ?_, fun j => ?_, fun s hs => hlive.placed s (List.mem_of_mem_erase hs),
      hlive.apart.sublist List.erase_sublist⟩
    · simp only [vaddrRemove, Memory.vaddrPool, Memory.setVaddrBitmap, bitmapSetRun_size, hva,
        hidx] at hj ⊢
      rw [bitmapSetRun_bit]
      unfold cut
      by_cases hin : i ≤ j ∧ j < i + n
      · rw [if_pos hin, if_pos hin]; rfl
      · rw [if_neg hin, if_neg hin]; exact hlive.marked j hj
    · have hmem : ∀ s, s ∈ live.erase ⟨pageAddr i, n⟩ ↔ s ≠ ⟨pageAddr i, n⟩ ∧ s ∈ live :=
        fun s => hlive.nodup.mem_erase_iff
      have hother : ∀ s ∈ live, s ≠ ⟨pageAddr i, n⟩ → s.Apart ⟨pageAddr i, n⟩ :=
        fun s hs hne => hlive.apart.forall hs hr hne
      unfold cut
      by_cases hin : i ≤ j ∧ j < i + n
      · rw [if_pos hin]
        simp only [Option.isSome_none, Bool.false_eq_true, hmem, false_iff, not_exists, not_and]
        rintro s ⟨hne, hs⟩ hcov
        obtain ⟨k', hk', -⟩ := hlive.placed s hs
        have := hother s hs hne
        obtain ⟨v', n'⟩ := s
        dsimp only at hk'
        subst hk'
        rw [covers_page] at hcov
        rw [apart_page] at this
        omega
      · rw [if_neg hin, hlive.owned j]
        constructor
        · rintro ⟨s, hs, hcov⟩
          refine ⟨s, (hmem s).mpr ⟨?_, hs⟩, hcov⟩
          rintro rfl
          exact hin (covers_page.mp hcov)
        · rintro ⟨s, hs, hcov⟩
          exact ⟨s, ((hmem s).mp hs).2, hcov⟩

/-! ## Runs of requests -/

/-- A page of a live range. -/
def LivePage (live : List PageRange) (a : Nat) : Prop :=
  a % PG_SIZE = 0 ∧ ∃ r ∈ live, r.Covers a

/-- The bitmaps and the page tables say the same as the list of live ranges. -/
structure Consistent (m : Memory) (live : List PageRange) : Prop where
  aligned : ∀ r ∈ live, r.vaddr % PG_SIZE = 0
  disjoint : live.Pairwise PageRange.Apart
  /-- the live pages are the set bits of the virtual bitmap -/
  pages : ∀ a, LivePage live a ↔ ∃ i < m.kernelVaddr.vaddrBitmap.size,
    m.kernelVaddr.vaddrBitmap.bit i = true ∧ a = m.kernelVaddr.vaddrStart + PG_SIZE * i
  /-- each maps to a frame, and no two to the same -/
  mapped : ∀ a, LivePage live a → ∃ fr, m.mmu.walk a = .ok fr
  own : ∀ a b, LivePage live a → LivePage live b → m.mmu.walk a = m.mmu.walk b → a = b
  /-- those frames are the set bits of the frame bitmap -/
  frames : ∀ fr, (∃ a, LivePage live a ∧ m.mmu.walk a = .ok fr) ↔
    ∃ k < m.kernelPool.poolBitmap.size, m.kernelPool.poolBitmap.bit k = true ∧
      fr = m.kernelPool.phyAddrStart / PG_SIZE + k

theorem LiveRanges.livePage {m : Memory} {f : Nat → Option Nat} {live : List PageRange}
    (h : LiveRanges m f live) {a : Nat} :
    LivePage live a ↔ ∃ i k, f i = some k ∧ a = pageAddr i := by
  constructor
  · rintro ⟨hal, r, hr, hcov⟩
    obtain ⟨s, hs, -⟩ := h.placed r hr
    have hge : pageAddr s ≤ a := hs ▸ hcov.1
    have ha : a = pageAddr ((a - K_HEAP_START) / PG_SIZE) := by
      unfold pageAddr K_HEAP_START PG_SIZE at *; omega
    obtain ⟨k, hk⟩ := Option.isSome_iff_exists.mp ((h.owned _).mpr ⟨r, hr, ha ▸ hcov⟩)
    exact ⟨_, k, hk, ha⟩
  · rintro ⟨i, k, hf, rfl⟩
    refine ⟨by unfold pageAddr K_HEAP_START PG_SIZE; omega, ?_⟩
    exact (h.owned i).mp (by simp [hf])

theorem Mapped.walk {m : Memory} {f : Nat → Option Nat} (h : Mapped m f) {i k : Nat}
    (hf : f i = some k) : m.mmu.walk (pageAddr i) = .ok (USED_MEM / PG_SIZE + k) := by
  rw [h.dir.walk (h.page (h.bound i k hf).1), h.present i k hf, if_neg (by
    have := frameAddr_mod k; omega)]
  congr 1
  unfold frameAddr USED_MEM PG_SIZE
  omega

theorem PagesOk.consistent {m : Memory} {live : List PageRange} (h : PagesOk m live) :
    Consistent m live := by
  obtain ⟨f, hmap, hlive⟩ := h
  refine ⟨fun r hr => ?_, hlive.apart, fun a => ?_, fun a ha => ?_, fun a b ha hb hw => ?_,
    fun fr => ?_⟩
  · obtain ⟨i, hi, -⟩ := hlive.placed r hr
    rw [hi]
    unfold pageAddr K_HEAP_START PG_SIZE
    omega
  · rw [hlive.livePage, hmap.vstart]
    constructor
    · rintro ⟨i, k, hf, rfl⟩
      have hi := (hmap.bound i k hf).1
      exact ⟨i, hi, by rw [hlive.marked i hi, hf]; rfl, rfl⟩
    · rintro ⟨i, hi, hb, rfl⟩
      rw [hlive.marked i hi] at hb
      obtain ⟨k, hk⟩ := Option.isSome_iff_exists.mp hb
      exact ⟨i, k, hk, rfl⟩
  · obtain ⟨i, k, hf, rfl⟩ := hlive.livePage.mp ha
    exact ⟨_, hmap.walk hf⟩
  · obtain ⟨i, k, hf, rfl⟩ := hlive.livePage.mp ha
    obtain ⟨j, l, hg, rfl⟩ := hlive.livePage.mp hb
    rw [hmap.walk hf, hmap.walk hg, Except.ok.injEq] at hw
    have hkl : k = l := by omega
    rw [hmap.distinct i j k hf (hkl ▸ hg)]
  · rw [hmap.kstart]
    constructor
    · rintro ⟨a, ha, hw⟩
      obtain ⟨i, k, hf, rfl⟩ := hlive.livePage.mp ha
      rw [hmap.walk hf, Except.ok.injEq] at hw
      have hk := (hmap.bound i k hf).2
      exact ⟨k, hk, (hmap.taken k hk).mpr ⟨i, hf⟩, hw.symm⟩
    · rintro ⟨k, hk, hb, rfl⟩
      obtain ⟨i, hf⟩ := (hmap.taken k hk).mp hb
      exact ⟨pageAddr i, hlive.livePage.mpr ⟨i, k, hf, rfl⟩, hmap.walk hf⟩

/-- The kernel's memory with the ranges its callers hold. -/
structure KernelPages where
  mem : Memory
  live : List PageRange

inductive PageCall
  | mallocPage (pgCnt : Nat)
  | mfreePage (r : PageRange)

/-- A run of free pages and as many free frames. -/
def Grantable (m : Memory) (pgCnt : Nat) : Prop :=
  (∃ s, ClearRun m.kernelVaddr.vaddrBitmap.bits m.kernelVaddr.vaddrBitmap.size s pgCnt) ∧
    pgCnt ≤ m.kernelPool.poolBitmap.free.card

namespace KernelPages

def exec (k : KernelPages) : PageCall → Except Fault KernelPages
  | .mallocPage pgCnt => do
    let (vaddr, mem) ← ZhuOS.mallocPage k.mem .PF_KERNEL pgCnt
    match vaddr with
    | none => return { k with mem }
    | some vaddr => return { mem, live := ⟨vaddr, pgCnt⟩ :: k.live }
  | .mfreePage r => do
    let mem ← ZhuOS.mfreePage k.mem .PF_KERNEL r.vaddr r.pgCnt
    return { mem, live := k.live.erase r }

/-- Requests stay below the limit `malloc_page` asserts. -/
def guard (k : KernelPages) : PageCall → Prop
  | .mallocPage pgCnt => 0 < pgCnt ∧ pgCnt < 3840 ∧ Grantable k.mem pgCnt
  | .mfreePage r => r ∈ k.live

def system : Guarded.System KernelPages PageCall Fault := ⟨guard, exec⟩

/-- A granted request adds a range of its length. -/
theorem exec_mallocPage {k : KernelPages} (h : PagesOk k.mem k.live) {n : Nat}
    (hg : k.guard (.mallocPage n)) :
    ∃ v k', k.exec (.mallocPage n) = .ok k' ∧ k'.live = ⟨v, n⟩ :: k.live ∧
      PagesOk k'.mem k'.live ∧ k.mem.Frame k'.mem := by
  obtain ⟨hpos, hlt, ⟨s, hs⟩, hfree⟩ := hg
  obtain ⟨i, m', hm', -, hok, hframe⟩ := mallocPage_pages h ⟨hpos, hlt⟩ hs hfree
  exact ⟨pageAddr i, ⟨m', _⟩, by simp only [exec, hm', ok_bind]; rfl, rfl, hok, hframe⟩

theorem exec_mfreePage {k : KernelPages} (h : PagesOk k.mem k.live) {r : PageRange}
    (hg : k.guard (.mfreePage r)) :
    ∃ k', k.exec (.mfreePage r) = .ok k' ∧ PagesOk k'.mem k'.live ∧ k.mem.Frame k'.mem := by
  obtain ⟨m', hm', hok, hframe⟩ := mfreePage_pages h hg
  exact ⟨⟨m', _⟩, by simp only [exec, hm', ok_bind]; rfl, hok, hframe⟩

theorem keeps (m₀ : Memory) :
    Guarded.Keeps system fun k => PagesOk k.mem k.live ∧ m₀.Frame k.mem := by
  intro k e ⟨hk, hframe₀⟩ hg
  cases e with
  | mallocPage n =>
    obtain ⟨_, k', hk', -, hok, hframe⟩ := exec_mallocPage hk hg
    exact ⟨k', hk', hok, hframe₀.trans hframe⟩
  | mfreePage r =>
    obtain ⟨k', hk', hok, hframe⟩ := exec_mfreePage hk hg
    exact ⟨k', hk', hok, hframe₀.trans hframe⟩

end KernelPages

/-- The page tables as the loader leaves them: no heap page is mapped. -/
structure LoaderPaging (m : Mmu) : Prop extends LoaderDir m where
  absent : ∀ i < HEAP_PAGES, pteOf m i % 2 = 0

/-- The state `mem_pool_init` leaves, with nothing handed out. -/
def KernelPages.boot (mmu : Mmu) (running : Task) (byteAt : Nat → UInt8) (allMem : Nat) :
    KernelPages :=
  { mem := memPoolInit mmu running byteAt allMem, live := [] }

theorem kernelFreePages_lt (allMem : Nat) : (poolLayout allMem).kernelFreePages < 2 ^ 15 := by
  simp only [poolLayout]
  omega

section memPoolInit

variable {mmu : Mmu} {running : Task} {byteAt : Nat → UInt8} {allMem : Nat}

theorem memPoolInit_frames :
    (memPoolInit mmu running byteAt allMem).kernelPool.poolBitmap.size =
      (poolLayout allMem).kbmLength * 8 := rfl

theorem memPoolInit_pageBits :
    (memPoolInit mmu running byteAt allMem).kernelVaddr.vaddrBitmap.size =
      (poolLayout allMem).kbmLength * 8 := rfl

theorem memPoolInit_frame_free {k : Nat} (hk : k < (poolLayout allMem).kbmLength * 8) :
    (memPoolInit mmu running byteAt allMem).kernelPool.poolBitmap.bit k = false :=
  bitmapInit_bit _ hk

theorem memPoolInit_page_free {i : Nat} (hi : i < (poolLayout allMem).kbmLength * 8) :
    (memPoolInit mmu running byteAt allMem).kernelVaddr.vaddrBitmap.bit i = false :=
  bitmapInit_bit _ hi

theorem kbmLength_le (allMem : Nat) :
    (poolLayout allMem).kbmLength * 8 ≤ (poolLayout allMem).kernelFreePages :=
  Nat.div_mul_le_self _ 8

theorem memPoolInit_pages (hl : LoaderPaging mmu) :
    PagesOk (memPoolInit mmu running byteAt allMem) [] := by
  have hk := kernelFreePages_lt allMem
  have hlen := kbmLength_le allMem
  refine ⟨fun _ => none, ⟨⟨hl.toLoaderDir, rfl, rfl, ?_, ?_, ?_⟩, ?_, ?_, ?_, ?_, ?_⟩, ?_⟩
  · rw [memPoolInit_pageBits]; omega
  · rw [memPoolInit_frames]; omega
  · have hup : (memPoolInit mmu running byteAt allMem).userPool.phyAddrStart =
        USED_MEM + (poolLayout allMem).kernelFreePages * PG_SIZE := rfl
    rw [memPoolInit_frames, hup]
    unfold frameAddr PG_SIZE
    omega
  · exact fun i j k h _ => nomatch h
  · intro k hk
    rw [memPoolInit_frames] at hk
    simp [memPoolInit_frame_free hk, Taken]
  · exact fun i k h => nomatch h
  · exact fun i k h => nomatch h
  · intro i hi _
    rw [memPoolInit_pageBits] at hi
    exact hl.absent i (by unfold HEAP_PAGES; omega)
  · refine ⟨fun i hi => ?_, fun i => by simp, fun r hr => (nomatch hr), List.Pairwise.nil⟩
    rw [memPoolInit_pageBits] at hi
    rw [memPoolInit_page_free hi]
    rfl

theorem memPoolInit_grantable {n : Nat} (hn : n ≤ (poolLayout allMem).kbmLength * 8) :
    Grantable (memPoolInit mmu running byteAt allMem) n := by
  refine ⟨⟨0, ?_, fun j _ hj => ?_⟩, ?_⟩
  · rw [memPoolInit_pageBits]; omega
  · exact memPoolInit_page_free (by omega)
  · have hall : (memPoolInit mmu running byteAt allMem).kernelPool.poolBitmap.free =
        Finset.range ((poolLayout allMem).kbmLength * 8) := by
      ext i
      rw [Bitmap.mem_free, Finset.mem_range, memPoolInit_frames]
      exact and_iff_left_of_imp memPoolInit_frame_free
    rwa [hall, Finset.card_range]

end memPoolInit

theorem kernelPages_ok {mmu : Mmu} (hl : LoaderPaging mmu) {running : Task}
    {byteAt : Nat → UInt8} {allMem : Nat} {calls : List PageCall} {k : KernelPages}
    (hrun : Guarded.Run KernelPages.system (.boot mmu running byteAt allMem) calls k) :
    PagesOk k.mem k.live ∧ (memPoolInit mmu running byteAt allMem).Frame k.mem :=
  hrun.invariant (KernelPages.keeps _) ⟨memPoolInit_pages hl, .refl _⟩

/-- After every run of granted requests and releases the three structures agree,
and the next one goes through: a request adds a range, a release takes it out. -/
theorem kernelPages_run {mmu : Mmu} (hl : LoaderPaging mmu) (running : Task)
    (byteAt : Nat → UInt8) (allMem : Nat) {calls : List PageCall} {k : KernelPages}
    (hrun : Guarded.Run KernelPages.system (.boot mmu running byteAt allMem) calls k) :
    Consistent k.mem k.live ∧
    (∀ n, k.guard (.mallocPage n) → ∃ v k', k.exec (.mallocPage n) = .ok k' ∧
      k'.live = ⟨v, n⟩ :: k.live) ∧
    ∀ r, k.guard (.mfreePage r) → ∃ k', k.exec (.mfreePage r) = .ok k' := by
  have hk := (kernelPages_ok hl hrun).1
  refine ⟨hk.consistent, fun n hg => ?_, fun r hg => ?_⟩
  · obtain ⟨v, k', hk', hlive, -, -⟩ := KernelPages.exec_mallocPage hk hg
    exact ⟨v, k', hk', hlive⟩
  · obtain ⟨k', hk', -, -⟩ := KernelPages.exec_mfreePage hk hg
    exact ⟨k', hk'⟩

/-- The tables of `setup_page`, with nothing mapped in the heap. -/
def loaderMmu : Mmu where
  cr3 := 0x100000
  phys frame word :=
    if frame = 0x100 ∧ 768 ≤ word then
      (if word = 1023 then 0x100 else 0x101 + (word - 768)) * 4096 + 7
    else 0

theorem loaderMmu_paging : LoaderPaging loaderMmu := by
  refine ⟨⟨rfl, rfl, fun k hk => ?_⟩, fun i _ => ?_⟩
  · simp only [loaderMmu, true_and]
    rw [if_pos (by omega), if_neg (by omega), show 768 + k - 768 = k by omega]
  · simp only [pteOf, loaderMmu]
    rw [if_neg (by omega)]

/-- Two pages of a 32 MB machine. -/
theorem kernelPages_run_first :
    let k := KernelPages.boot loaderMmu freshProcess.running (fun _ => 0) 0x2000000
    ∃ v k', k.exec (.mallocPage 2) = .ok k' ∧ k'.live = [⟨v, 2⟩] :=
  (kernelPages_run loaderMmu_paging freshProcess.running (fun _ => 0) 0x2000000 (.nil _)).2.1 2
    ⟨by decide, by decide, memPoolInit_grantable (by decide)⟩

/-- A 32 MB machine has 3840 free pages in a row and as many frames, and the
request for all of them stops the kernel. -/
theorem mallocPage_whole_pool :
    let m := memPoolInit loaderMmu freshProcess.running (fun _ => 0) 0x2000000
    LoaderPaging loaderMmu ∧ Grantable m 3840 ∧
      mallocPage m .PF_KERNEL 3840 = .error .panic := by
  refine ⟨loaderMmu_paging, memPoolInit_grantable (by decide), ?_⟩
  simp only [mallocPage, ASSERT_false (show ¬ (0 < 3840 ∧ 3840 < 3840) by decide), error_bind]

end ZhuOS
