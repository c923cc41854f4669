import ZhuOS.Bitmap
import ZhuOS.Mmu

/-!
# `kernel/memory.c`: frames, virtual ranges and the mapping between them

A frame pool hands out physical pages, a virtual pool hands out runs of pages,
and `mallocPage` puts one behind the other page by page. `none` is the source's
`NULL` or `-1`.
-/

namespace ZhuOS

def MEM_BITMAP_BASE : Nat := 0xc009a000
def K_HEAP_START : Nat := 0xc0100000

/-- `a - b` on `uint32_t`. -/
def sub32 (a b : Nat) : Nat := u32 (a + 2 ^ 32 - b)

inductive PoolFlags
  | PF_KERNEL
  | PF_USER
  deriving DecidableEq, Repr

structure Pool where
  poolBitmap : Bitmap
  phyAddrStart : Nat
  poolSize : Nat
  /-- how often the running thread holds `lock` (`holder_repeat_nr`) -/
  lockDepth : Nat

structure VirtualAddr where
  vaddrBitmap : Bitmap
  vaddrStart : Nat

/-- What `memory.c` reads of `running_thread()`. -/
structure Task where
  pgdir : Option Nat
  userprogVaddr : VirtualAddr

structure Memory where
  mmu : Mmu
  kernelPool : Pool
  userPool : Pool
  kernelVaddr : VirtualAddr
  running : Task

namespace Memory

def pool (m : Memory) : PoolFlags → Pool
  | .PF_KERNEL => m.kernelPool
  | .PF_USER => m.userPool

def setPool (m : Memory) (p : Pool) : PoolFlags → Memory
  | .PF_KERNEL => { m with kernelPool := p }
  | .PF_USER => { m with userPool := p }

def vaddrPool (m : Memory) : PoolFlags → VirtualAddr
  | .PF_KERNEL => m.kernelVaddr
  | .PF_USER => m.running.userprogVaddr

def setVaddrBitmap (m : Memory) (b : Bitmap) : PoolFlags → Memory
  | .PF_KERNEL => { m with kernelVaddr := { m.kernelVaddr with vaddrBitmap := b } }
  | .PF_USER => { m with running := { m.running with
      userprogVaddr := { m.running.userprogVaddr with vaddrBitmap := b } } }

end Memory

/-- `while (cnt < pg_cnt) bitmap_set(b, bit_idx_start + cnt++, value)`. -/
def bitmapSetRun (value : Bool) : (cnt bitIdx : Nat) → Bitmap → Bitmap
  | 0, _, b => b
  | cnt + 1, bitIdx, b => bitmapSetRun value cnt (bitIdx + 1) (bitmapSet b bitIdx value)

/-- The kernel branch multiplies the index by the page size. The user branch
adds the page size to it, and checks the address against the stack page. -/
def vaddrGet (m : Memory) (pf : PoolFlags) (pgCnt : Nat) :
    Except Fault (Option Nat × Memory) := do
  let va := m.vaddrPool pf
  match ← bitmapScan va.vaddrBitmap pgCnt with
  | none => return (none, m)
  | some bitIdxStart =>
    let m := m.setVaddrBitmap (bitmapSetRun true pgCnt bitIdxStart va.vaddrBitmap) pf
    match pf with
    | .PF_KERNEL => return (some (u32 (va.vaddrStart + bitIdxStart * PG_SIZE)), m)
    | .PF_USER =>
      let vaddrStart := u32 (va.vaddrStart + bitIdxStart + PG_SIZE)
      ASSERT (vaddrStart < 0xc0000000 - PG_SIZE)
      return (some vaddrStart, m)

/-- One frame of a pool, as a physical address. -/
def palloc (mPool : Pool) : Except Fault (Option Nat × Pool) := do
  match ← bitmapScan mPool.poolBitmap 1 with
  | none => return (none, mPool)
  | some bitIdx =>
    return (some (u32 (bitIdx * PG_SIZE + mPool.phyAddrStart)),
      { mPool with poolBitmap := bitmapSet mPool.poolBitmap bitIdx true })

def pageTableAdd (m : Memory) (vaddr pagePhyaddr : Nat) : Except Fault Memory := do
  let entry := pagePhyaddr ||| PG_US_U ||| PG_RW_W ||| PG_P_1
  let pde ← m.mmu.load (pdePtr vaddr)
  if pde &&& 0x00000001 ≠ 0 then
    let pte ← m.mmu.load (ptePtr vaddr)
    -- the branch after the `ASSERT` repeats its test and calls `PANIC`
    ASSERT (pte &&& 0x00000001 = 0)
    return { m with mmu := ← m.mmu.store (ptePtr vaddr) entry }
  else
    let (pdePhyaddr, kernelPool) ← palloc m.kernelPool
    let table := pdePhyaddr.getD 0 ||| PG_US_U ||| PG_RW_W ||| PG_P_1
    let mmu ← m.mmu.store (pdePtr vaddr) table
    let mmu ← mmu.clearPage (ptePtr vaddr)
    let pte ← mmu.load (ptePtr vaddr)
    ASSERT (pte &&& 0x00000001 = 0)
    return { m with kernelPool, mmu := ← mmu.store (ptePtr vaddr) entry }

/-- The loop of `malloc_page`; `false` when a frame ran out half way. -/
def mapPages (pf : PoolFlags) : (cnt vaddr : Nat) → Memory → Except Fault (Bool × Memory)
  | 0, _, m => return (true, m)
  | cnt + 1, vaddr, m => do
    let (pagePhyaddr, p) ← palloc (m.pool pf)
    match pagePhyaddr with
    | none => return (false, m)
    | some pagePhyaddr =>
      let m ← pageTableAdd (m.setPool p pf) vaddr pagePhyaddr
      mapPages pf cnt (u32 (vaddr + PG_SIZE)) m

/-- `pgCnt` pages in a row; nothing is given back when a frame runs out. -/
def mallocPage (m : Memory) (pf : PoolFlags) (pgCnt : Nat) :
    Except Fault (Option Nat × Memory) := do
  ASSERT (0 < pgCnt ∧ pgCnt < 3840)
  let (vaddrStart, m) ← vaddrGet m pf pgCnt
  match vaddrStart with
  | none => return (none, m)
  | some vaddrStart =>
    let (mapped, m) ← mapPages pf pgCnt vaddrStart m
    return (if mapped then some vaddrStart else none, m)

def addrV2p (m : Memory) (vaddr : Nat) : Except Fault Nat := do
  let pte ← m.mmu.load (ptePtr vaddr)
  return ((pte &&& 0xfffff000) + (vaddr &&& 0x00000fff))

/-- The address alone decides which pool the frame goes back to. -/
def pfree (m : Memory) (pgPhyAddr : Nat) : Memory :=
  let pf : PoolFlags :=
    if m.userPool.phyAddrStart ≤ pgPhyAddr then .PF_USER else .PF_KERNEL
  let p := m.pool pf
  let bitIdx := sub32 pgPhyAddr p.phyAddrStart / PG_SIZE
  m.setPool { p with poolBitmap := bitmapSet p.poolBitmap bitIdx false } pf

def pageTablePteRemove (m : Memory) (vaddr : Nat) : Except Fault Memory := do
  let pte ← m.mmu.load (ptePtr vaddr)
  return { m with mmu := ← m.mmu.store (ptePtr vaddr) (pte &&& 0xfffffffe) }

def vaddrRemove (m : Memory) (pf : PoolFlags) (vaddr pgCnt : Nat) : Memory :=
  let va := m.vaddrPool pf
  let bitIdxStart := sub32 vaddr va.vaddrStart / PG_SIZE
  m.setVaddrBitmap (bitmapSetRun false pgCnt bitIdxStart va.vaddrBitmap) pf

/-- The two loops of `mfree_page`, which differ in the range they check. -/
def releasePages (inPool : Nat → Bool) : (cnt vaddr : Nat) → Memory → Except Fault Memory
  | 0, _, m => return m
  | cnt + 1, vaddr, m => do
    let pgPhyAddr ← addrV2p m vaddr
    ASSERT (pgPhyAddr % PG_SIZE = 0 ∧ inPool pgPhyAddr = true)
    let m ← pageTablePteRemove (pfree m pgPhyAddr) vaddr
    releasePages inPool cnt (u32 (vaddr + PG_SIZE)) m

def mfreePage (m : Memory) (pf : PoolFlags) (vaddr pgCnt : Nat) : Except Fault Memory := do
  ASSERT (1 ≤ pgCnt ∧ vaddr % PG_SIZE = 0)
  let pgPhyAddr ← addrV2p m vaddr
  ASSERT (pgPhyAddr % PG_SIZE = 0 ∧ 0x102000 ≤ pgPhyAddr)
  let userStart := m.userPool.phyAddrStart
  let kernelStart := m.kernelPool.phyAddrStart
  let m ←
    if userStart ≤ pgPhyAddr then
      releasePages (fun p => decide (userStart ≤ p)) pgCnt vaddr m
    else
      releasePages (fun p => decide (kernelStart ≤ p ∧ p < userStart)) pgCnt vaddr m
  return vaddrRemove m pf vaddr pgCnt

/-! ## `mem_pool_init` -/

/-- The sizes and places `mem_pool_init` computes from the memory size. -/
structure PoolLayout where
  kernelFreePages : Nat
  userFreePages : Nat
  kbmLength : Nat
  ubmLength : Nat
  kpStart : Nat
  upStart : Nat

def USED_MEM : Nat := PG_SIZE * 256 + 0x100000

/-- The page counts are `uint16_t`. -/
def poolLayout (allMem : Nat) : PoolLayout :=
  let freeMem := sub32 allMem USED_MEM
  let allFreePages := freeMem / PG_SIZE % 2 ^ 16
  let kernelFreePages := allFreePages / 2
  let userFreePages := allFreePages - kernelFreePages
  { kernelFreePages, userFreePages
    kbmLength := kernelFreePages / 8
    ubmLength := userFreePages / 8
    kpStart := USED_MEM
    upStart := USED_MEM + kernelFreePages * PG_SIZE }

/-- `mmu` and `running` are as the loader left them; `byteAt` is the memory the
three bitmaps are placed in. -/
def memPoolInit (mmu : Mmu) (running : Task) (byteAt : Nat → UInt8) (allMem : Nat) : Memory :=
  let l := poolLayout allMem
  let mapAt (base len : Nat) : Bitmap := bitmapInit ⟨len, fun i => byteAt (base + i)⟩
  { mmu, running
    kernelPool :=
      { poolBitmap := mapAt MEM_BITMAP_BASE l.kbmLength
        phyAddrStart := l.kpStart
        poolSize := l.kernelFreePages * PG_SIZE
        lockDepth := 0 }
    userPool :=
      { poolBitmap := mapAt (MEM_BITMAP_BASE + l.kbmLength) l.ubmLength
        phyAddrStart := l.upStart
        poolSize := l.userFreePages * PG_SIZE
        lockDepth := 0 }
    kernelVaddr :=
      { vaddrBitmap := mapAt (MEM_BITMAP_BASE + l.kbmLength + l.ubmLength) l.kbmLength
        vaddrStart := K_HEAP_START } }

/-! ## What each step does -/

theorem bitmapSetRun_bit (v : Bool) (cnt i j : Nat) (b : Bitmap) :
    (bitmapSetRun v cnt i b).bit j = if i ≤ j ∧ j < i + cnt then v else b.bit j := by
  induction cnt generalizing i b with
  | zero => simp [bitmapSetRun]
  | succ cnt ih =>
    simp only [bitmapSetRun, ih, bitmapSet_bit]
    by_cases hj : j = i
    · simp [hj]
    · by_cases hin : i + 1 ≤ j ∧ j < i + 1 + cnt
      · rw [if_pos hin, if_pos (by omega)]
      · rw [if_neg hin, if_neg hj, if_neg (by omega)]

@[simp] theorem bitmapSetRun_size (v : Bool) (cnt i : Nat) (b : Bitmap) :
    (bitmapSetRun v cnt i b).size = b.size := by
  induction cnt generalizing i b with
  | zero => rfl
  | succ cnt ih => simp [bitmapSetRun, ih]

theorem sub32_eq {a b : Nat} (h : b ≤ a) (ha : a < 2 ^ 32) : sub32 a b = a - b := by
  unfold sub32 u32
  rw [show a + 2 ^ 32 - b = (a - b) + 2 ^ 32 by omega, Nat.add_mod_right]
  exact Nat.mod_eq_of_lt (by omega)

/-- With a free run in the map, `vaddr_get` takes the first. -/
theorem vaddrGet_kernel {m : Memory} {n s : Nat} (hn : 1 ≤ n)
    (hs : PackedBits.LeastRun m.kernelVaddr.vaddrBitmap.bits m.kernelVaddr.vaddrBitmap.size s n) :
    vaddrGet m .PF_KERNEL n = .ok (some (u32 (m.kernelVaddr.vaddrStart + s * PG_SIZE)),
      m.setVaddrBitmap (bitmapSetRun true n s m.kernelVaddr.vaddrBitmap) .PF_KERNEL) := by
  simp only [vaddrGet, Memory.vaddrPool, bitmapScan_least hn hs, ok_bind]
  rfl

theorem vaddrGet_user {m : Memory} {n s : Nat} (hn : 1 ≤ n)
    (hs : PackedBits.LeastRun m.running.userprogVaddr.vaddrBitmap.bits
      m.running.userprogVaddr.vaddrBitmap.size s n) {r : Option Nat × Memory}
    (h : vaddrGet m .PF_USER n = .ok r) :
    r = (some (u32 (m.running.userprogVaddr.vaddrStart + s + PG_SIZE)),
      m.setVaddrBitmap (bitmapSetRun true n s m.running.userprogVaddr.vaddrBitmap) .PF_USER) := by
  simp only [vaddrGet, Memory.vaddrPool, bitmapScan_least hn hs, ok_bind, bind_ok] at h
  obtain ⟨_, _, h⟩ := h
  cases h
  rfl

/-- Whatever frame `palloc` returns was free. -/
theorem palloc_ok {p p' : Pool} {r : Option Nat} (h : palloc p = .ok (r, p')) :
    ∃ i, i < p.poolBitmap.size ∧ p.poolBitmap.bit i = false ∧
      r = some (u32 (i * PG_SIZE + p.phyAddrStart)) ∧
      p' = { p with poolBitmap := bitmapSet p.poolBitmap i true } := by
  simp only [palloc, bind_ok] at h
  obtain ⟨o, ho, h⟩ := h
  obtain ⟨i, rfl, hi, hfree⟩ := bitmapScan_one_free ho
  cases h
  exact ⟨i, hi, hfree, rfl, rfl⟩

theorem palloc_total {p : Pool} (h : ∃ i < p.poolBitmap.size, p.poolBitmap.bit i = false) :
    ∃ r, palloc p = .ok r := by
  obtain ⟨i, hi, _, _⟩ := bitmapScan_one h
  simp only [palloc, hi, ok_bind]
  exact ⟨_, rfl⟩

end ZhuOS
