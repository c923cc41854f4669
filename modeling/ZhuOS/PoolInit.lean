import ZhuOS.Vaddr

/-!
# The pools `mem_pool_init` lays out

For every memory size the bitmaps are made for, from 4 MB to 512 MB. The page
counts have 16 bits: from 258 MB on, 65536 free frames are forgotten.
-/

namespace ZhuOS

/-- The bytes of the three bitmaps, as start and length. -/
def bitmapRanges (allMem : Nat) : List (Nat × Nat) :=
  let l := poolLayout allMem
  [(MEM_BITMAP_BASE, l.kbmLength), (MEM_BITMAP_BASE + l.kbmLength, l.ubmLength),
    (MEM_BITMAP_BASE + l.kbmLength + l.ubmLength, l.kbmLength)]

/-- The pools lie apart in the memory there is, and the bitmaps below the PCB of
the main thread. -/
structure PoolsFit (allMem : Nat) (m : Memory) : Prop where
  kernelStart : 0x200000 ≤ m.kernelPool.phyAddrStart
  apart : m.kernelPool.phyAddrStart + m.kernelPool.poolSize ≤ m.userPool.phyAddrStart
  userEnd : m.userPool.phyAddrStart + m.userPool.poolSize ≤ allMem
  kernelBits : m.kernelPool.poolBitmap.size * PG_SIZE ≤ m.kernelPool.poolSize
  userBits : m.userPool.poolBitmap.size * PG_SIZE ≤ m.userPool.poolSize
  pageBits : m.kernelVaddr.vaddrBitmap.size * PG_SIZE ≤ m.kernelPool.poolSize
  mapsApart : (bitmapRanges allMem).Pairwise fun a b => a.1 + a.2 ≤ b.1
  mapsEnd : ∀ r ∈ bitmapRanges allMem, r.1 + r.2 ≤ 0xc009e000

/-- And they leave out at most 16 of the whole frames from 2 MB on. -/
structure PoolsRight (allMem : Nat) (m : Memory) : Prop extends PoolsFit allMem m where
  managed : (allMem - 0x200000) / PG_SIZE ≤
    m.kernelPool.poolBitmap.size + m.userPool.poolBitmap.size + 16

/-- The free frames as the code counts them, each half rounded down to whole bytes
of its bitmap. -/
theorem poolLayout_eq {allMem : Nat} (hlo : 0x200000 ≤ allMem) (hhi : allMem < 2 ^ 32) :
    let pages := (allMem - 0x200000) / 4096 % 65536
    let l := poolLayout allMem
    l.kernelFreePages = pages / 2 ∧ l.userFreePages = pages - pages / 2 ∧
      l.kbmLength = pages / 2 / 8 ∧ l.ubmLength = (pages - pages / 2) / 8 ∧
      l.kpStart = 0x200000 ∧ l.upStart = 0x200000 + pages / 2 * 4096 := by
  have hfree : sub32 allMem USED_MEM = allMem - 0x200000 := sub32_eq hlo hhi
  simp only [poolLayout, hfree, PG_SIZE]
  exact ⟨rfl, rfl, rfl, rfl, rfl, rfl⟩

section memPoolInit

variable (mmu : Mmu) (running : Task) (byteAt : Nat → UInt8) {allMem : Nat}

/-- At every size nothing overlaps. -/
theorem memPoolInit_fit (hlo : 0x400000 ≤ allMem) (hhi : allMem ≤ 0x20000000) :
    PoolsFit allMem (memPoolInit mmu running byteAt allMem) := by
  obtain ⟨hk, hu, hkb, hub, hks, hus⟩ := poolLayout_eq (by omega : 0x200000 ≤ allMem) (by omega)
  have hcount : (allMem - 0x200000) / 4096 % 65536 ≤ (allMem - 0x200000) / 4096 := Nat.mod_le _ _
  have hmost : (allMem - 0x200000) / 4096 % 65536 < 65536 := Nat.mod_lt _ (by decide)
  generalize (allMem - 0x200000) / 4096 % 65536 = pages at *
  refine ⟨?_, ?_, ?_, ?_, ?_, ?_, ?_, ?_⟩
  · change 0x200000 ≤ (poolLayout allMem).kpStart
    omega
  · change (poolLayout allMem).kpStart + (poolLayout allMem).kernelFreePages * 4096 ≤
      (poolLayout allMem).upStart
    omega
  · change (poolLayout allMem).upStart + (poolLayout allMem).userFreePages * 4096 ≤ allMem
    omega
  · change (poolLayout allMem).kbmLength * 8 * 4096 ≤ (poolLayout allMem).kernelFreePages * 4096
    omega
  · change (poolLayout allMem).ubmLength * 8 * 4096 ≤ (poolLayout allMem).userFreePages * 4096
    omega
  · change (poolLayout allMem).kbmLength * 8 * 4096 ≤ (poolLayout allMem).kernelFreePages * 4096
    omega
  · simp only [bitmapRanges, List.pairwise_cons, List.mem_cons, List.not_mem_nil, or_false,
      forall_eq_or_imp, forall_eq, List.Pairwise.nil, and_true, IsEmpty.forall_iff, implies_true]
    omega
  · simp only [bitmapRanges, List.mem_cons, List.not_mem_nil, or_false, forall_eq_or_imp,
      forall_eq, MEM_BITMAP_BASE]
    omega

/-- The two halves hold all but a few of the frames the code counts. -/
theorem memPoolInit_managed (hlo : 0x400000 ≤ allMem) (hhi : allMem ≤ 0x20000000) :
    let m := memPoolInit mmu running byteAt allMem
    let pages := (allMem - 0x200000) / 4096 % 65536
    m.kernelPool.poolBitmap.size + m.userPool.poolBitmap.size ≤ pages ∧
      pages ≤ m.kernelPool.poolBitmap.size + m.userPool.poolBitmap.size + 14 := by
  obtain ⟨-, -, hkb, hub, -, -⟩ := poolLayout_eq (by omega : 0x200000 ≤ allMem) (by omega)
  change (poolLayout allMem).kbmLength * 8 + (poolLayout allMem).ubmLength * 8 ≤ _ ∧
    _ ≤ (poolLayout allMem).kbmLength * 8 + (poolLayout allMem).ubmLength * 8 + 14
  omega

/-- A count of free frames that fits in 16 bits is what it takes. -/
theorem memPoolInit_right_iff (hlo : 0x400000 ≤ allMem) (hhi : allMem ≤ 0x20000000) :
    PoolsRight allMem (memPoolInit mmu running byteAt allMem) ↔ allMem < 0x10200000 := by
  obtain ⟨hle, hge⟩ := memPoolInit_managed mmu running byteAt hlo hhi
  constructor
  · intro h
    have := h.managed
    rw [PG_SIZE] at this
    omega
  · intro hfit
    refine ⟨memPoolInit_fit mmu running byteAt hlo hhi, ?_⟩
    rw [PG_SIZE]
    omega

end memPoolInit

/-- A 32 MB machine. -/
theorem memPoolInit_right_32MB :
    PoolsRight 0x2000000
      (memPoolInit freshProcess.mmu freshProcess.running (fun _ => 0) 0x2000000) :=
  (memPoolInit_right_iff _ _ _ (by decide) (by decide)).mpr (by decide)

/-- With 512 MB the pools have 65024 of 130560 frames. -/
theorem memPoolInit_512MB :
    let m := memPoolInit freshProcess.mmu freshProcess.running (fun _ => 0) 0x20000000
    m.kernelPool.poolBitmap.size + m.userPool.poolBitmap.size = 65024 ∧
      (0x20000000 - 0x200000) / PG_SIZE = 130560 ∧ ¬ PoolsRight 0x20000000 m := by
  refine ⟨by decide, by decide, fun h => ?_⟩
  have hle := h.managed
  revert hle
  decide

end ZhuOS
