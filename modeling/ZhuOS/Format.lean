import Mathlib.Order.Interval.Finset.Nat
import ZhuOS.Mount
import ZhuOS.Scans

/-!
# The block bitmap of a new partition

`partition_format` sets the last sector of the map from the first bit past the
blocks on, by whole bytes, and clears the bits of the first of them again: up to
and with the remainder, one bit too many.
-/

namespace ZhuOS

open ByteMem PackedBits

/-- The image `partition_format` writes, as a bitmap in memory. -/
def formatBitmap (secCnt : UInt32) : Bitmap :=
  ⟨(blockBitmapSects secCnt).toNat * 512, formatBlockBitmap (blockBitmapBitLen secCnt).toNat⟩

/-! ## Handing out blocks until there are no more -/

/-- One `block_bitmap_alloc` after another. -/
inductive Allocs (part : Partition) : Partition → Prop
  | nil : Allocs part part
  | cons {p p' : Partition} {lba : UInt32} :
    Allocs part p → blockBitmapAlloc p = .ok (some lba, p') → Allocs part p'

/-- A block some allocation of a run returns. -/
def HandsOut (part : Partition) (lba : UInt32) : Prop :=
  ∃ p p', Allocs part p ∧ blockBitmapAlloc p = .ok (some lba, p')

/-- Allocations only take blocks. -/
theorem Allocs.sub {part p : Partition} (h : Allocs part p) :
    p.sb = part.sb ∧ p.blockBitmap.free ⊆ part.blockBitmap.free := by
  induction h with
  | nil => exact ⟨rfl, Finset.Subset.refl _⟩
  | cons _ halloc ih =>
    obtain ⟨i, -, -, -, rfl⟩ := blockBitmapAlloc_ok halloc
    refine ⟨ih.1, fun j hj => ih.2 ?_⟩
    rw [free_bitmapSet_true] at hj
    exact Finset.mem_of_mem_erase hj

/-- While a block is free an allocation takes the first one. -/
theorem blockBitmapAlloc_first {p : Partition} {i : Nat} (hi : i ∈ p.blockBitmap.free) :
    ∃ j ∈ p.blockBitmap.free, j ≤ i ∧
      blockBitmapAlloc p = .ok (some (p.sb.dataStartLba + UInt32.ofNat j),
        { p with blockBitmap := bitmapSet p.blockBitmap j true }) := by
  obtain ⟨hlt, hfree⟩ := Bitmap.mem_free.mp hi
  have hrun : ClearRun p.blockBitmap.bits p.blockBitmap.size i 1 :=
    ⟨by omega, fun k hk hlt' => (show k = i by omega) ▸ hfree⟩
  obtain ⟨j, hj⟩ := exists_leastRun hrun
  have hin := hj.run.inside
  refine ⟨j, Bitmap.mem_free.mpr ⟨by omega, hj.run.clear j (Nat.le_refl _) (by omega)⟩,
    hj.least i hrun, ?_⟩
  simp only [blockBitmapAlloc, bitmapScan_least (Nat.le_refl 1) hj, ok_bind]
  rfl

theorem handsOut_of_free {part : Partition} {i : Nat} (hi : i ∈ part.blockBitmap.free) :
    HandsOut part (part.sb.dataStartLba + UInt32.ofNat i) := by
  -- by how many blocks are free in the partition the run has reached
  suffices h : ∀ n p, Allocs part p → i ∈ p.blockBitmap.free → p.blockBitmap.free.card = n →
      HandsOut part (part.sb.dataStartLba + UInt32.ofNat i) from h _ part .nil hi rfl
  intro n
  induction n with
  | zero =>
    intro p _ hip hcard
    rw [Finset.card_eq_zero.mp hcard] at hip
    cases hip
  | succ n ih =>
    intro p hp hip hcard
    obtain ⟨j, hj, -, halloc⟩ := blockBitmapAlloc_first hip
    by_cases hji : j = i
    · subst hji
      rw [hp.sub.1] at halloc
      exact ⟨p, _, hp, halloc⟩
    · refine ih _ (hp.cons halloc) ?_ ?_
      · rw [free_bitmapSet_true]
        exact Finset.mem_erase.mpr ⟨Ne.symm hji, hip⟩
      · rw [free_bitmapSet_true, Finset.card_erase_of_mem hj, hcard]
        rfl

/-- Allocation after allocation hands out the free blocks and no others. -/
theorem handsOut_iff {part : Partition} {lba : UInt32} :
    HandsOut part lba ↔
      ∃ i ∈ part.blockBitmap.free, lba = part.sb.dataStartLba + UInt32.ofNat i := by
  constructor
  · rintro ⟨p, p', hp, halloc⟩
    obtain ⟨i, hi, hfree, rfl, -⟩ := blockBitmapAlloc_ok halloc
    obtain ⟨hsb, hsub⟩ := hp.sub
    exact ⟨i, hsub (Bitmap.mem_free.mpr ⟨hi, hfree⟩), by rw [hsb]⟩
  · rintro ⟨i, hi, rfl⟩
    exact handsOut_of_free hi

/-! ## The bits of the image -/

theorem ofNat_shift {k : Nat} (hk : k < 8) : UInt8.ofNat (1 <<< k) = mask k := by
  interval_cases k <;> rfl

/-- The loop clears the bits it counts over and no others. -/
theorem clearBits_bit (at_ left bitIdx j : Nat) (buf : Bytes) (h : bitIdx + left ≤ 8) :
    PackedBits.bit (clearBits at_ left bitIdx buf) j =
      (PackedBits.bit buf j &&
        !decide (at_ * 8 + bitIdx ≤ j ∧ j < at_ * 8 + bitIdx + left)) := by
  induction left generalizing bitIdx buf with
  | zero => simp [clearBits, show ¬ (at_ * 8 + bitIdx ≤ j ∧ j < at_ * 8 + bitIdx) by omega]
  | succ left ih =>
    have hstep : Function.update buf at_ (buf at_ &&& ~~~ (UInt8.ofNat (1 <<< bitIdx))) =
        turnOff buf (at_ * 8 + bitIdx) := by
      rw [turnOff, ofNat_shift (by omega), show (at_ * 8 + bitIdx) / 8 = at_ by omega,
        show (at_ * 8 + bitIdx) % 8 = bitIdx by omega]
    rw [clearBits, hstep, ih _ _ (by omega), bit_turnOff, Bool.and_assoc]
    congr 1
    by_cases hj : j = at_ * 8 + bitIdx
    · simp [hj]
    · simp only [ne_eq, hj, not_false_eq_true, decide_true, Bool.true_and]
      congr 2
      exact propext ⟨fun ⟨h1, h2⟩ => ⟨by omega, by omega⟩, fun ⟨h1, h2⟩ => ⟨by omega, by omega⟩⟩

/-- The sector after the last whole one is set, save for bits `8 * (len / 8)` to
`len`; before it only the root's bit is. -/
theorem formatBlockBitmap_bit (len j : Nat) :
    PackedBits.bit (formatBlockBitmap len) j =
      (decide (j = 0 ∨ len / 8 ≤ j / 8 ∧ j / 8 < (len / 4096 + 1) * 512) &&
        !decide (len / 8 * 8 ≤ j ∧ j ≤ len)) := by
  have hlast : len / 8 + (512 - len / 8 % 512) = (len / 4096 + 1) * 512 := by omega
  rw [formatBlockBitmap, clearBits_bit _ _ _ _ _ (by omega)]
  generalize hbuf : (Function.update (fun _ => 0) 0 0x01 : Bytes) = buf
  congr 1
  · by_cases hin : len / 8 ≤ j / 8 ∧ j / 8 < (len / 4096 + 1) * 512
    · have hbyte : fill buf (len / 8) (512 - len / 8 % 512) 0xff (j / 8) = 0xff :=
        fill_in hin.1 (by omega)
      have hset := (byte_full_iff _ (j / 8)).mp hbyte (j % 8) (Nat.mod_lt _ (by decide))
      rw [show j / 8 * 8 + j % 8 = j by omega] at hset
      simp [hset, hin]
    · have hout : j / 8 < len / 8 ∨ len / 8 + (512 - len / 8 % 512) ≤ j / 8 := by omega
      have hbyte : fill buf (len / 8) (512 - len / 8 % 512) 0xff (j / 8) = buf (j / 8) :=
        fill_out hout
      simp only [bit_congr hbyte, hin, or_false]
      subst hbuf
      by_cases hb : j / 8 = 0
      · have hlt : j < 8 := by omega
        interval_cases j <;> rfl
      · simp [PackedBits.bit, Function.update_of_ne hb, show j ≠ 0 by omega]
  · congr 2
    exact propext ⟨fun h => ⟨by omega, by omega⟩, fun h => ⟨by omega, by omega⟩⟩

/-! ## When the image is right -/

/-- The map frees every block but the root's, and its allocations hand those out. -/
structure FreesBlocks (secCnt : UInt32) : Prop where
  bits : ∀ i < (formatBitmap secCnt).size, (formatBitmap secCnt).bit i = false ↔
    1 ≤ i ∧ i < (blockBitmapBitLen secCnt).toNat
  handsOut : ∀ part : Partition, (formatBitmap secCnt).SameMap part.blockBitmap → ∀ lba,
    HandsOut part lba ↔ ∃ i, 1 ≤ i ∧ i < (blockBitmapBitLen secCnt).toNat ∧
      lba = part.sb.dataStartLba + UInt32.ofNat i

/-- Free sectors less one in 4096, rounded up: the blocks of a partition. -/
def partitionBlocks (secCnt : Nat) : Nat := secCnt - 611 - (secCnt - 611 + 4095) / 4096

theorem formatBitmap_size {secCnt : UInt32} (hsec : 611 < secCnt.toNat)
    (hwrap : secCnt.toNat + 3484 < 2 ^ 32) :
    (blockBitmapBitLen secCnt).toNat = partitionBlocks secCnt.toNat ∧
      (formatBitmap secCnt).size = (partitionBlocks secCnt.toNat + 4095) / 4096 * 4096 := by
  have hlen := blockBitmapBitLen_toNat hsec
  rw [Nat.mod_eq_of_lt (by omega)] at hlen
  refine ⟨hlen, ?_⟩
  have hsects : (blockBitmapSects secCnt).toNat = (partitionBlocks secCnt.toNat + 4095) / 4096 := by
    rw [blockBitmapSects, divRoundUp32_toNat, hlen, partitionBlocks]
    exact congrArg (· / 4096) (Nat.mod_eq_of_lt (by omega))
  change (blockBitmapSects secCnt).toNat * 512 * 8 = _
  rw [hsects]
  omega

/-- With the right bits and room for every block, the allocations are right too. -/
theorem freesBlocks_of_bits {secCnt : UInt32}
    (hroom : (blockBitmapBitLen secCnt).toNat ≤ (formatBitmap secCnt).size)
    (hbits : ∀ i < (formatBitmap secCnt).size, (formatBitmap secCnt).bit i = false ↔
      1 ≤ i ∧ i < (blockBitmapBitLen secCnt).toNat) : FreesBlocks secCnt where
  bits := hbits
  handsOut part hb lba := by
    have hfree : part.blockBitmap.free = Finset.Ico 1 (blockBitmapBitLen secCnt).toNat := by
      ext i
      rw [Bitmap.mem_free, Finset.mem_Ico, hb.size]
      constructor
      · rintro ⟨hi, hf⟩
        exact (hbits i hi).mp ((hb.bit hi).symm.trans hf)
      · rintro ⟨hi, hlt⟩
        have hin : i < (formatBitmap secCnt).size := by omega
        exact ⟨hin, (hb.bit hin).trans ((hbits i hin).mpr ⟨hi, hlt⟩)⟩
    simp only [handsOut_iff, hfree, Finset.mem_Ico, and_assoc]

/-- A map of no sectors hands out nothing. -/
theorem not_freesBlocks_empty {secCnt : UInt32} (hempty : (formatBitmap secCnt).size = 0)
    (hlen : 1 < (blockBitmapBitLen secCnt).toNat) : ¬ FreesBlocks secCnt := by
  intro h
  let part : Partition := { smallPartition with blockBitmap := formatBitmap secCnt }
  obtain ⟨i, hi, -⟩ := handsOut_iff.mp ((h.handsOut part (.refl _) _).mpr ⟨1, le_refl _, hlen, rfl⟩)
  have := (Bitmap.mem_free.mp hi).1
  change i < (formatBitmap secCnt).size at this
  omega

/-- Unless the blocks fill the sectors of the image, the bit past them is free in it. -/
theorem formatBitmap_past {secCnt : UInt32} (hsec : 611 < secCnt.toNat)
    (hwrap : secCnt.toNat + 3484 < 2 ^ 32) (hrest : partitionBlocks secCnt.toNat % 4096 ≠ 0) :
    (blockBitmapBitLen secCnt).toNat < (formatBitmap secCnt).size ∧
      (formatBitmap secCnt).bit (blockBitmapBitLen secCnt).toNat = false := by
  obtain ⟨hlen, hsize⟩ := formatBitmap_size hsec hwrap
  refine ⟨by omega, (formatBlockBitmap_bit _ _).trans ?_⟩
  generalize (blockBitmapBitLen secCnt).toNat = len
  rw [decide_eq_true (by omega : len / 8 * 8 ≤ len ∧ len ≤ len)]
  simp

theorem freesBlocks_iff {secCnt : UInt32} (hsec : 611 < secCnt.toNat) :
    FreesBlocks secCnt ↔
      partitionBlocks secCnt.toNat % 4096 = 0 ∧ secCnt.toNat + 3484 < 2 ^ 32 := by
  have hlt := secCnt.toNat_lt
  by_cases hwrap : secCnt.toNat + 3484 < 2 ^ 32
  · obtain ⟨hlen, hsize⟩ := formatBitmap_size hsec hwrap
    constructor
    · intro h
      refine ⟨?_, hwrap⟩
      by_contra hrest
      obtain ⟨hin, hpast⟩ := formatBitmap_past hsec hwrap hrest
      have := ((h.bits _ hin).mp hpast).2
      omega
    · rintro ⟨hfull, -⟩
      refine freesBlocks_of_bits (by omega) fun i hi => ?_
      rw [Bitmap.bit, formatBitmap, formatBlockBitmap_bit, hlen,
        decide_eq_false (by omega : ¬ (_ ≤ i ∧ i ≤ partitionBlocks secCnt.toNat))]
      simp only [Bool.not_false, Bool.and_true, decide_eq_false_iff_not]
      omega
  · have hlen := blockBitmapBitLen_toNat hsec
    refine ⟨fun h => absurd h (not_freesBlocks_empty ?_ (by omega)), fun h => absurd h.2 hwrap⟩
    change (blockBitmapSects secCnt).toNat * 512 * 8 = 0
    have := blockBitmapSects_le hsec
    omega

/-- 4098 free sectors: two for the map by the first rounding, 4096 blocks. -/
theorem freesBlocks_whole : FreesBlocks 4709 :=
  (freesBlocks_iff (by decide)).mpr ⟨by decide, by decide⟩

/-- In a partition of 79 MB the block after the last is free. -/
theorem formatBitmap_one_too_many :
    (blockBitmapBitLen 161792).toNat = 161141 ∧ (formatBitmap 161792).bit 161141 = false ∧
      ¬ FreesBlocks 161792 := by
  have hlen : (blockBitmapBitLen 161792).toNat = 161141 := by decide
  obtain ⟨hin, hpast⟩ := @formatBitmap_past 161792 (by decide) (by decide) (by decide)
  rw [hlen] at hin hpast
  refine ⟨hlen, hpast, fun h => ?_⟩
  have := ((h.bits _ hin).mp hpast).2
  omega

end ZhuOS
