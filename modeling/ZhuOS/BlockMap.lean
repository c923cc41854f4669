import ZhuOS.Fs

/-!
# Allocating inodes and blocks

`fs/file.c`: the two bitmaps of the mounted partition, and the sector of them
that is written back after a change.
-/

namespace ZhuOS

open ByteMem

/-- `inode_bitmap_alloc`. -/
def inodeBitmapAlloc (part : Partition) : Except Fault (Option Nat × Partition) := do
  match ← bitmapScan part.inodeBitmap 1 with
  | none => return (none, part)
  | some bitIdx =>
    return (some bitIdx, { part with inodeBitmap := bitmapSet part.inodeBitmap bitIdx true })

/-- `block_bitmap_alloc`: the address of a free block. -/
def blockBitmapAlloc (part : Partition) : Except Fault (Option UInt32 × Partition) := do
  match ← bitmapScan part.blockBitmap 1 with
  | none => return (none, part)
  | some bitIdx =>
    return (some (part.sb.dataStartLba + UInt32.ofNat bitIdx),
      { part with blockBitmap := bitmapSet part.blockBitmap bitIdx true })

inductive BitmapType
  | INODE_BITMAP
  | BLOCK_BITMAP
  deriving DecidableEq, Repr

/-- The sector of a bitmap that holds the bit is written back. -/
def bitmapSync (disk : Bytes) (part : Partition) (bitIdx : Nat) (btmp : BitmapType) :
    Except Fault Bytes :=
  let offSec := bitIdx / 4096
  let (lba, bits) := match btmp with
    | .INODE_BITMAP => (part.sb.inodeBitmapLba, part.inodeBitmap.bits)
    | .BLOCK_BITMAP => (part.sb.blockBitmapLba, part.blockBitmap.bits)
  ideWrite disk (u32 (lba.toNat + offSec)) (shift bits (offSec * 512)) 1

theorem inodeBitmapAlloc_ok {part part' : Partition} {i : Nat}
    (h : inodeBitmapAlloc part = .ok (some i, part')) :
    i < part.inodeBitmap.size ∧ part.inodeBitmap.bit i = false ∧
      part' = { part with inodeBitmap := bitmapSet part.inodeBitmap i true } := by
  simp only [inodeBitmapAlloc, bind_ok] at h
  obtain ⟨_, hscan, h⟩ := h
  obtain ⟨j, rfl, hj, hfree⟩ := bitmapScan_one_free hscan
  cases h
  exact ⟨hj, hfree, rfl⟩

theorem blockBitmapAlloc_ok {part part' : Partition} {lba : UInt32}
    (h : blockBitmapAlloc part = .ok (some lba, part')) :
    ∃ i < part.blockBitmap.size, part.blockBitmap.bit i = false ∧
      lba = part.sb.dataStartLba + UInt32.ofNat i ∧
      part' = { part with blockBitmap := bitmapSet part.blockBitmap i true } := by
  simp only [blockBitmapAlloc, bind_ok] at h
  obtain ⟨_, hscan, h⟩ := h
  obtain ⟨j, rfl, hj, hfree⟩ := bitmapScan_one_free hscan
  cases h
  exact ⟨j, hj, hfree, rfl, rfl⟩

end ZhuOS
