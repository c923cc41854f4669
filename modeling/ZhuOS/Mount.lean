import ZhuOS.BlockMap

/-!
# Formatting and mounting a partition

`partition_format` lays out a partition and writes its super block from a local
whose bytes nobody has set; `mount_partition` reads one back and rebuilds the two
bitmaps in memory.
-/

namespace ZhuOS

open ByteMem

/-- `DIV_ROUND_UP` on `uint32_t`. -/
def divRoundUp32 (x step : UInt32) : UInt32 := (x + step - 1) / step

/-! ## `partition_format` -/

/-- 1 + 1 + the inode bitmap + the inode table. -/
def usedSects : UInt32 :=
  1 + 1 + divRoundUp32 MAX_FILES_PER_PART BITS_PER_SECTOR +
    divRoundUp32 (UInt32.ofNat SIZEOF_INODE * MAX_FILES_PER_PART) SECTOR_SIZE

/-- `block_bitmap_bit_len`: the blocks left once the bitmap has its sectors. -/
def blockBitmapBitLen (secCnt : UInt32) : UInt32 :=
  let freeSects := secCnt - usedSects
  freeSects - divRoundUp32 freeSects BITS_PER_SECTOR

def blockBitmapSects (secCnt : UInt32) : UInt32 :=
  divRoundUp32 (blockBitmapBitLen secCnt) BITS_PER_SECTOR

/-- The super block `partition_format` fills in; `junk` is the local before. -/
def formatSuperBlock (startLba secCnt : UInt32) (junk : SuperBlock) : SuperBlock :=
  let inodeBitmapSects := divRoundUp32 MAX_FILES_PER_PART BITS_PER_SECTOR
  let inodeTableSects := divRoundUp32 (UInt32.ofNat SIZEOF_INODE * MAX_FILES_PER_PART) SECTOR_SIZE
  let sb := { junk with
    magic := 0x19590318, secCnt, inodeCnt := MAX_FILES_PER_PART, partLbaBase := startLba }
  let sb := { sb with blockBitmapLba := sb.partLbaBase + 2 }
  let sb := { sb with blockBitmapSects := blockBitmapSects secCnt }
  let sb := { sb with inodeBitmapLba := sb.blockBitmapLba + sb.inodeBitmapSects }
  let sb := { sb with inodeBitmapSects }
  let sb := { sb with inodeTableLba := sb.inodeBitmapLba + sb.inodeTableSects }
  let sb := { sb with inodeTableSects }
  let sb := { sb with dataStartLba := sb.inodeTableLba + sb.inodeTableSects }
  { sb with rootInodeNo := 0, dirEntrySize := UInt32.ofNat SIZEOF_DIR_ENTRY }

/-- `while (bit_idx <= last_bit) buf[last_byte] &= ~(1 << bit_idx++)`. -/
def clearBits (at_ : Nat) : (left bitIdx : Nat) → Bytes → Bytes
  | 0, _, buf => buf
  | left + 1, bitIdx, buf =>
    clearBits at_ left (bitIdx + 1)
      (Function.update buf at_ (buf at_ &&& ~~~ (UInt8.ofNat (1 <<< bitIdx))))

/-- The block bitmap of a new partition, in a zeroed buffer. -/
def formatBlockBitmap (bitLen : Nat) : Bytes :=
  let buf : Bytes := Function.update (fun _ => 0) 0 0x01
  let lastByte := bitLen / 8
  let lastBit := bitLen % 8
  let lastSize := 512 - lastByte % 512
  clearBits lastByte (lastBit + 1) 0 (fill buf lastByte lastSize 0xff)

def rootInode (sb : SuperBlock) : Inode where
  iNo := 0
  iSize := sb.dirEntrySize * 2
  iOpenCnts := 0
  writeDeny := false
  iSectors := fun k => if k = 0 then sb.dataStartLba else 0

/-- `.` and `..`, both the root itself. -/
def dotEntry (dots : Nat) : DirEntry where
  filename := fun i => if i < dots then 46 else 0
  iNo := 0
  fType := FT_DIRECTORY

/-- Formats the partition; the disk as it is then. -/
def partitionFormat (part : Partition) (junk : SuperBlock) (heap : Nat → Bool) (disk : Bytes) :
    Except Fault Bytes := do
  let sb := formatSuperBlock part.startLba part.secCnt junk
  let disk ← ideWrite disk (part.startLba + 1).toNat sb.toBytes 1
  let bufSects := max (max sb.blockBitmapSects sb.inodeBitmapSects) sb.inodeTableSects
  let (found, _) := askMalloc heap (bufSects * SECTOR_SIZE).toNat
  orNull found
  let zero : Bytes := fun _ => 0
  let disk ← ideWrite disk sb.blockBitmapLba.toNat
    (formatBlockBitmap (blockBitmapBitLen part.secCnt).toNat) sb.blockBitmapSects.toNat
  let disk ← ideWrite disk sb.inodeBitmapLba.toNat (Function.update zero 0 0x1)
    sb.inodeBitmapSects.toNat
  let disk ← ideWrite disk sb.inodeTableLba.toNat
    (blit zero 0 (rootInode sb).toBytes 0 SIZEOF_INODE) sb.inodeTableSects.toNat
  let dir := blit zero 0 (dotEntry 1).toBytes 0 SIZEOF_DIR_ENTRY
  let dir := blit dir SIZEOF_DIR_ENTRY (dotEntry 2).toBytes 0 SIZEOF_DIR_ENTRY
  ideWrite disk sb.dataStartLba.toNat dir 1

/-- The regions follow each other, each where the one before ends, and the data
blocks lie inside the partition. -/
structure LaidOut (startLba secCnt : UInt32) (sb : SuperBlock) : Prop where
  blockBitmap : sb.blockBitmapLba.toNat = startLba.toNat + 2
  inodeBitmap : sb.inodeBitmapLba.toNat = sb.blockBitmapLba.toNat + sb.blockBitmapSects.toNat
  inodeTable : sb.inodeTableLba.toNat = sb.inodeBitmapLba.toNat + sb.inodeBitmapSects.toNat
  data : sb.dataStartLba.toNat = sb.inodeTableLba.toNat + sb.inodeTableSects.toNat
  inside : sb.dataStartLba.toNat + (blockBitmapBitLen secCnt).toNat ≤ startLba.toNat + secCnt.toNat

theorem usedSects_eq : usedSects = 611 := by decide

theorem inodeTableSects_eq :
    divRoundUp32 (UInt32.ofNat SIZEOF_INODE * MAX_FILES_PER_PART) SECTOR_SIZE = 608 := by decide

/-- Rounding up on 32 bits; a sum that wraps rounds to nothing. -/
theorem divRoundUp32_toNat (x : UInt32) :
    (divRoundUp32 x BITS_PER_SECTOR).toNat = (x.toNat + 4095) % 2 ^ 32 / 4096 := by
  simp only [divRoundUp32, BITS_PER_SECTOR, UInt32.toNat_div, UInt32.toNat_sub, UInt32.toNat_add]
  simp
  omega

theorem blockBitmapBitLen_toNat {secCnt : UInt32} (hsec : 611 < secCnt.toNat) :
    (blockBitmapBitLen secCnt).toNat =
      secCnt.toNat - 611 - (secCnt.toNat - 611 + 4095) % 2 ^ 32 / 4096 := by
  have hlt := secCnt.toNat_lt
  have hfree : (secCnt - usedSects).toNat = secCnt.toNat - 611 := by
    rw [usedSects_eq, UInt32.toNat_sub_of_le _ _ (by simpa [UInt32.le_iff_toNat_le] using hsec.le)]
    rfl
  have hround := divRoundUp32_toNat (secCnt - usedSects)
  rw [hfree] at hround
  have hle : divRoundUp32 (secCnt - usedSects) BITS_PER_SECTOR ≤ secCnt - usedSects := by
    rw [UInt32.le_iff_toNat_le, hround, hfree]
    omega
  rw [blockBitmapBitLen, UInt32.toNat_sub_of_le _ _ hle, hround, hfree]

/-- The second rounding needs no more sectors than the first. -/
theorem blockBitmapSects_le {secCnt : UInt32} (hsec : 611 < secCnt.toNat) :
    (blockBitmapSects secCnt).toNat ≤ (secCnt.toNat - 611 + 4095) % 2 ^ 32 / 4096 := by
  have hlen := blockBitmapBitLen_toNat hsec
  have hlt := secCnt.toNat_lt
  rw [blockBitmapSects, divRoundUp32_toNat, hlen]
  by_cases hwrap : secCnt.toNat - 611 + 4095 < 2 ^ 32
  · rw [Nat.mod_eq_of_lt hwrap]
    omega
  · have hnone : (secCnt.toNat - 611 + 4095) % 2 ^ 32 / 4096 = 0 := by omega
    rw [hnone]
    omega

/-- The layout is right only when the local happened to hold the two sizes. -/
theorem formatSuperBlock_laidOut_iff (startLba secCnt : UInt32) (junk : SuperBlock)
    (hsec : 611 < secCnt.toNat) :
    LaidOut startLba secCnt (formatSuperBlock startLba secCnt junk) ↔
      junk.inodeBitmapSects = blockBitmapSects secCnt ∧ junk.inodeTableSects = 1 ∧
        startLba.toNat + 611 + (blockBitmapSects secCnt).toNat < 2 ^ 32 := by
  have hlen := blockBitmapBitLen_toNat hsec
  have hsects := blockBitmapSects_le hsec
  have hlt := secCnt.toNat_lt
  have hstart := startLba.toNat_lt
  have hjb := junk.inodeBitmapSects.toNat_lt
  have hjt := junk.inodeTableSects.toNat_lt
  have hbb : (startLba + 2).toNat = (startLba.toNat + 2) % 2 ^ 32 := UInt32.toNat_add ..
  have hib : (startLba + 2 + junk.inodeBitmapSects).toNat =
      ((startLba + 2).toNat + junk.inodeBitmapSects.toNat) % 2 ^ 32 := UInt32.toNat_add ..
  have hit : (startLba + 2 + junk.inodeBitmapSects + junk.inodeTableSects).toNat =
      ((startLba + 2 + junk.inodeBitmapSects).toNat + junk.inodeTableSects.toNat) % 2 ^ 32 :=
    UInt32.toNat_add ..
  have hdata : (startLba + 2 + junk.inodeBitmapSects + junk.inodeTableSects + 608).toNat =
      ((startLba + 2 + junk.inodeBitmapSects + junk.inodeTableSects).toNat + 608) % 2 ^ 32 :=
    UInt32.toNat_add ..
  have hone : divRoundUp32 MAX_FILES_PER_PART BITS_PER_SECTOR = 1 := by decide
  rw [← UInt32.toNat_inj, ← UInt32.toNat_inj (a := junk.inodeTableSects),
    show (1 : UInt32).toNat = 1 from rfl]
  constructor
  · rintro ⟨h1, h2, h3, h4, -⟩
    simp only [formatSuperBlock, hone, inodeTableSects_eq, show (1 : UInt32).toNat = 1 from rfl,
      show (608 : UInt32).toNat = 608 from rfl] at h1 h2 h3 h4
    omega
  · rintro ⟨h1, h2, h3⟩
    refine ⟨?_, ?_, ?_, ?_, ?_⟩ <;>
      simp only [formatSuperBlock, hone, inodeTableSects_eq, show (1 : UInt32).toNat = 1 from rfl,
        show (608 : UInt32).toNat = 608 from rfl] <;>
      omega

/-- With a local of zeros the inode bitmap starts where the block bitmap does. -/
theorem formatSuperBlock_zero_overlaps :
    let zero := SuperBlock.ofBytes fun _ => 0
    let sb := formatSuperBlock 2048 161792 zero
    sb.inodeBitmapLba = sb.blockBitmapLba ∧ ¬ LaidOut 2048 161792 sb := by
  refine ⟨by decide, fun h => ?_⟩
  have := h.inodeBitmap
  revert this
  decide

theorem formatSuperBlock_laidOut_some :
    let junk := { SuperBlock.ofBytes fun _ => 0 with inodeBitmapSects := 40, inodeTableSects := 1 }
    LaidOut 2048 161792 (formatSuperBlock 2048 161792 junk) :=
  (formatSuperBlock_laidOut_iff _ _ _ (by decide)).mpr ⟨by decide, by decide, by decide⟩

/-! ## `mount_partition` -/

/-- The callback of `list_traversal`. Whether it asks to stop, the partition and
the memory left. -/
def mountPartition (disk : Bytes) (part : Partition) (partName : List UInt8) (heap : Nat → Bool) :
    Except Fault (Bool × Partition × (Nat → Bool)) := do
  if part.name ≠ partName then return (false, part, heap)
  let (sbBuf, heap) := askMalloc heap 512
  let (sbFound, heap) := askMalloc heap 512
  orPanic sbFound
  orNull sbBuf
  let sector ← ideRead disk (part.startLba + 1).toNat (fun _ => 0) 1
  let sb := SuperBlock.ofBytes sector
  let blockLen := (sb.blockBitmapSects * SECTOR_SIZE).toNat
  let (blockFound, heap) := askMalloc heap blockLen
  orPanic blockFound
  let blockBitmap : Bitmap := ⟨blockLen, fun _ => 0⟩
  let inodeLen := (sb.inodeBitmapSects * SECTOR_SIZE).toNat
  let (inodeFound, heap) := askMalloc heap inodeLen
  orPanic inodeFound
  -- the only bitmap read, from the block bitmap's place into the inode bitmap
  let bits ← ideRead disk sb.blockBitmapLba.toNat (fun _ => 0) sb.inodeBitmapSects.toNat
  return (true, { part with sb, blockBitmap, inodeBitmap := ⟨inodeLen, bits⟩, openInodes := [] },
    heap)

/-- The bit `i` of the map stored from the sector `lba` on. -/
def diskBit (disk : Bytes) (lba : UInt32) (i : Nat) : Bool :=
  PackedBits.bit (shift disk (lba.toNat * 512)) i

/-- A bitmap in memory is the one on disk: `sects` sectors from `lba` on. -/
structure Loaded (disk : Bytes) (b : Bitmap) (lba sects : UInt32) : Prop where
  len : b.btmpBytesLen = sects.toNat * 512
  bits : ∀ i < sects.toNat * 512, b.bits i = disk (lba.toNat * 512 + i)

/-- Both bitmaps are loaded, and nothing used on disk is handed out. -/
structure Mounted (disk : Bytes) (part : Partition) : Prop where
  block : Loaded disk part.blockBitmap part.sb.blockBitmapLba part.sb.blockBitmapSects
  inode : Loaded disk part.inodeBitmap part.sb.inodeBitmapLba part.sb.inodeBitmapSects
  blockFree : ∀ lba part', blockBitmapAlloc part = .ok (some lba, part') →
    ∃ i, lba = part.sb.dataStartLba + UInt32.ofNat i ∧ diskBit disk part.sb.blockBitmapLba i = false
  inodeFree : ∀ i part', inodeBitmapAlloc part = .ok (some i, part') →
    diskBit disk part.sb.inodeBitmapLba i = false

theorem Loaded.diskBit {disk : Bytes} {b : Bitmap} {lba sects : UInt32}
    (h : Loaded disk b lba sects) {i : Nat} (hi : i < b.size) :
    diskBit disk lba i = b.bit i := by
  apply PackedBits.bit_congr
  unfold Bitmap.size at hi
  rw [h.len] at hi
  rw [shift_apply, h.bits (i / 8) (by omega)]

/-- With the bitmaps loaded, an allocation finds what is free on disk. -/
theorem mounted_of_loaded {disk : Bytes} {part : Partition}
    (hb : Loaded disk part.blockBitmap part.sb.blockBitmapLba part.sb.blockBitmapSects)
    (hi : Loaded disk part.inodeBitmap part.sb.inodeBitmapLba part.sb.inodeBitmapSects) :
    Mounted disk part := by
  refine ⟨hb, hi, fun lba part' h => ?_, fun i part' h => ?_⟩
  · obtain ⟨i, hlt, hfree, hlba, -⟩ := blockBitmapAlloc_ok h
    exact ⟨i, hlba, (hb.diskBit hlt).trans hfree⟩
  · obtain ⟨hlt, hfree, -⟩ := inodeBitmapAlloc_ok h
    exact (hi.diskBit hlt).trans hfree

/-- The super block of the file system on a partition. -/
def diskSuperBlock (disk : Bytes) (startLba : UInt32) : SuperBlock :=
  .ofBytes (blit (fun _ => 0) 0 disk ((startLba + 1).toNat * 512) 512)

/-- What a mount that returns `true` has put in memory. -/
theorem mountPartition_ok {disk : Bytes} {part part' : Partition} {partName : List UInt8}
    {heap heap' : Nat → Bool}
    (h : mountPartition disk part partName heap = .ok (true, part', heap')) :
    let sb := diskSuperBlock disk part.startLba
    sb.inodeBitmapSects.toNat ≤ max_lba + 256 ∧ part'.sb = sb ∧
    part'.blockBitmap = ⟨(sb.blockBitmapSects * SECTOR_SIZE).toNat, fun _ => 0⟩ ∧
      part'.inodeBitmap = ⟨(sb.inodeBitmapSects * SECTOR_SIZE).toNat,
        blit (fun _ => 0) 0 disk (sb.blockBitmapLba.toNat * 512)
          (sb.inodeBitmapSects.toNat * 512)⟩ := by
  unfold mountPartition at h
  by_cases hname : part.name ≠ partName
  · rw [if_pos hname] at h
    cases h
  · rw [if_neg hname] at h
    simp only [bind_ok] at h
    obtain ⟨_, -, _, -, sector, hsector, _, -, _, -, bits, hbits, h⟩ := h
    obtain ⟨-, -, rfl⟩ := ideRead_ok hsector
    obtain ⟨-, ⟨-, hmax⟩, rfl⟩ := ideRead_ok hbits
    cases h
    exact ⟨hmax, rfl, rfl, rfl⟩

/-- The images a mount gets right: no block is in use, the block bitmap's size fits
in 32 bits, and the sectors read hold the inode bitmap as well. -/
structure MountsRight (disk : Bytes) (sb : SuperBlock) : Prop where
  fits : sb.blockBitmapSects.toNat * 512 < 2 ^ 32
  noBlock : ∀ i < sb.blockBitmapSects.toNat * 512, disk (sb.blockBitmapLba.toNat * 512 + i) = 0
  inodes : ∀ i < sb.inodeBitmapSects.toNat * 512,
    disk (sb.blockBitmapLba.toNat * 512 + i) = disk (sb.inodeBitmapLba.toNat * 512 + i)

theorem mulSector_toNat (x : UInt32) : (x * SECTOR_SIZE).toNat = x.toNat * 512 % 2 ^ 32 :=
  UInt32.toNat_mul ..

theorem mountPartition_mounted_iff {disk : Bytes} {part part' : Partition} {partName : List UInt8}
    {heap heap' : Nat → Bool}
    (h : mountPartition disk part partName heap = .ok (true, part', heap')) :
    Mounted disk part' ↔ MountsRight disk (diskSuperBlock disk part.startLba) := by
  obtain ⟨hmax, hsb, hblock, hinode⟩ := mountPartition_ok h
  generalize diskSuperBlock disk part.startLba = sb at hmax hsb hblock hinode ⊢
  have hbytes : (sb.inodeBitmapSects * SECTOR_SIZE).toNat = sb.inodeBitmapSects.toNat * 512 := by
    rw [mulSector_toNat]
    unfold max_lba at hmax
    omega
  have hread : ∀ i < sb.inodeBitmapSects.toNat * 512,
      part'.inodeBitmap.bits i = disk (sb.blockBitmapLba.toNat * 512 + i) := by
    intro i hi
    rw [hinode]
    dsimp only
    rw [blit_in (Nat.zero_le _) (by omega), Nat.sub_zero]
  constructor
  · intro hm
    have hlen := hm.block.len
    simp only [hsb, hblock, mulSector_toNat] at hlen
    refine ⟨by omega, fun i hi => ?_, fun i hi => ?_⟩
    · have := hm.block.bits i (by rwa [hsb])
      rw [hsb, hblock] at this
      exact this.symm
    · have := hm.inode.bits i (by rwa [hsb])
      rwa [hsb, hread i hi] at this
  · intro hr
    refine mounted_of_loaded ⟨?_, fun i hi => ?_⟩ ⟨?_, fun i hi => ?_⟩
    · rw [hsb, hblock, mulSector_toNat]
      exact Nat.mod_eq_of_lt hr.fits
    · rw [hsb] at hi ⊢
      rw [hblock, hr.noBlock i hi]
    · rw [hsb, hinode, hbytes]
    · rw [hsb] at hi ⊢
      rw [hread i hi, hr.inodes i hi]

/-- A partition at sector 0 with one-sector bitmaps: block 0 is in use if `used`. -/
def smallImage (used : Bool) : Bytes :=
  let sb := { SuperBlock.ofBytes fun _ => 0 with
    blockBitmapLba := 2, blockBitmapSects := 1, inodeBitmapLba := 3, inodeBitmapSects := 1,
    inodeTableLba := 4, inodeTableSects := 608, dataStartLba := 612, dirEntrySize := 24 }
  let bits : UInt8 := if used then 1 else 0
  fun a => if 512 ≤ a ∧ a < 1024 then sb.toBytes (a - 512)
    else if a = 2 * 512 ∨ a = 3 * 512 then bits else 0

def smallPartition : Partition :=
  { startLba := 0, secCnt := 1024, name := [115, 100, 98, 49]
    sb := .ofBytes fun _ => 0
    blockBitmap := ⟨0, fun _ => 0⟩, inodeBitmap := ⟨0, fun _ => 0⟩, openInodes := [] }

theorem smallImage_superBlock (used : Bool) :
    let sb := diskSuperBlock (smallImage used) smallPartition.startLba
    sb.blockBitmapLba = 2 ∧ sb.blockBitmapSects = 1 ∧ sb.inodeBitmapLba = 3 ∧
      sb.inodeBitmapSects = 1 ∧ sb.dataStartLba = 612 := by
  cases used <;> decide

theorem smallImage_mounts (used : Bool) : ∃ part' heap',
    mountPartition (smallImage used) smallPartition smallPartition.name (fun _ => true) =
      .ok (true, part', heap') := by
  obtain ⟨hlba, hblock, -, hinode, -⟩ := smallImage_superBlock used
  have hsector := @ideRead_one (smallImage used) (fun _ => 0)
    (smallPartition.startLba + 1).toNat (by decide)
  have hbits := @ideRead_one (smallImage used) (fun _ => 0)
    (2 : UInt32).toNat (by decide)
  change (SuperBlock.ofBytes _).blockBitmapLba = _ at hlba
  change (SuperBlock.ofBytes _).blockBitmapSects = _ at hblock
  change (SuperBlock.ofBytes _).inodeBitmapSects = _ at hinode
  simp only [mountPartition, ne_eq, not_true_eq_false, ↓reduceIte, askMalloc, hsector, ok_bind,
    hlba, hblock, hinode]
  exact ⟨_, _, rfl⟩

/-- An image with nothing in use is mounted right. -/
theorem mountPartition_mounted_empty : ∃ part' heap',
    mountPartition (smallImage false) smallPartition smallPartition.name (fun _ => true) =
      .ok (true, part', heap') ∧ Mounted (smallImage false) part' := by
  obtain ⟨part', heap', h⟩ := smallImage_mounts false
  refine ⟨part', heap', h, (mountPartition_mounted_iff h).mpr ?_⟩
  obtain ⟨hlba, hblock, hinode, hsects, -⟩ := smallImage_superBlock false
  have hzero : ∀ a, 1024 ≤ a → smallImage false a = 0 := by
    intro a ha
    simp only [smallImage]
    rw [if_neg (by omega)]
    simp
  have h2 : (2 : UInt32).toNat = 2 := rfl
  have h3 : (3 : UInt32).toNat = 3 := rfl
  refine ⟨by rw [hblock]; decide, fun i _ => ?_, fun i _ => ?_⟩
  · rw [hlba, h2, hzero _ (by omega)]
  · rw [hlba, hinode, h2, h3, hzero _ (by omega), hzero _ (by omega)]

/-- An image whose block 0 is in use: it is the first block handed out. -/
theorem mountPartition_used_block : ∃ part' heap',
    mountPartition (smallImage true) smallPartition smallPartition.name (fun _ => true) =
      .ok (true, part', heap') ∧
    (∃ part'', blockBitmapAlloc part' = .ok (some part'.sb.dataStartLba, part'')) ∧
    diskBit (smallImage true) part'.sb.blockBitmapLba 0 = true ∧
    ¬ Mounted (smallImage true) part' := by
  obtain ⟨part', heap', h⟩ := smallImage_mounts true
  obtain ⟨-, hsb, hblock, -⟩ := mountPartition_ok h
  obtain ⟨hlba, hsects, -, -, -⟩ := smallImage_superBlock true
  have hbit : diskBit (smallImage true) part'.sb.blockBitmapLba 0 = true := by
    rw [hsb, hlba]
    decide
  refine ⟨part', heap', h, ?_, hbit, fun hm => ?_⟩
  · have hlen : part'.blockBitmap.btmpBytesLen = 512 := by
      rw [hblock, hsects]
      rfl
    have hscan : bitmapScan part'.blockBitmap 1 = .ok (some 0) := by
      refine bitmapScan_least (Nat.le_refl _) ⟨⟨?_, fun j _ _ => ?_⟩, fun _ _ => Nat.zero_le _⟩
      · rw [Bitmap.size, hlen]
        decide
      · rw [hblock]
        simp [PackedBits.bit]
    simp only [blockBitmapAlloc, hscan, ok_bind, show UInt32.ofNat 0 = 0 from rfl,
      UInt32.add_zero]
    exact ⟨_, rfl⟩
  · have hbits := hm.block.bits 0 (by rw [hsb, hsects]; decide)
    rw [hblock, hsb, hlba] at hbits
    revert hbits
    decide

end ZhuOS
