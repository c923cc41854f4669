import ZhuOS.InodeTable

/-!
# Blocks: who holds them

A block is claimed by setting its bit and writing the bit's sector back, and given
up by clearing it. `DiskLayout` says where the regions of a partition lie;
`blockAt` collects the addresses of an inode's blocks, the indirect table's with
the direct ones.
-/

namespace ZhuOS

open ByteMem

-- `omega` recurses as deep as the sector size
set_option maxRecDepth 2000

/-! ## Claiming and giving up -/

/-- A free block, its bit written back. The index of a bit is never -1, which
`sync_dir_entry` asserts. -/
def claimBlock (disk : Bytes) (part : Partition) :
    Except Fault (Option UInt32 × Bytes × Partition) := do
  let (blockLba, part) ← blockBitmapAlloc part
  match blockLba with
  | none => return (none, disk, part)
  | some blockLba =>
    let blockBitmapIdx := (blockLba - part.sb.dataStartLba).toNat
    let disk ← bitmapSync disk part blockBitmapIdx .BLOCK_BITMAP
    return (some blockLba, disk, part)

/-- `bitmap_set` to 0, and `bitmap_sync`. -/
def freeBlock (disk : Bytes) (part : Partition) (lba : UInt32) :
    Except Fault (Bytes × Partition) := do
  let blockBitmapIdx := (lba - part.sb.dataStartLba).toNat
  let part := { part with blockBitmap := bitmapSet part.blockBitmap blockBitmapIdx false }
  let disk ← bitmapSync disk part blockBitmapIdx .BLOCK_BITMAP
  return (disk, part)

/-- Blocks are claimed and nothing else is. -/
def BlocksOnly (part part' : Partition) : Prop :=
  part' = { part with blockBitmap := part'.blockBitmap }

section
variable {disk disk' : Bytes} {part part' part'' : Partition}

theorem BlocksOnly.trans (h : BlocksOnly part part') (h' : BlocksOnly part' part'') :
    BlocksOnly part part'' := by
  unfold BlocksOnly at *
  rw [h', h]

theorem BlocksOnly.openInodes (h : BlocksOnly part part') :
    part'.openInodes = part.openInodes := by
  unfold BlocksOnly at h
  rw [h]

theorem BlocksOnly.sb (h : BlocksOnly part part') : part'.sb = part.sb := by
  unfold BlocksOnly at h
  rw [h]

theorem BlocksOnly.inodeBitmap (h : BlocksOnly part part') :
    part'.inodeBitmap = part.inodeBitmap := by
  unfold BlocksOnly at h
  rw [h]

theorem claimBlock_only {r : Option UInt32} (h : claimBlock disk part = .ok (r, disk', part')) :
    BlocksOnly part part' := by
  obtain ⟨⟨lba, part₁⟩, ha, h⟩ := bind_ok.mp h
  have honly : BlocksOnly part part₁ := by
    obtain ⟨scanned, -, ha⟩ := bind_ok.mp ha
    cases scanned with
    | none =>
      cases ha
      rfl
    | some i =>
      cases ha
      rfl
  cases lba with
  | none =>
    cases h
    exact honly
  | some lba =>
    obtain ⟨_, -, h⟩ := bind_ok.mp h
    cases h
    exact honly

end

/-! ## The blocks of an inode -/

/-- An inode in memory with the disk and the partition it is on. -/
structure NodeState where
  disk : Bytes
  part : Partition
  inode : Inode

def Inode.setSector (nd : Inode) (k : Nat) (lba : UInt32) : Inode :=
  { nd with iSectors := Function.update nd.iSectors k lba }

/-- `all_blocks` with the direct addresses in it, the rest zero. -/
def directBlocks (nd : Inode) : Nat → UInt32 := fun k => if k < 12 then nd.iSectors k else 0

/-- `all_blocks + 12` filled from a sector. -/
def withTable (blocks : Nat → UInt32) (table : Bytes) : Nat → UInt32 :=
  fun k => if 12 ≤ k ∧ k < 140 then getWord table (4 * (k - 12)) else blocks k

/-- The bytes of `all_blocks + 12`. -/
def tableBytes (blocks : Nat → UInt32) : Bytes := packWords fun k => blocks (12 + k)

/-- The addresses of all blocks of an inode. -/
def allBlocks (disk : Bytes) (nd : Inode) : Except Fault (Nat → UInt32) :=
  if nd.iSectors 12 ≠ 0 then do
    let table ← ideRead disk (nd.iSectors 12).toNat (fun _ => 0) 1
    return withTable (directBlocks nd) table
  else return directBlocks nd

/-- What `allBlocks` collects. -/
def blockAt (disk : Bytes) (nd : Inode) : Nat → UInt32 :=
  if nd.iSectors 12 ≠ 0 then
    withTable (directBlocks nd) (shift disk ((nd.iSectors 12).toNat * 512))
  else directBlocks nd

variable {disk disk' : Bytes} {part part' : Partition} {nd : Inode} {k : Nat} {lba : UInt32}

@[simp] theorem setSector_self (nd : Inode) (k : Nat) (lba : UInt32) :
    (nd.setSector k lba).iSectors k = lba := by
  simp [Inode.setSector]

theorem setSector_other {i : Nat} (h : i ≠ k) :
    (nd.setSector k lba).iSectors i = nd.iSectors i := by
  simp [Inode.setSector, h]

theorem blockAt_direct (hk : k < 12) : blockAt disk nd k = nd.iSectors k := by
  unfold blockAt
  split
  · rw [withTable, if_neg (by omega), directBlocks, if_pos hk]
  · rw [directBlocks, if_pos hk]

theorem blockAt_noTable (ht : nd.iSectors 12 = 0) (hk : 12 ≤ k) : blockAt disk nd k = 0 := by
  rw [blockAt, if_neg (by simp [ht]), directBlocks, if_neg (by omega)]

theorem blockAt_table (ht : nd.iSectors 12 ≠ 0) (hk : 12 ≤ k) (hk' : k < 140) :
    blockAt disk nd k = getWord disk ((nd.iSectors 12).toNat * 512 + 4 * (k - 12)) := by
  rw [blockAt, if_pos ht, withTable, if_pos ⟨hk, hk'⟩, getWord_shift]

theorem blockAt_far (hk : 140 ≤ k) : blockAt disk nd k = 0 := by
  unfold blockAt
  split
  · rw [withTable, if_neg (by omega), directBlocks, if_neg (by omega)]
  · rw [directBlocks, if_neg (by omega)]

theorem allBlocks_eq (ht : nd.iSectors 12 ≠ 0 → (nd.iSectors 12).toNat ≤ max_lba) :
    allBlocks disk nd = .ok (blockAt disk nd) := by
  unfold allBlocks blockAt
  split
  · rename_i hne
    simp only [ideRead_one (ht hne), ok_bind]
    refine congrArg Except.ok (funext fun k => ?_)
    unfold withTable
    split
    · refine getWord_congr fun i hi => ?_
      rw [blit_in (by omega) (by omega), shift_apply, Nat.sub_zero]
    · rfl
  · rfl

/-- The addresses depend on the inode's sectors and on its table. -/
theorem blockAt_congr {nd' : Inode} (hnd : ∀ k < 13, nd'.iSectors k = nd.iSectors k)
    (ht : nd.iSectors 12 ≠ 0 → Same disk' disk ((nd.iSectors 12).toNat * 512) 512) :
    blockAt disk' nd' = blockAt disk nd := by
  funext k
  by_cases hlow : k < 12
  · rw [blockAt_direct hlow, blockAt_direct hlow, hnd k (by omega)]
  · by_cases hfar : 140 ≤ k
    · rw [blockAt_far hfar, blockAt_far hfar]
    · have h12 := hnd 12 (by decide)
      by_cases hz : nd.iSectors 12 = 0
      · rw [blockAt_noTable hz (by omega), blockAt_noTable (h12.trans hz) (by omega)]
      · rw [blockAt_table hz (by omega) (by omega),
          blockAt_table (h12 ▸ hz) (by omega) (by omega), h12]
        exact (ht hz).getWord (by omega) (by omega)

/-- A new direct block joins the others. -/
theorem blockAt_setSector (hk : k < 12)
    (ht : nd.iSectors 12 ≠ 0 → Same disk' disk ((nd.iSectors 12).toNat * 512) 512) (i : Nat) :
    blockAt disk' (nd.setSector k lba) i = if i = k then lba else blockAt disk nd i := by
  have h12 : (nd.setSector k lba).iSectors 12 = nd.iSectors 12 := setSector_other (by omega)
  by_cases hlow : i < 12
  · rw [blockAt_direct hlow, blockAt_direct hlow]
    exact Function.update_apply ..
  · rw [if_neg (by omega)]
    by_cases hfar : 140 ≤ i
    · rw [blockAt_far hfar, blockAt_far hfar]
    · by_cases hz : nd.iSectors 12 = 0
      · rw [blockAt_noTable hz (by omega), blockAt_noTable (h12.trans hz) (by omega)]
      · rw [blockAt_table hz (by omega) (by omega),
          blockAt_table (h12 ▸ hz) (by omega) (by omega), h12]
        exact (ht hz).getWord (by omega) (by omega)

/-! ## Where the regions lie -/

/-- The two bitmaps, the inode table and the data follow one another, and the blocks
that are free lie on the disk. -/
structure DiskLayout (part : Partition) : Prop where
  blockMapLen : part.blockBitmap.btmpBytesLen = part.sb.blockBitmapSects.toNat * 512
  inodeMapLen : part.inodeBitmap.btmpBytesLen = part.sb.inodeBitmapSects.toNat * 512
  blockMap : part.sb.blockBitmapLba.toNat + part.sb.blockBitmapSects.toNat ≤
    part.sb.inodeBitmapLba.toNat
  inodeMap : part.sb.inodeBitmapLba.toNat + part.sb.inodeBitmapSects.toNat ≤
    part.sb.inodeTableLba.toNat
  table : part.sb.inodeTableLba.toNat + 608 ≤ part.sb.dataStartLba.toNat
  onDisk : part.sb.dataStartLba.toNat ≤ max_lba
  inPart : part.sb.dataStartLba.toNat ≤ (part.startLba + part.secCnt).toNat
  blocks : ∀ i < part.blockBitmap.size, part.blockBitmap.bit i = false →
    part.sb.dataStartLba.toNat + i ≤ max_lba
  entrySize : part.sb.dirEntrySize = 24

theorem DiskLayout.fits (hl : DiskLayout part) : TableFits part := by
  have h := hl.table
  have hd := hl.onDisk
  have hp := hl.inPart
  exact ⟨by omega, by omega⟩

/-- The records of the inode table lie before the data. -/
theorem record_outside (hl : DiskLayout part) (nd : Inode) (src : Bytes)
    (ha : part.sb.dataStartLba.toNat ≤ lba.toNat) :
    Same (blit disk (inodeAddr part (nd.iNo.toNat % 2 ^ 8)) src 0 SIZEOF_INODE) disk
      (lba.toNat * 512) 512 := by
  have ht := hl.table
  apply blit_same
  unfold inodeAddr SIZEOF_INODE
  omega

/-- The bit of a block. -/
def blockIdx (part : Partition) (lba : UInt32) : Nat := lba.toNat - part.sb.dataStartLba.toNat

theorem blockIdx_sb {part part' : Partition} (h : part'.sb = part.sb) (lba : UInt32) :
    blockIdx part' lba = blockIdx part lba := by
  rw [blockIdx, blockIdx, h]

/-- An address in the data area. -/
structure DataBlock (part : Partition) (lba : UInt32) : Prop where
  start : part.sb.dataStartLba.toNat ≤ lba.toNat
  onDisk : lba.toNat ≤ max_lba
  inMap : blockIdx part lba < part.blockBitmap.size

/-- A block that the bitmap marks. -/
structure InUse (part : Partition) (lba : UInt32) : Prop extends DataBlock part lba where
  marked : part.blockBitmap.bit (blockIdx part lba) = true

def Partition.setBlock (part : Partition) (i : Nat) (v : Bool) : Partition :=
  { part with blockBitmap := bitmapSet part.blockBitmap i v }

@[simp] theorem setBlock_sb (i : Nat) (v : Bool) : (part.setBlock i v).sb = part.sb := rfl

@[simp] theorem setBlock_size (i : Nat) (v : Bool) :
    (part.setBlock i v).blockBitmap.size = part.blockBitmap.size := rfl

@[simp] theorem setBlock_bit (i j : Nat) (v : Bool) : (part.setBlock i v).blockBitmap.bit j =
    if j = i then v else part.blockBitmap.bit j := bitmapSet_bit ..

@[simp] theorem setBlock_blockIdx (i : Nat) (v : Bool) :
    blockIdx (part.setBlock i v) lba = blockIdx part lba := rfl

theorem DiskLayout.setBlock (hl : DiskLayout part) {i : Nat} {v : Bool}
    (hi : v = false → part.sb.dataStartLba.toNat + i ≤ max_lba) :
    DiskLayout (part.setBlock i v) := by
  refine ⟨hl.blockMapLen, hl.inodeMapLen, hl.blockMap, hl.inodeMap, hl.table, hl.onDisk,
    hl.inPart, fun j hj hfree => ?_, hl.entrySize⟩
  rw [setBlock_bit] at hfree
  split at hfree
  · rename_i hji
    subst hji
    exact hi hfree
  · exact hl.blocks j hj hfree

theorem DiskLayout.claim (hl : DiskLayout part) (i : Nat) : DiskLayout (part.setBlock i true) :=
  hl.setBlock fun hv => Bool.noConfusion hv

/-- The regions are where they are, whatever is open. -/
theorem DiskLayout.relist (hl : DiskLayout part) (l : List OpenInode) :
    DiskLayout { part with openInodes := l } :=
  ⟨hl.blockMapLen, hl.inodeMapLen, hl.blockMap, hl.inodeMap, hl.table, hl.onDisk, hl.inPart,
    hl.blocks, hl.entrySize⟩

theorem InUse.relist (h : InUse part lba) (l : List OpenInode) :
    InUse { part with openInodes := l } lba := ⟨⟨h.start, h.onDisk, h.inMap⟩, h.marked⟩

theorem DataBlock.ne_zero (h : DataBlock part lba) (hl : DiskLayout part) : lba ≠ 0 := by
  rintro rfl
  have hs := h.start
  have ht := hl.table
  simp only [UInt32.toNat_zero] at hs
  omega

theorem DataBlock.addr (h : DataBlock part lba) :
    lba.toNat = part.sb.dataStartLba.toNat + blockIdx part lba := by
  have hs := h.start
  unfold blockIdx
  omega

theorem DataBlock.idx_eq (h : DataBlock part lba) :
    (lba - part.sb.dataStartLba).toNat = blockIdx part lba := by
  have hs := h.start
  rw [UInt32.toNat_sub_of_le _ _ (UInt32.le_iff_toNat_le.mpr hs)]
  rfl

theorem DataBlock.setBlock (h : DataBlock part lba) (i : Nat) (v : Bool) :
    DataBlock (part.setBlock i v) lba := ⟨h.start, h.onDisk, h.inMap⟩

/-- Two different blocks lie apart. -/
theorem sectors_apart {a b : UInt32} (h : a ≠ b) :
    a.toNat * 512 + 512 ≤ b.toNat * 512 ∨ b.toNat * 512 + 512 ≤ a.toNat * 512 := by
  have : a.toNat ≠ b.toNat := fun he => h (UInt32.toNat_inj.mp he)
  omega

/-! ## The bitmaps in memory and on disk -/

/-- The sectors at `lba` hold the map. -/
def MapSynced (disk : Bytes) (lba : Nat) (b : Bitmap) : Prop :=
  ∀ a < b.btmpBytesLen, disk (lba * 512 + a) = b.bits a

/-- Writing back the sector of a changed bit keeps the two in step. -/
theorem mapSynced_set {at_ : Nat} {b : Bitmap} (h : MapSynced disk at_ b) (i : Nat) (v : Bool) :
    MapSynced (blit disk ((at_ + i / 4096) * 512) (bitmapSet b i v).bits (i / 4096 * 512) 512) at_
      (bitmapSet b i v) := by
  intro a ha
  by_cases hin : a / 512 = i / 4096
  · rw [blit_in (by omega) (by omega)]
    exact congrArg _ (by omega)
  · have hbyte : a ≠ i / 8 := by omega
    rw [blit_out (by omega), h a ha]
    unfold bitmapSet
    cases v
    · exact (Function.update_of_ne hbyte ..).symm
    · exact (Function.update_of_ne hbyte ..).symm

/-- The block bitmap's bytes on disk. -/
def BlockMapSynced (disk : Bytes) (part : Partition) : Prop :=
  MapSynced disk part.sb.blockBitmapLba.toNat part.blockBitmap

def InodeMapSynced (disk : Bytes) (part : Partition) : Prop :=
  MapSynced disk part.sb.inodeBitmapLba.toNat part.inodeBitmap

theorem MapSynced.congr {at_ : Nat} {b : Bitmap} (h : MapSynced disk at_ b)
    (hsame : Same disk' disk (at_ * 512) b.btmpBytesLen) : MapSynced disk' at_ b :=
  fun a ha => (hsame _ (by omega) (by omega)).trans (h a ha)

/-- The disk after the sector of a block's bit is written back. -/
def syncBlockMap (disk : Bytes) (part : Partition) (i : Nat) : Bytes :=
  blit disk ((part.sb.blockBitmapLba.toNat + i / 4096) * 512) part.blockBitmap.bits
    (i / 4096 * 512) 512

def syncInodeMap (disk : Bytes) (part : Partition) (i : Nat) : Bytes :=
  blit disk ((part.sb.inodeBitmapLba.toNat + i / 4096) * 512) part.inodeBitmap.bits
    (i / 4096 * 512) 512

theorem bitmapSync_block (hl : DiskLayout part) {i : Nat} (hi : i < part.blockBitmap.size) :
    bitmapSync disk part i .BLOCK_BITMAP = .ok (syncBlockMap disk part i) := by
  have hlen := hl.blockMapLen
  have h1 := hl.blockMap
  have h2 := hl.inodeMap
  have h3 := hl.table
  have h4 := hl.onDisk
  unfold Bitmap.size at hi
  have hsec : part.sb.blockBitmapLba.toNat + i / 4096 ≤ max_lba := by omega
  have hu : u32 (part.sb.blockBitmapLba.toNat + i / 4096) =
      part.sb.blockBitmapLba.toNat + i / 4096 := u32_eq (by unfold max_lba at hsec; omega)
  simp only [bitmapSync, hu, ideWrite_one hsec, blit_shift, syncBlockMap]

theorem bitmapSync_inode (hl : DiskLayout part) {i : Nat} (hi : i < part.inodeBitmap.size) :
    bitmapSync disk part i .INODE_BITMAP = .ok (syncInodeMap disk part i) := by
  have hlen := hl.inodeMapLen
  have h2 := hl.inodeMap
  have h3 := hl.table
  have h4 := hl.onDisk
  unfold Bitmap.size at hi
  have hsec : part.sb.inodeBitmapLba.toNat + i / 4096 ≤ max_lba := by omega
  have hu : u32 (part.sb.inodeBitmapLba.toNat + i / 4096) =
      part.sb.inodeBitmapLba.toNat + i / 4096 := u32_eq (by unfold max_lba at hsec; omega)
  simp only [bitmapSync, hu, ideWrite_one hsec, blit_shift, syncInodeMap]

/-- The disks differ in the block bitmap alone. -/
def OutsideBlockMap (part : Partition) (disk' disk : Bytes) : Prop :=
  ∀ a, a < part.sb.blockBitmapLba.toNat * 512 ∨ part.sb.inodeBitmapLba.toNat * 512 ≤ a →
    disk' a = disk a

theorem syncBlockMap_outside (hl : DiskLayout part) {i : Nat} (hi : i < part.blockBitmap.size) :
    OutsideBlockMap part (syncBlockMap disk part i) disk := by
  intro a ha
  have hlen := hl.blockMapLen
  have h1 := hl.blockMap
  unfold Bitmap.size at hi
  unfold syncBlockMap
  exact blit_out (by omega)

theorem OutsideBlockMap.same (hl : DiskLayout part) (h : OutsideBlockMap part disk' disk)
    (hd : DataBlock part lba) : Same disk' disk (lba.toNat * 512) 512 := by
  intro a hlo _
  have hs := hd.start
  have h2 := hl.inodeMap
  have h3 := hl.table
  exact h a (.inr (by omega))

/-! ## What a claim and a release do -/

/-- `lba` was free and is marked now, in memory and in its sector on disk. -/
structure Claimed (disk : Bytes) (part : Partition) (lba : UInt32) (disk' : Bytes)
    (part' : Partition) : Prop where
  block : DataBlock part lba
  free : part.blockBitmap.bit (blockIdx part lba) = false
  part_eq : part' = part.setBlock (blockIdx part lba) true
  disk_eq : disk' = syncBlockMap disk part' (blockIdx part lba)

/-- The block at a free bit. -/
theorem freeBit_block (hl : DiskLayout part) {i : Nat} (hi : i < part.blockBitmap.size)
    (hfree : part.blockBitmap.bit i = false) :
    DataBlock part (part.sb.dataStartLba + UInt32.ofNat i) ∧
      blockIdx part (part.sb.dataStartLba + UInt32.ofNat i) = i := by
  have hmax := hl.blocks i hi hfree
  have haddr : (part.sb.dataStartLba + UInt32.ofNat i).toNat = part.sb.dataStartLba.toNat + i := by
    unfold max_lba at hmax
    rw [UInt32.toNat_add, UInt32.toNat_ofNat']
    omega
  have hidx : blockIdx part (part.sb.dataStartLba + UInt32.ofNat i) = i := by
    unfold blockIdx
    omega
  exact ⟨⟨by omega, by omega, by omega⟩, hidx⟩

theorem syncedClaim (disk : Bytes) (hl : DiskLayout part) (hd : DataBlock part lba) :
    bitmapSync disk (part.setBlock (blockIdx part lba) true)
      (lba - part.sb.dataStartLba).toNat .BLOCK_BITMAP =
      .ok (syncBlockMap disk (part.setBlock (blockIdx part lba) true) (blockIdx part lba)) := by
  rw [hd.idx_eq]
  exact bitmapSync_block (hl.claim _) hd.inMap

/-- A claim that returns has found a block. -/
theorem claimBlock_ok {r : Option UInt32} (hl : DiskLayout part)
    (h : claimBlock disk part = .ok (r, disk', part')) :
    ∃ lba, r = some lba ∧ Claimed disk part lba disk' part' := by
  simp only [claimBlock, blockBitmapAlloc, bind_ok] at h
  obtain ⟨⟨r1, p1⟩, ⟨_, hscan, halloc⟩, h⟩ := h
  obtain ⟨i, rfl, hi, hfree⟩ := bitmapScan_one_free hscan
  obtain ⟨hd, hidx⟩ := freeBit_block hl hi hfree
  cases halloc
  have hsync := syncedClaim disk hl hd
  rw [hidx] at hsync
  simp only [bind_ok] at h
  obtain ⟨_, hs, h⟩ := h
  obtain rfl := Except.ok.inj (hsync.symm.trans hs)
  cases h
  exact ⟨_, rfl, hd, by rw [hidx]; exact hfree, by rw [hidx]; rfl, by rw [hidx]; rfl⟩

/-- With a free block a claim succeeds. -/
theorem claimBlock_total (hl : DiskLayout part) (disk : Bytes)
    (hfree : 0 < part.blockBitmap.free.card) :
    ∃ lba disk' part', claimBlock disk part = .ok (some lba, disk', part') ∧
      Claimed disk part lba disk' part' := by
  obtain ⟨i, hscan, hi, hbit⟩ := bitmapScan_one (Bitmap.free_pos.mp hfree)
  obtain ⟨hd, hidx⟩ := freeBit_block hl hi hbit
  have hsync := syncedClaim disk hl hd
  rw [hidx] at hsync
  have hrun : claimBlock disk part = .ok (some (part.sb.dataStartLba + UInt32.ofNat i),
      syncBlockMap disk (part.setBlock i true) i, part.setBlock i true) := by
    simp only [claimBlock, blockBitmapAlloc, hscan, ok_bind]
    exact congrArg (· >>= fun d => .ok (some (part.sb.dataStartLba + UInt32.ofNat i), d,
      part.setBlock i true)) hsync
  obtain ⟨_, he, hc⟩ := claimBlock_ok hl hrun
  exact ⟨_, _, _, hrun, Option.some.inj he ▸ hc⟩

namespace Claimed

variable (h : Claimed disk part lba disk' part')
include h

theorem sb : part'.sb = part.sb := h.part_eq ▸ rfl

theorem idx (a : UInt32) : blockIdx part' a = blockIdx part a := by rw [h.part_eq]; rfl

theorem free_card : part'.blockBitmap.free.card + 1 = part.blockBitmap.free.card := by
  rw [h.part_eq]
  exact card_free_bitmapSet_true h.block.inMap h.free

theorem layout (hl : DiskLayout part) : DiskLayout part' := by
  rw [h.part_eq]
  exact hl.claim _

theorem outside (hl : DiskLayout part) : OutsideBlockMap part disk' disk := by
  have hl' := h.layout hl
  rw [h.disk_eq]
  rw [h.part_eq] at hl' ⊢
  exact syncBlockMap_outside hl' h.block.inMap

theorem inUse : InUse part' lba := by
  rw [h.part_eq]
  exact ⟨h.block.setBlock _ _, by simp⟩

theorem keeps {a : UInt32} (ha : InUse part a) : InUse part' a := by
  rw [h.part_eq]
  refine ⟨ha.setBlock _ _, ?_⟩
  rw [setBlock_blockIdx, setBlock_bit]
  split
  · rfl
  · exact ha.marked

theorem ne {a : UInt32} (ha : InUse part a) : a ≠ lba := by
  rintro rfl
  exact absurd (h.free.symm.trans ha.marked) (by decide)

theorem synced (hs : BlockMapSynced disk part) : BlockMapSynced disk' part' := by
  rw [h.disk_eq, h.part_eq]
  exact mapSynced_set hs (blockIdx part lba) true

end Claimed

/-! ## Whose blocks -/

/-- The addresses of an inode's blocks lie on the disk. -/
structure Readable (disk : Bytes) (nd : Inode) : Prop where
  table : (nd.iSectors 12).toNat ≤ max_lba
  blocks : ∀ k < 140, (blockAt disk nd k).toNat ≤ max_lba

/-- The blocks of an inode are its own: in use, and no two the same. -/
structure OwnBlocks (disk : Bytes) (part : Partition) (nd : Inode) : Prop where
  inUse : ∀ k < 140, blockAt disk nd k ≠ 0 → InUse part (blockAt disk nd k)
  table : nd.iSectors 12 ≠ 0 → InUse part (nd.iSectors 12)
  apart : ∀ k < 140, ∀ i < 140, blockAt disk nd k ≠ 0 → blockAt disk nd k = blockAt disk nd i →
    k = i
  tableApart : ∀ k < 140, blockAt disk nd k ≠ 0 → blockAt disk nd k ≠ nd.iSectors 12

theorem OwnBlocks.readable (h : OwnBlocks disk part nd) : Readable disk nd := by
  constructor
  · by_cases hz : nd.iSectors 12 = 0
    · simp [hz]
    · exact (h.table hz).onDisk
  · intro k hk
    by_cases hz : blockAt disk nd k = 0
    · simp [hz]
    · exact (h.inUse k hk hz).onDisk

/-- Blocks in use are left alone by a claim and by what is written to the block. -/
theorem Claimed.same {a : UInt32} (hl : DiskLayout part) (hc : Claimed disk part lba disk' part')
    (ha : InUse part a) (src : Bytes) :
    Same (blit disk' (lba.toNat * 512) src 0 512) disk (a.toNat * 512) 512 :=
  (blit_same (sectors_apart (hc.ne ha))).trans ((hc.outside hl).same hl ha.toDataBlock)

end ZhuOS
