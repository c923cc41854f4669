import ZhuOS.FileBlocks
import ZhuOS.Mkdir

/-!
# Room for a directory

`sys_mkdir` ends when there are a number, a block for the new directory and what the insertion of
its entry claims.
-/

namespace ZhuOS

open ByteMem

set_option maxRecDepth 2000

variable {disk : Bytes} {part : Partition} {nd : Inode} {fs : Fs} {dir : Dir} {parent : Inode}
  {name path : List UInt8} {n : Nat} {lba : UInt32}

theorem inodeBitmapAlloc_total
    (hfree : ∃ i < part.inodeBitmap.size, part.inodeBitmap.bit i = false) :
    ∃ n < part.inodeBitmap.size, inodeBitmapAlloc part = .ok (some n, part.setNumber n) := by
  obtain ⟨n, hscan, hn, -⟩ := bitmapScan_one hfree
  refine ⟨n, hn, ?_⟩
  simp only [inodeBitmapAlloc, hscan, ok_bind]
  rfl

/-- The block with index 0 is the root directory's. -/
theorem mkdirBlock_ends_iff (hl : DiskLayout fs.part)
    (hzero : fs.part.blockBitmap.bit 0 = true) (parentNo : UInt32) :
    (∃ r, mkdirBlock fs n parentNo = .ok r) ↔ 1 ≤ fs.part.blockBitmap.free.card := by
  constructor
  · rintro ⟨r, h⟩
    obtain ⟨⟨r, part⟩, halloc, -⟩ := bind_ok.mp h
    obtain ⟨r, hscan, -⟩ := bind_ok.mp halloc
    obtain ⟨i, -, hi, hfree⟩ := bitmapScan_one_free hscan
    exact Bitmap.free_pos.mpr ⟨i, hi, hfree⟩
  · intro hfree
    obtain ⟨i, hscan, hi, hbit⟩ := bitmapScan_one (Bitmap.free_pos.mp hfree)
    obtain ⟨hd, hidx⟩ := freeBit_block hl hi hbit
    have hne : i ≠ 0 := by
      rintro rfl
      rw [hzero] at hbit
      cases hbit
    have hindex : (fs.part.sb.dataStartLba + UInt32.ofNat i -
        fs.part.sb.dataStartLba).toNat ≠ 0 := by
      rw [hd.idx_eq, hidx]
      exact hne
    have hsync := syncedClaim fs.disk hl hd
    rw [hidx] at hsync
    change bitmapSync fs.disk { fs.part with blockBitmap := bitmapSet fs.part.blockBitmap i true }
      _ _ = _ at hsync
    simp only [mkdirBlock, blockBitmapAlloc, hscan, ok_bind, pure_bind, ASSERT_true hindex, hsync,
      ideWrite_one hd.onDisk]
    exact ⟨_, rfl⟩

theorem mkdirSync_ends_iff (hl : DiskLayout fs.part) (hown : OwnBlocks fs.disk fs.part parent)
    (hat : fs.inodeAt dir.inode = .ok parent) (hsize : parent.iSize.toNat % 24 = 0)
    (hn : n < fs.part.inodeBitmap.size) (hname : name.length ≤ MAX_FILE_NAME_LEN) :
    (∃ r, mkdirSync fs dir name n nd = .ok r) ↔
      EntryRoom fs.disk parent fs.part.blockBitmap.free.card := by
  have hl₀ : DiskLayout (NodeState.mk fs.disk fs.part parent).part := hl
  have hdirect := hown.readable.direct
  constructor
  · rintro ⟨r, h⟩
    obtain ⟨de, -, h⟩ := bind_ok.mp h
    simp only [hat, ok_bind] at h
    obtain ⟨r, hsync, -⟩ := bind_ok.mp h
    exact (syncDirEntry_ends_iff hl₀ hdirect hsize _).mp ⟨r, hsync⟩
  · intro hroom
    obtain ⟨de, hde⟩ : ∃ de, createDirEntry name (.ofNat n) FT_DIRECTORY = .ok de :=
      ⟨_, congrArg (· >>= _) (ASSERT_true hname)⟩
    obtain ⟨⟨b, s⟩, hsync⟩ := (@syncDirEntry_ends_iff ⟨fs.disk, fs.part, parent⟩ de hl₀ hdirect
      hsize fun _ => 0).mpr hroom
    obtain rfl := syncDirEntry_true hsync
    have hins := syncDirEntry_inserted hl₀ hdirect hsync
    have hl' : DiskLayout (fs.setNode dir.inode s).part := (hins.layout hl₀).relist _
    have hmap : (fs.setNode dir.inode s).part.inodeBitmap.size = fs.part.inodeBitmap.size := by
      have honly : BlocksOnly fs.part s.part := hins.only
      exact congrArg Bitmap.size honly.inodeBitmap
    simp only [mkdirSync, hde, hat, hsync, ok_bind, not_true, ↓reduceIte, inodeSync_eq hl'.fits,
      bitmapSync_inode hl' (hmap.symm ▸ hn)]
    exact ⟨_, rfl⟩

/-- What `sys_mkdir` takes in the directory `nd`: a number, a block, and room for the entry. -/
structure MkdirRoom (disk : Bytes) (part : Partition) (nd : Inode) : Prop where
  number : ∃ i < part.inodeBitmap.size, part.inodeBitmap.bit i = false
  first : 1 ≤ part.blockBitmap.free.card
  entry : EntryRoom disk nd (part.blockBitmap.free.card - 1)

theorem EntryRoom.moved {disk' : Bytes} {nd' : Inode} {free : Nat} (h : Moved disk nd disk' nd') :
    EntryRoom disk' nd' free ↔ EntryRoom disk nd free := by
  constructor
  · refine fun hroom => ⟨fun k hk hfull hz => ?_, fun hfull => ?_⟩
    · exact hroom.block k hk ((h.directFull hk.le).mpr hfull) ((h.sectors k (by omega)).trans hz)
    · exact hroom.table ((h.directFull (Nat.le_refl 12)).mpr hfull)
  · refine fun hroom => ⟨fun k hk hfull hz => ?_, fun hfull => ?_⟩
    · exact hroom.block k hk ((h.directFull hk.le).mp hfull)
        ((h.sectors k (by omega)).symm.trans hz)
    · exact hroom.table ((h.directFull (Nat.le_refl 12)).mp hfull)

theorem MkdirRoom.moved (h : Moved disk nd disk parent) (l : List OpenInode) :
    MkdirRoom disk { part with openInodes := l } parent ↔ MkdirRoom disk part nd :=
  ⟨fun hroom => ⟨hroom.number, hroom.first, (EntryRoom.moved h).mp hroom.entry⟩,
    fun hroom => ⟨hroom.number, hroom.first, (EntryRoom.moved h).mpr hroom.entry⟩⟩

theorem mkdirBlock_claims (hl : DiskLayout fs.part) {parentNo : UInt32} {r : Option Inode × Fs}
    (h : mkdirBlock fs n parentNo = .ok r) :
    ∃ lba disk part, Claimed fs.disk fs.part lba disk part ∧ r = (some (newDirInode n lba),
      { fs with
        disk := blit disk (lba.toNat * 512) (dotSector (.ofNat n) parentNo) 0 512, part }) := by
  obtain ⟨made, fs'⟩ := r
  cases made with
  | none =>
    obtain ⟨⟨r, part⟩, halloc, h⟩ := bind_ok.mp h
    obtain ⟨x, hscan, halloc⟩ := bind_ok.mp halloc
    obtain ⟨i, rfl, -, -⟩ := bitmapScan_one_free hscan
    cases halloc
    obtain ⟨⟨⟩, -, h⟩ := bind_ok.mp h
    obtain ⟨disk, -, h⟩ := bind_ok.mp h
    obtain ⟨disk', -, h⟩ := bind_ok.mp h
    cases h
  | some nd =>
    obtain ⟨lba, disk, part, hc, rfl, rfl⟩ := mkdirBlock_ok hl h
    exact ⟨lba, disk, part, hc, rfl⟩

/-- From the block on, once the call has its number. -/
theorem mkdirIn_numbered (hl : DiskLayout fs.part) (hown : OwnBlocks fs.disk fs.part parent)
    (hat : fs.inodeAt dir.inode = .ok parent) (hsize : parent.iSize.toNat % 24 = 0)
    (hzero : fs.part.blockBitmap.bit 0 = true) (hslash : slash ∈ path)
    (hname : (lastName path).length ≤ MAX_FILE_NAME_LEN) (hn : n < fs.part.inodeBitmap.size)
    (halloc : inodeBitmapAlloc fs.part = .ok (some n, fs.part.setNumber n)) :
    (∃ r, mkdirIn fs dir path = .ok r) ↔ 1 ≤ fs.part.blockBitmap.free.card ∧
      EntryRoom fs.disk parent (fs.part.blockBitmap.free.card - 1) := by
  have hl₁ : DiskLayout ({ fs with part := fs.part.setNumber n } : Fs).part := hl.setNumber n
  have hat₁ : ({ fs with part := fs.part.setNumber n } : Fs).inodeAt dir.inode = .ok parent := hat
  have hblock := @mkdirBlock_ends_iff { fs with part := fs.part.setNumber n } n hl₁ hzero parent.iNo
  simp only [mkdirIn, orNull, decide_eq_true hslash, ↓reduceIte, ok_bind, halloc, hat₁]
  by_cases hfirst : 1 ≤ fs.part.blockBitmap.free.card
  · obtain ⟨r, hr⟩ := hblock.mpr hfirst
    obtain ⟨lba, disk, part, hc, rfl⟩ := mkdirBlock_claims hl₁ hr
    have hc : Claimed fs.disk (fs.part.setNumber n) lba disk part := hc
    have hmoved : Moved fs.disk parent (dotsWritten disk part lba n parent).disk parent :=
      ⟨fun _ _ => rfl, fun a ha => hc.same hl₁ ((hown.holds ha).setNumber n) _⟩
    have hopen : part.openInodes = fs.part.openInodes := by
      rw [hc.part_eq]
      rfl
    have hmap : part.inodeBitmap.size = fs.part.inodeBitmap.size := by
      rw [hc.part_eq]
      rfl
    have hcard : part.blockBitmap.free.card = fs.part.blockBitmap.free.card - 1 := by
      have hspent : part.blockBitmap.free.card + 1 = fs.part.blockBitmap.free.card := hc.free_card
      omega
    have hsync := @mkdirSync_ends_iff (newDirInode n lba) { fs with
      disk := (dotsWritten disk part lba n parent).disk, part } dir parent (lastName path) n
      (hc.layout hl₁) (hmoved.own (fun a ha => hc.keeps (ha.setNumber n)) hown)
      ((inodeAt_list hopen).trans hat) hsize (hmap.symm ▸ hn) hname
    simp only [hcard, EntryRoom.moved hmoved] at hsync
    simp only [hr, ok_bind, and_iff_right hfirst, ← hsync]
    constructor
    · rintro ⟨r, h⟩
      obtain ⟨r', hr', -⟩ := bind_ok.mp h
      exact ⟨r', hr'⟩
    · rintro ⟨⟨synced, fs₂⟩, hr'⟩
      cases synced with
      | false => exact ⟨_, bind_ok.mpr ⟨_, hr', rfl⟩⟩
      | true => exact ⟨_, bind_ok.mpr ⟨_, hr', rfl⟩⟩
  · refine ⟨?_, fun hroom => absurd hroom.1 hfirst⟩
    rintro ⟨r, h⟩
    obtain ⟨r', hr', -⟩ := bind_ok.mp h
    exact absurd (hblock.mp ⟨r', hr'⟩) hfirst

/-- In the directory it has found, `sys_mkdir` ends when there is that room. -/
theorem mkdirIn_ends_iff (hl : DiskLayout fs.part) (hown : OwnBlocks fs.disk fs.part parent)
    (hat : fs.inodeAt dir.inode = .ok parent) (hsize : parent.iSize.toNat % 24 = 0)
    (hzero : fs.part.blockBitmap.bit 0 = true) (hslash : slash ∈ path)
    (hname : (lastName path).length ≤ MAX_FILE_NAME_LEN) :
    (∃ r, mkdirIn fs dir path = .ok r) ↔ MkdirRoom fs.disk fs.part parent := by
  have hrest := fun n hn halloc =>
    @mkdirIn_numbered fs dir parent path n hl hown hat hsize hzero hslash hname hn halloc
  constructor
  · rintro ⟨r, h⟩
    obtain ⟨⟨⟩, -, hin⟩ := bind_ok.mp h
    obtain ⟨⟨r', part⟩, halloc, -⟩ := bind_ok.mp hin
    obtain ⟨x, hscan, -⟩ := bind_ok.mp halloc
    obtain ⟨i, -, hi, hfree⟩ := bitmapScan_one_free hscan
    obtain ⟨n, hn, halloc⟩ := inodeBitmapAlloc_total ⟨i, hi, hfree⟩
    obtain ⟨hfirst, hentry⟩ := (hrest n hn halloc).mp ⟨r, h⟩
    exact ⟨⟨i, hi, hfree⟩, hfirst, hentry⟩
  · intro hroom
    obtain ⟨n, hn, halloc⟩ := inodeBitmapAlloc_total hroom.number
    exact (hrest n hn halloc).mpr ⟨hroom.first, hroom.entry⟩

end ZhuOS
