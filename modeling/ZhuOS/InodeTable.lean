import ZhuOS.BlockMap

/-!
# `fs/inode.c`: the inode table and the list of open inodes

Records of 76 bytes lie one after the other over the sectors of the table, some
across two. `inode_sync` takes the number through a `uint8_t`.
-/

namespace ZhuOS

open ByteMem

structure InodePosition where
  twoSec : Bool
  secLba : Nat
  offSize : Nat

def inodeLocate (part : Partition) (inodeNo : Nat) : Except Fault InodePosition := do
  ASSERT (inodeNo < 4096)
  let offSize := inodeNo * SIZEOF_INODE
  let offSizeInSec := offSize % 512
  return {
    twoSec := decide (512 - offSizeInSec < SIZEOF_INODE)
    secLba := u32 (part.sb.inodeTableLba.toNat + offSize / 512)
    offSize := offSizeInSec }

/-- The sectors the record touches. -/
def InodePosition.secs (pos : InodePosition) : Nat := if pos.twoSec then 2 else 1

/-- The record as `inode_sync` stores it: not open, and open to writers. -/
def Inode.pure (nd : Inode) : Inode := { nd with iOpenCnts := 0, writeDeny := false }

/-- `inode_sync`; `ioBuf` is the caller's buffer. -/
def inodeSync (disk : Bytes) (part : Partition) (nd : Inode) (ioBuf : Bytes) :
    Except Fault Bytes := do
  let inodeNo := nd.iNo.toNat % 2 ^ 8
  let pos ← inodeLocate part inodeNo
  ASSERT (pos.secLba ≤ (part.startLba + part.secCnt).toNat)
  let buf ← ideRead disk pos.secLba ioBuf pos.secs
  ideWrite disk pos.secLba (blit buf pos.offSize nd.pure.toBytes 0 SIZEOF_INODE) pos.secs

/-- `inode_delete`: the record is cleared. -/
def inodeDelete (disk : Bytes) (part : Partition) (inodeNo : Nat) (ioBuf : Bytes) :
    Except Fault Bytes := do
  ASSERT (inodeNo < 4096)
  let pos ← inodeLocate part inodeNo
  ASSERT (pos.secLba ≤ (part.startLba + part.secCnt).toNat)
  let buf ← ideRead disk pos.secLba ioBuf pos.secs
  ideWrite disk pos.secLba (fill buf pos.offSize SIZEOF_INODE 0) pos.secs

def Fs.askMalloc (fs : Fs) (size : Nat) : Bool × Fs :=
  let (found, heap) := ZhuOS.askMalloc fs.heap size
  (found, { fs with heap })

def Fs.setOpenInodes (fs : Fs) (l : List OpenInode) : Fs :=
  { fs with part := { fs.part with openInodes := l } }

/-- The inode at an address. -/
def Fs.inodeAt (fs : Fs) (ref : Nat) : Except Fault Inode :=
  match fs.part.openInodes.find? (·.ref = ref) with
  | none => .error .badAddress
  | some o => .ok o.inode

/-- The inode at an address is changed. -/
def setInode (ref : Nat) (nd : Inode) (l : List OpenInode) : List OpenInode :=
  l.map fun o => if o.ref = ref then { o with inode := nd } else o

def Fs.setInode (fs : Fs) (ref : Nat) (nd : Inode) : Fs :=
  fs.setOpenInodes (ZhuOS.setInode ref nd fs.part.openInodes)

/-- An address no open inode has. -/
def freshRef (l : List OpenInode) : Nat := (l.map (·.ref)).foldr max 0 + 1

/-- `inode_open`: the address of the inode with this number. -/
def inodeOpen (fs : Fs) (inodeNo : Nat) : Except Fault (Nat × Fs) := do
  match fs.part.openInodes.find? (·.inode.iNo.toNat = inodeNo) with
  | some o =>
    return (o.ref, fs.setInode o.ref { o.inode with iOpenCnts := o.inode.iOpenCnts + 1 })
  | none =>
    let pos ← inodeLocate fs.part inodeNo
    let (inodeFound, fs) := fs.askMalloc SIZEOF_INODE
    let (inodeBuf, fs) := fs.askMalloc (pos.secs * 512)
    orNull inodeBuf
    let buf ← ideRead fs.disk pos.secLba (fun _ => 0) pos.secs
    orNull inodeFound
    let nd := Inode.ofBytes (shift buf pos.offSize)
    let ref := freshRef fs.part.openInodes
    return (ref, fs.setOpenInodes
      (⟨ref, { nd with iOpenCnts := 1 }⟩ :: fs.part.openInodes))

/-- `inode_close`: the last one out takes the inode off the list. -/
def inodeClose (fs : Fs) (ref : Nat) : Except Fault Fs := do
  let nd ← fs.inodeAt ref
  let iOpenCnts := nd.iOpenCnts - 1
  if iOpenCnts = 0 then
    return fs.setOpenInodes (fs.part.openInodes.filter (·.ref ≠ ref))
  else return fs.setInode ref { nd with iOpenCnts }

/-- `inode_init`. -/
def inodeInit (inodeNo : UInt32) : Inode where
  iNo := inodeNo
  iSize := 0
  iOpenCnts := 0
  writeDeny := false
  iSectors := fun _ => 0

/-! ## Where a record lies -/

/-- The first byte of a record. -/
def inodeAddr (part : Partition) (n : Nat) : Nat :=
  part.sb.inodeTableLba.toNat * 512 + n * SIZEOF_INODE

/-- The inode table lies on the disk and in the partition. -/
structure TableFits (part : Partition) : Prop where
  disk : part.sb.inodeTableLba.toNat + 608 ≤ max_lba + 1
  part : part.sb.inodeTableLba.toNat + 608 ≤ (part.startLba + part.secCnt).toNat + 1

/-- The inode stored in a record. -/
def diskInode (disk : Bytes) (part : Partition) (n : Nat) : Inode :=
  .ofBytes (shift disk (inodeAddr part n))

variable {disk ioBuf : Bytes} {part : Partition} {n m : Nat}

theorem records_apart (part : Partition) (h : n ≠ m) :
    inodeAddr part n + SIZEOF_INODE ≤ inodeAddr part m ∨
      inodeAddr part m + SIZEOF_INODE ≤ inodeAddr part n := by
  unfold inodeAddr SIZEOF_INODE
  omega

/-- The located sectors hold the whole record. -/
theorem inodeLocate_ok (ht : TableFits part) (hn : n < 4096) :
    ∃ pos, inodeLocate part n = .ok pos ∧ pos.secLba ≤ max_lba ∧
      pos.secLba ≤ (part.startLba + part.secCnt).toNat ∧
      (pos.secs = 1 ∨ pos.secs = 2) ∧ pos.secLba * 512 + pos.offSize = inodeAddr part n ∧
      pos.offSize + SIZEOF_INODE ≤ pos.secs * 512 := by
  have hd := ht.disk
  have hp := ht.part
  have hsec : n * SIZEOF_INODE / 512 < 608 := by unfold SIZEOF_INODE; omega
  have hlt : u32 (part.sb.inodeTableLba.toNat + n * SIZEOF_INODE / 512) =
      part.sb.inodeTableLba.toNat + n * SIZEOF_INODE / 512 :=
    u32_eq (by unfold max_lba at hd; omega)
  simp only [inodeLocate, ASSERT_true hn, ok_bind, hlt]
  refine ⟨_, rfl, ?_, ?_, ?_, ?_, ?_⟩
  · dsimp only; omega
  · dsimp only; omega
  · unfold InodePosition.secs
    split
    · exact .inr rfl
    · exact .inl rfl
  · dsimp only [inodeAddr]; omega
  · simp only [InodePosition.secs, decide_eq_true_eq]
    unfold SIZEOF_INODE
    split <;> omega

/-- Writing back the sectors of a record changes that record. -/
theorem inodeSync_eq (ht : TableFits part) (nd : Inode) (ioBuf : Bytes) :
    inodeSync disk part nd ioBuf = .ok (blit disk (inodeAddr part (nd.iNo.toNat % 2 ^ 8))
      nd.pure.toBytes 0 SIZEOF_INODE) := by
  obtain ⟨pos, hpos, hlba, hpart, hsecs, haddr, hfit⟩ :=
    inodeLocate_ok ht (show nd.iNo.toNat % 2 ^ 8 < 4096 by omega)
  have hcnt : 0 < pos.secs ∧ pos.secs < 256 := by omega
  simp only [inodeSync, hpos, ok_bind, ASSERT_true hpart, ideRead_few hcnt.1 hcnt.2 hlba,
    ideWrite_few hcnt.1 hcnt.2 hlba, blit_through _ _ _ _ _ hfit, haddr]

theorem inodeDelete_eq (ht : TableFits part) (hn : n < 4096) (ioBuf : Bytes) :
    inodeDelete disk part n ioBuf = .ok (fill disk (inodeAddr part n) SIZEOF_INODE 0) := by
  obtain ⟨pos, hpos, hlba, hpart, hsecs, haddr, hfit⟩ := inodeLocate_ok ht hn
  have hcnt : 0 < pos.secs ∧ pos.secs < 256 := by omega
  simp only [inodeDelete, ASSERT_true hn, hpos, ok_bind, ASSERT_true hpart,
    ideRead_few hcnt.1 hcnt.2 hlba, ideWrite_few hcnt.1 hcnt.2 hlba, fill,
    blit_through _ _ _ _ _ hfit, haddr]

theorem diskInode_congr {disk' : Bytes} (h : Same disk' disk (inodeAddr part n) SIZEOF_INODE) :
    diskInode disk' part n = diskInode disk part n :=
  Inode.ofBytes_congr fun i hi => h _ (by omega) (by omega)

/-- What is read back of a record is what was stored. -/
theorem diskInode_stored (nd : Inode) :
    Inode.SameStored (diskInode (blit disk (inodeAddr part n) nd.toBytes 0 SIZEOF_INODE) part n)
      nd := by
  have : diskInode (blit disk (inodeAddr part n) nd.toBytes 0 SIZEOF_INODE) part n =
      Inode.ofBytes nd.toBytes :=
    Inode.ofBytes_congr fun i hi => by rw [shift_apply, blit_at hi, Nat.zero_add]
  exact this ▸ nd.ofBytes_toBytes

/-- The bytes of the record come through the sectors read. -/
theorem inodeBuf_inode {pos : InodePosition}
    (haddr : pos.secLba * 512 + pos.offSize = inodeAddr part n)
    (hfit : pos.offSize + SIZEOF_INODE ≤ pos.secs * 512) (buf : Bytes) :
    Inode.ofBytes (shift (blit buf 0 disk (pos.secLba * 512) (pos.secs * 512)) pos.offSize) =
      diskInode disk part n := by
  apply Inode.ofBytes_congr
  intro i hi
  rw [shift_apply, shift_apply, blit_in (Nat.zero_le _) (by omega)]
  exact congrArg disk (by omega)

/-- While there is memory, `sys_malloc` changes nothing the file system keeps. -/
theorem Fs.askMalloc_found {fs : Fs} {size : Nat} (hheap : fs.heap = fun _ => true)
    (hsize : 0 < size) : fs.askMalloc size = (true, fs) := by
  simp only [Fs.askMalloc, ZhuOS.askMalloc, hheap, Bool.true_and, decide_eq_true hsize]
  rw [← hheap]

/-- An inode that is not open is read from its record. -/
theorem inodeOpen_miss {fs : Fs} (ht : TableFits fs.part) (hn : n < 4096)
    (hheap : fs.heap = fun _ => true)
    (hmiss : fs.part.openInodes.find? (·.inode.iNo.toNat = n) = none) :
    let ref := freshRef fs.part.openInodes
    inodeOpen fs n = .ok (ref, fs.setOpenInodes
      (⟨ref, { diskInode fs.disk fs.part n with iOpenCnts := 1 }⟩ :: fs.part.openInodes)) := by
  obtain ⟨pos, hpos, hlba, -, hsecs, haddr, hfit⟩ := inodeLocate_ok ht hn
  have hcnt : 0 < pos.secs ∧ pos.secs < 256 := by omega
  simp only [inodeOpen, hmiss, hpos, ok_bind,
    Fs.askMalloc_found hheap (by decide : 0 < SIZEOF_INODE),
    Fs.askMalloc_found hheap (by omega : 0 < pos.secs * 512), orNull_true,
    ideRead_few hcnt.1 hcnt.2 hlba, inodeBuf_inode haddr hfit]
  rfl

theorem inodeAt_head (fs : Fs) (ref : Nat) (nd : Inode) (l : List OpenInode) :
    (fs.setOpenInodes (⟨ref, nd⟩ :: l)).inodeAt ref = .ok nd := by
  simp [Fs.inodeAt, Fs.setOpenInodes]

/-- Whatever an open that misses the list returns was read from the record. -/
theorem inodeOpen_miss_ok {fs fs' : Fs} {ref : Nat} (ht : TableFits fs.part) (hn : n < 4096)
    (hmiss : fs.part.openInodes.find? (·.inode.iNo.toNat = n) = none)
    (h : inodeOpen fs n = .ok (ref, fs')) :
    fs'.inodeAt ref = .ok { diskInode fs.disk fs.part n with iOpenCnts := 1 } := by
  obtain ⟨pos, hpos, hlba, -, hsecs, haddr, hfit⟩ := inodeLocate_ok ht hn
  have hcnt : 0 < pos.secs ∧ pos.secs < 256 := by omega
  simp only [inodeOpen, hmiss, hpos, ok_bind, Fs.askMalloc, bind_ok,
    ideRead_few hcnt.1 hcnt.2 hlba, inodeBuf_inode haddr hfit] at h
  obtain ⟨_, -, _, -, h⟩ := h
  cases h
  exact inodeAt_head ..

/-! ## What `inode_sync` keeps -/

/-- The stored inode comes back when it is opened anew, and no other record has
changed. -/
structure SyncedRight (disk disk' : Bytes) (part : Partition) (nd : Inode) : Prop where
  reopened : ∀ fs : Fs, fs.disk = disk' → fs.part = { part with openInodes := fs.part.openInodes } →
    fs.part.openInodes.find? (·.inode.iNo.toNat = nd.iNo.toNat) = none →
    ∀ ref fs', inodeOpen fs nd.iNo.toNat = .ok (ref, fs') →
      ∃ ino, fs'.inodeAt ref = .ok ino ∧ Inode.SameStored ino nd
  others : ∀ m < 4096, m ≠ nd.iNo.toNat → Same disk' disk (inodeAddr part m) SIZEOF_INODE

/-- The numbers `inode_sync` gets right: those its `uint8_t` holds, and those where
both records already were what they should be. -/
def SyncsRight (disk : Bytes) (part : Partition) (nd : Inode) : Prop :=
  nd.iNo.toNat < 256 ∨ (Inode.SameStored (diskInode disk part nd.iNo.toNat) nd ∧
    ∀ i < SIZEOF_INODE, disk (inodeAddr part (nd.iNo.toNat % 2 ^ 8) + i) = nd.pure.toBytes i)

theorem syncedRight_iff (ht : TableFits part) {nd : Inode} (hn : nd.iNo.toNat < 4096) :
    SyncedRight disk (blit disk (inodeAddr part (nd.iNo.toNat % 2 ^ 8)) nd.pure.toBytes 0
      SIZEOF_INODE) part nd ↔ SyncsRight disk part nd := by
  have hother : ∀ m, m ≠ nd.iNo.toNat % 2 ^ 8 →
      Same (blit disk (inodeAddr part (nd.iNo.toNat % 2 ^ 8)) nd.pure.toBytes 0 SIZEOF_INODE) disk
        (inodeAddr part m) SIZEOF_INODE := fun m hm => blit_same (records_apart part hm)
  constructor
  · intro h
    by_cases hsmall : nd.iNo.toNat < 256
    · exact .inl hsmall
    · have hne : nd.iNo.toNat ≠ nd.iNo.toNat % 2 ^ 8 := by omega
      refine .inr ⟨?_, fun i hi => ?_⟩
      · let fs : Fs :=
          { disk := blit disk (inodeAddr part (nd.iNo.toNat % 2 ^ 8)) nd.pure.toBytes 0 SIZEOF_INODE
            part := { part with openInodes := [] }
            rootDir := 0, fileTable := fun _ => ⟨0, 0, none⟩, fdTable := fun _ => none
            heap := fun _ => true, junk := fun _ => 0 }
        have hopen := @inodeOpen_miss _ fs ⟨ht.disk, ht.part⟩ hn rfl rfl
        obtain ⟨ino, hino, hsame⟩ := h.reopened fs rfl rfl rfl _ _ hopen
        rw [inodeAt_head] at hino
        cases hino
        have heq := diskInode_congr (hother _ hne)
        exact ⟨heq ▸ hsame.iNo, heq ▸ hsame.iSize, heq ▸ hsame.iSectors⟩
      · have := h.others (nd.iNo.toNat % 2 ^ 8) (by omega) (Ne.symm hne)
          (inodeAddr part (nd.iNo.toNat % 2 ^ 8) + i) (by omega) (by omega)
        rw [blit_at hi, Nat.zero_add] at this
        exact this.symm
  · intro h
    have hread : Inode.SameStored (diskInode (blit disk (inodeAddr part (nd.iNo.toNat % 2 ^ 8))
        nd.pure.toBytes 0 SIZEOF_INODE) part nd.iNo.toNat) nd := by
      by_cases hslot : nd.iNo.toNat = nd.iNo.toNat % 2 ^ 8
      · have := @diskInode_stored disk part nd.iNo.toNat nd.pure
        rw [← hslot]
        exact ⟨this.iNo, this.iSize, this.iSectors⟩
      · rw [diskInode_congr (hother _ hslot)]
        rcases h with hsmall | ⟨hsame, -⟩
        · omega
        · exact hsame
    refine ⟨fun fs hdisk hpart hmiss ref fs' hopen => ?_, fun m hm hne => ?_⟩
    · have ht' : TableFits fs.part := by rw [hpart]; exact ⟨ht.disk, ht.part⟩
      refine ⟨_, inodeOpen_miss_ok ht' hn hmiss hopen, ?_⟩
      have haddr : diskInode fs.disk fs.part nd.iNo.toNat =
          diskInode fs.disk part nd.iNo.toNat := by rw [hpart]; rfl
      rw [haddr, hdisk]
      exact ⟨hread.iNo, hread.iSize, hread.iSectors⟩
    · by_cases hslot : m = nd.iNo.toNat % 2 ^ 8
      · rcases h with hsmall | ⟨-, hbytes⟩
        · omega
        · subst hslot
          intro a hlo hhi
          rw [blit_in hlo hhi, Nat.zero_add, ← hbytes (a - _) (by omega)]
          exact congrArg disk (by omega)
      · exact hother m hslot

/-- `inode_sync` keeps its promise exactly for these inodes. -/
theorem inodeSync_right_iff (ht : TableFits part) {nd : Inode} (hn : nd.iNo.toNat < 4096)
    (ioBuf : Bytes) : ∃ disk', inodeSync disk part nd ioBuf = .ok disk' ∧
      (SyncedRight disk disk' part nd ↔ SyncsRight disk part nd) :=
  ⟨_, inodeSync_eq ht nd ioBuf, syncedRight_iff ht hn⟩

/-- A partition of one-sector bitmaps, its inode table at sector 4. -/
def tablePartition : Partition :=
  let sb := { SuperBlock.ofBytes fun _ => 0 with
    blockBitmapLba := 2, blockBitmapSects := 1, inodeBitmapLba := 3, inodeBitmapSects := 1,
    inodeTableLba := 4, inodeTableSects := 608, dataStartLba := 612, dirEntrySize := 24 }
  { startLba := 0, secCnt := 4096, name := [], sb
    blockBitmap := ⟨512, fun _ => 0⟩, inodeBitmap := ⟨512, fun _ => 0⟩, openInodes := [] }

theorem tablePartition_fits : TableFits tablePartition := ⟨by decide, by decide⟩

theorem inodeSync_right_iff_256 : ∃ disk',
    inodeSync (fun _ => 0) tablePartition { inodeInit 256 with iSize := 1 } (fun _ => 0) =
      .ok disk' ∧
    (SyncedRight (fun _ => 0) disk' tablePartition { inodeInit 256 with iSize := 1 } ↔
      SyncsRight (fun _ => 0) tablePartition { inodeInit 256 with iSize := 1 }) :=
  inodeSync_right_iff tablePartition_fits (by decide) _

/-- Inode 256 is written over inode 0. -/
theorem inodeSync_256_wrong : ∃ disk',
    inodeSync (fun _ => 0) tablePartition { inodeInit 256 with iSize := 1 } (fun _ => 0) =
      .ok disk' ∧
    ¬ SyncedRight (fun _ => 0) disk' tablePartition { inodeInit 256 with iSize := 1 } := by
  refine ⟨_, inodeSync_eq tablePartition_fits _ _, fun h => ?_⟩
  rcases (syncedRight_iff tablePartition_fits (by decide)).mp h with hsmall | ⟨hsame, -⟩
  · revert hsmall
    decide
  · have := hsame.iSize
    revert this
    decide

end ZhuOS
