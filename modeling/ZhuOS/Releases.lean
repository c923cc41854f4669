import ZhuOS.DirDelete
import ZhuOS.Handles
import ZhuOS.Rmdir

/-!
# Where a release of an inode ends

`inode_release` opens the inode, gives its blocks up one after the other, and closes it. Every
block but the first of the data area passes its `ASSERT`. Before it `delete_dir_entry` has
changed the directory alone, so the inode is still what it was.
-/

namespace ZhuOS

open ByteMem Slots

set_option maxRecDepth 2000

variable {fs fs' fs₁ fs₂ : Fs} {n ref k : Nat} {l : List OpenInode} {held : Nat → Nat} {dir : Dir}
  {disk : Bytes} {part : Partition} {nd : Inode}

/-! ## An inode between an open and its close -/

theorem inodeAt_listed (h : ref ∈ fs.part.openInodes.map (·.ref)) :
    ∃ nd, fs.inodeAt ref = .ok nd := by
  obtain ⟨o, ho, href⟩ := List.mem_map.mp h
  have hsome : (fs.part.openInodes.find? (·.ref = ref)).isSome :=
    List.find?_isSome.mpr ⟨o, ho, by simpa using href⟩
  obtain ⟨a, ha⟩ := Option.isSome_iff_exists.mp hsome
  exact ⟨a.inode, inodeAt_eq ha⟩

theorem inodeClose_ends (h : ref ∈ fs.part.openInodes.map (·.ref)) :
    ∃ fs', inodeClose fs ref = .ok fs' := by
  obtain ⟨nd, hat⟩ := inodeAt_listed h
  simp only [inodeClose, hat, ok_bind]
  by_cases hlast : nd.iOpenCnts - 1 = 0
  · exact ⟨_, if_pos hlast⟩
  · exact ⟨_, if_neg hlast⟩

theorem inodeOpen_ends (ht : TableFits fs.part) (hheap : fs.heap = fun _ => true)
    (hn : n < 4096) :
    ∃ ref l, inodeOpen fs n = .ok (ref, fs.setOpenInodes l) ∧ Opens fs n ref l := by
  have hends : ∃ ref l, inodeOpen fs n = .ok (ref, fs.setOpenInodes l) := by
    cases hfind : fs.part.openInodes.find? (·.inode.iNo.toNat = n) with
    | some o =>
      rw [inodeOpen, hfind]
      exact ⟨_, _, rfl⟩
    | none => exact ⟨_, _, inodeOpen_miss ht hn hheap hfind⟩
  obtain ⟨ref, l, h⟩ := hends
  obtain ⟨l', heap, heq, hopens⟩ := inodeOpen_opens h
  have hlist : l = l' := congrArg (·.part.openInodes) heq
  exact ⟨ref, l, h, hlist ▸ hopens⟩

/-- The users that the open counts stand for. -/
theorem Live.counted (h : Live l) : ∃ held, Counted l held := by
  have hcount : ∀ o ∈ l, ((l.find? (·.ref = o.ref)).elim 0 (·.inode.iOpenCnts.toNat)) =
      o.inode.iOpenCnts.toNat := by
    intro o ho
    rw [find_unique h.refs ho]
    rfl
  refine ⟨fun ref => (l.find? (·.ref = ref)).elim 0 (·.inode.iOpenCnts.toNat), h.refs,
    fun o ho => (hcount o ho).symm, fun o ho hz => ?_, fun ref hne => ?_⟩
  · exact h.counts o ho (UInt32.toNat_inj.mp ((hcount o ho).symm.trans hz))
  · cases hfind : l.find? (·.ref = ref) with
    | none =>
      rw [hfind] at hne
      exact absurd rfl hne
    | some o =>
      have href : o.ref = ref := by simpa using List.find?_some hfind
      exact List.mem_map.mpr ⟨o, List.mem_of_find?_eq_some hfind, href⟩

namespace Counted

/-- What is held is on the list. -/
theorem isListed (h : Counted l (held + Pi.single ref 1)) : ref ∈ l.map (·.ref) := by
  apply h.listed
  rw [Pi.add_apply, Pi.single_eq_same]
  exact Nat.succ_ne_zero _

/-- After something quiet an inode that was opened can be closed. -/
theorem inodeCloses (h : Counted fs.part.openInodes held) (hfit : FitsMore (k + 1) held)
    (ho : Opens fs n ref l) {heap : Nat → Bool} (hq : Quiet k (fs.relist l heap) fs₂) :
    ∃ fs₃, inodeClose fs₂ ref = .ok fs₃ := by
  have hopen : Counted (fs.relist l heap).part.openInodes (held + Pi.single ref 1) :=
    h.opened ho (hfit.mono (Nat.le_add_left 1 k))
  exact inodeClose_ends (hq.counted _ (hfit.single ref) hopen).isListed

/-- So can the directory a search has found. -/
theorem dirCloses (h : Counted fs.part.openInodes held) (hfit : FitsMore (k + 1) held)
    (hd : Holds fs dir l) {heap : Nat → Bool} (hq : Quiet k (fs.relist l heap) fs₂) :
    ∃ fs₃, dirClose fs₂ dir = .ok fs₃ := by
  cases hd with
  | root => exact ⟨fs₂, rfl⟩
  | opened ho => exact h.inodeCloses hfit ho hq

end Counted

/-! ## The blocks -/

/-- The blocks of the inode lie in the data area, and none is its first. -/
def Releasable (disk : Bytes) (part : Partition) (nd : Inode) : Prop :=
  ∀ lba, HasBlock disk nd lba → DataBlock part lba ∧ blockIdx part lba ≠ 0

theorem Releasable.moved {nd' : Inode} (h : Releasable disk part nd)
    (hm : Moved disk nd disk nd') : Releasable disk part nd' :=
  fun lba hlba => h lba (hm.holds.mp hlba)

theorem Releasable.relist (h : Releasable disk part nd) (l : List OpenInode) :
    Releasable disk { part with openInodes := l } nd := by
  intro lba hlba
  obtain ⟨hd, hidx⟩ := h lba hlba
  exact ⟨⟨hd.start, hd.onDisk, hd.inMap⟩, hidx⟩

/-- The blocks `gone` are given up, in memory and on the disk, and no others. -/
structure Freed (disk : Bytes) (part : Partition) (gone : UInt32 → Prop) (disk' : Bytes)
    (part' : Partition) : Prop where
  layout : DiskLayout part'
  only : BlocksOnly part part'
  len : part'.blockBitmap.btmpBytesLen = part.blockBitmap.btmpBytesLen
  bits : ∀ i, part'.blockBitmap.bit i = true ↔
    part.blockBitmap.bit i = true ∧ ¬ ∃ a, gone a ∧ blockIdx part a = i
  outside : OutsideBlockMap part disk' disk
  synced : BlockMapSynced disk part → BlockMapSynced disk' part'

namespace Freed

variable {disk' disk'' : Bytes} {part' part'' : Partition} {gone gone' : UInt32 → Prop}

theorem none (hl : DiskLayout part) (disk : Bytes) (hnone : ∀ a, ¬ gone a) :
    Freed disk part gone disk part where
  layout := hl
  only := rfl
  len := rfl
  bits i := by simp [hnone]
  outside _ _ := rfl
  synced hs := hs

theorem sb (h : Freed disk part gone disk' part') : part'.sb = part.sb := h.only.sb

theorem trans (h : Freed disk part gone disk' part') (h' : Freed disk' part' gone' disk'' part'')
    {both : UInt32 → Prop} (hboth : ∀ a, both a ↔ gone a ∨ gone' a) :
    Freed disk part both disk'' part'' where
  layout := h'.layout
  only := h.only.trans h'.only
  len := h'.len.trans h.len
  bits i := by
    have hidx := blockIdx_sb h.sb
    simp only [h'.bits, h.bits, hidx, hboth, or_and_right, exists_or, not_or, and_assoc]
  outside a ha := by
    rw [h'.outside a (by rwa [h.sb]), h.outside a ha]
  synced hs := h'.synced (h.synced hs)

theorem dataBlock (h : Freed disk part gone disk' part') {lba : UInt32}
    (hd : DataBlock part lba) : DataBlock part' lba ∧ blockIdx part' lba = blockIdx part lba := by
  have hidx := blockIdx_sb h.sb lba
  refine ⟨⟨h.sb ▸ hd.start, hd.onDisk, ?_⟩, hidx⟩
  rw [hidx, Bitmap.size, h.len]
  exact hd.inMap

/-- What is open does not matter. -/
theorem unlist {l : List OpenInode}
    (h : Freed disk { part with openInodes := l } gone disk' part') :
    Freed disk part gone disk' { part' with openInodes := part.openInodes } where
  layout := h.layout.relist _
  only := by
    have honly := h.only
    unfold BlocksOnly at honly ⊢
    rw [honly]
  len := h.len
  bits := h.bits
  outside := h.outside
  synced := h.synced

end Freed

theorem freeBlock_freed (hl : DiskLayout part) {lba : UInt32} (hd : DataBlock part lba) :
    ∃ disk' part', freeBlock disk part lba = .ok (disk', part') ∧
      Freed disk part (· = lba) disk' part' := by
  have haddr := hd.addr
  have hmax := hd.onDisk
  have hl' : DiskLayout (part.setBlock (blockIdx part lba) false) := hl.setBlock fun _ => by omega
  refine ⟨_, _, freeBlock_eq hl hd, hl', rfl, rfl, fun i => ?_, ?_, fun hs => ?_⟩
  · by_cases hi : i = blockIdx part lba
    · simp [hi]
    · simp [hi, Ne.symm hi]
  · exact syncBlockMap_outside hl' hd.inMap
  · exact mapSynced_set hs _ false

theorem releaseBlocks_freed (left : Nat) {blocks : Nat → UInt32} (hl : DiskLayout part)
    (hblocks : ∀ i < k + left, blocks i ≠ 0 →
      DataBlock part (blocks i) ∧ blockIdx part (blocks i) ≠ 0) :
    ∃ disk' part', releaseBlocks blocks left k disk part = .ok (disk', part') ∧
      Freed disk part (fun a => a ≠ 0 ∧ ∃ i, k ≤ i ∧ i < k + left ∧ blocks i = a) disk' part' := by
  induction left generalizing k disk part with
  | zero =>
    refine ⟨disk, part, rfl, .none hl disk ?_⟩
    rintro a ⟨-, i, hlo, hhi, -⟩
    omega
  | succ left ih =>
    have hsplit : ∀ i, k ≤ i ∧ i < k + (left + 1) ↔ i = k ∨ k + 1 ≤ i ∧ i < k + 1 + left := by
      omega
    rw [releaseBlocks]
    by_cases hz : blocks k = 0
    · rw [if_pos hz]
      obtain ⟨disk', part', hrun, hfreed⟩ := @ih (k + 1) disk part hl fun i hi =>
        hblocks i (by omega)
      refine ⟨disk', part', hrun, (Freed.none hl disk fun _ h => h).trans hfreed fun a => ?_⟩
      constructor
      · rintro ⟨hne, i, hlo, hhi, rfl⟩
        obtain rfl | hi := (hsplit i).mp ⟨hlo, hhi⟩
        · exact absurd hz hne
        · exact .inr ⟨hne, i, hi.1, hi.2, rfl⟩
      · rintro (hfalse | ⟨hne, i, hlo, hhi, rfl⟩)
        · exact hfalse.elim
        · exact ⟨hne, i, by omega, by omega, rfl⟩
    · obtain ⟨hd, hidx⟩ := hblocks k (by omega) hz
      obtain ⟨disk₁, part₁, hfree, hfreed⟩ := @freeBlock_freed disk part hl _ hd
      have hassert : 0 < (blocks k - part.sb.dataStartLba).toNat := by
        rw [hd.idx_eq]
        omega
      rw [if_neg hz]
      simp only [ASSERT_true hassert, ok_bind, hfree]
      obtain ⟨disk', part', hrun, hrest⟩ := @ih (k + 1) disk₁ part₁ hfreed.layout fun i hi hne => by
        obtain ⟨hdi, hi⟩ := hblocks i (by omega) hne
        obtain ⟨hdi', hsame⟩ := hfreed.dataBlock hdi
        exact ⟨hdi', hsame ▸ hi⟩
      refine ⟨disk', part', hrun, hfreed.trans hrest fun a => ?_⟩
      constructor
      · rintro ⟨hne, i, hlo, hhi, rfl⟩
        obtain rfl | hi := (hsplit i).mp ⟨hlo, hhi⟩
        · exact .inl rfl
        · exact .inr ⟨hne, i, hi.1, hi.2, rfl⟩
      · rintro (rfl | ⟨hne, i, hlo, hhi, rfl⟩)
        · exact ⟨hz, k, Nat.le_refl k, by omega, rfl⟩
        · exact ⟨hne, i, by omega, by omega, rfl⟩

/-- The blocks of the inode are given up. -/
theorem releaseNode_freed (hl : DiskLayout part) (h : Releasable disk part nd) :
    ∃ disk' part', releaseNode disk part nd = .ok (disk', part') ∧
      Freed disk part (HasBlock disk nd) disk' part' := by
  have hblocks : ∀ i < 140, blockAt disk nd i ≠ 0 →
      DataBlock part (blockAt disk nd i) ∧ blockIdx part (blockAt disk nd i) ≠ 0 :=
    fun i hi hne => h _ ⟨hne, .inr ⟨i, hi, rfl⟩⟩
  have hread : allBlocks disk nd = .ok (blockAt disk nd) :=
    allBlocks_eq fun htable => (h _ ⟨htable, .inl rfl⟩).1.onDisk
  simp only [releaseNode, hread, ok_bind]
  by_cases htable : nd.iSectors 12 ≠ 0
  · obtain ⟨hd, hidx⟩ := h _ ⟨htable, .inl rfl⟩
    obtain ⟨disk₁, part₁, hfree, hfreed⟩ := @freeBlock_freed disk part hl _ hd
    have hassert : 0 < (nd.iSectors 12 - part.sb.dataStartLba).toNat := by
      rw [hd.idx_eq]
      omega
    rw [if_pos htable]
    simp only [ASSERT_true hassert, ok_bind, hfree]
    obtain ⟨disk', part', hrun, hrest⟩ := @releaseBlocks_freed 0 disk₁ part₁ 140 (blockAt disk nd)
      hfreed.layout fun i hi hne => by
        obtain ⟨hdi, hi⟩ := hblocks i (by omega) hne
        obtain ⟨hdi', hsame⟩ := hfreed.dataBlock hdi
        exact ⟨hdi', hsame ▸ hi⟩
    refine ⟨disk', part', hrun, hfreed.trans hrest fun a => ?_⟩
    constructor
    · rintro ⟨hne, rfl | ⟨i, hi, rfl⟩⟩
      · exact .inl rfl
      · exact .inr ⟨hne, i, Nat.zero_le i, by omega, rfl⟩
    · rintro (rfl | ⟨hne, i, -, hi, rfl⟩)
      · exact ⟨htable, .inl rfl⟩
      · exact ⟨hne, .inr ⟨i, by omega, rfl⟩⟩
  · have hnone : nd.iSectors 12 = 0 := not_not.mp htable
    rw [if_neg htable]
    obtain ⟨disk', part', hrun, hfreed⟩ := @releaseBlocks_freed 0 disk part 12 (blockAt disk nd) hl
      fun i hi => hblocks i (by omega)
    refine ⟨disk', part', hrun, (Freed.none hl disk fun _ h => h).trans hfreed fun a => ?_⟩
    constructor
    · rintro ⟨hne, rfl | ⟨i, hi, rfl⟩⟩
      · exact absurd hnone hne
      · have hlt : i < 12 := by
          by_contra hge
          exact hne (blockAt_noTable hnone (by omega))
        exact .inr ⟨hne, i, Nat.zero_le i, by omega, rfl⟩
    · rintro (hfalse | ⟨hne, i, -, hi, rfl⟩)
      · exact hfalse.elim
      · exact ⟨hne, .inr ⟨i, by omega, rfl⟩⟩

/-! ## The inode -/

/-- Without its number and its record. -/
def releasedFs (fs : Fs) (disk : Bytes) (part : Partition) (n : Nat) : Fs :=
  let part := { part with inodeBitmap := bitmapSet part.inodeBitmap n false }
  { fs with disk := fill (syncInodeMap disk part n) (inodeAddr part n) SIZEOF_INODE 0, part }

/-- What is open decides what a close does. -/
theorem inodeClose_congr (h : inodeClose fs ref = .ok fs')
    (hlist : fs₂.part.openInodes = fs.part.openInodes) :
    inodeClose fs₂ ref = .ok (fs₂.setOpenInodes fs'.part.openInodes) := by
  obtain ⟨nd, hat, h⟩ := bind_ok.mp h
  have hat₂ : fs₂.inodeAt ref = .ok nd := by
    rw [Fs.inodeAt, hlist]
    exact hat
  simp only [inodeClose, hat₂, ok_bind]
  by_cases hlast : nd.iOpenCnts - 1 = 0
  · simp only [if_pos hlast] at h ⊢
    cases h
    rw [hlist]
    rfl
  · simp only [if_neg hlast] at h ⊢
    cases h
    rw [Fs.setInode, hlist]
    rfl

/-- An inode whose record and blocks are in order is released. -/
theorem inodeRelease_freed (hl : DiskLayout fs.part) (hheap : fs.heap = fun _ => true)
    (hc : Counted fs.part.openInodes held) (hfit : FitsMore 1 held) (hn : n < 4096)
    (hmap : n < fs.part.inodeBitmap.size) (hno : (diskInode fs.disk fs.part n).iNo.toNat = n)
    (hstored : ∀ o ∈ fs.part.openInodes, o.inode.iNo.toNat = n →
      Inode.SameStored o.inode (diskInode fs.disk fs.part n))
    (hblocks : Releasable fs.disk fs.part (diskInode fs.disk fs.part n)) :
    ∃ disk part, inodeRelease fs n = .ok (releasedFs fs disk part n) ∧
      Freed fs.disk fs.part (HasBlock fs.disk (diskInode fs.disk fs.part n)) disk part := by
  obtain ⟨ref, l, hopen, hopens⟩ := inodeOpen_ends hl.fits hheap hn
  have hcl : Counted (fs.setOpenInodes l).part.openInodes (held + Pi.single ref 1) :=
    hc.opened hopens hfit
  obtain ⟨nd, hat⟩ := inodeAt_listed hcl.isListed
  have hsame := inodeOpen_stored hl.fits hn hstored hopen hat
  have hassert : nd.iNo.toNat = n := by
    rw [hsame.iNo]
    exact hno
  have hmoved : Moved fs.disk (diskInode fs.disk fs.part n) fs.disk nd :=
    ⟨hsame.iSectors, fun _ _ _ _ _ => rfl⟩
  have hrelease : Releasable fs.disk (fs.setOpenInodes l).part nd :=
    (hblocks.moved hmoved).relist l
  have hl₁ : DiskLayout (fs.setOpenInodes l).part := hl.relist l
  obtain ⟨disk, part, hnode, hfreed⟩ := releaseNode_freed hl₁ hrelease
  have hown : HasBlock fs.disk nd = HasBlock fs.disk (diskInode fs.disk fs.part n) :=
    funext fun lba => propext hmoved.holds
  have hback : Freed fs.disk fs.part (HasBlock fs.disk (diskInode fs.disk fs.part n)) disk
      { part with openInodes := fs.part.openInodes } := hown ▸ Freed.unlist hfreed
  have hl' := hfreed.layout
  have honly : BlocksOnly (fs.setOpenInodes l).part part := hfreed.only
  have hsize : n < part.inodeBitmap.size := by
    rw [honly.inodeBitmap]
    exact hmap
  have hl₂ : DiskLayout { part with inodeBitmap := bitmapSet part.inodeBitmap n false } :=
    ⟨hl'.blockMapLen, hl'.inodeMapLen, hl'.blockMap, hl'.inodeMap, hl'.table, hl'.onDisk,
      hl'.inPart, hl'.blocks, hl'.entrySize⟩
  have hsize₂ : n < ({ part with
      inodeBitmap := bitmapSet part.inodeBitmap n false } : Partition).inodeBitmap.size := hsize
  have hmalloc : ∀ disk part, ({ fs.setOpenInodes l with disk, part } : Fs).askMalloc 1024 =
      (true, { fs.setOpenInodes l with disk, part }) :=
    fun _ _ => Fs.askMalloc_found hheap (by decide)
  have hdisk : (fs.setOpenInodes l).disk = fs.disk := rfl
  refine ⟨disk, { part with openInodes := fs.part.openInodes }, ?_, hback⟩
  simp only [inodeRelease, hopen, ok_bind, hat, ASSERT_true hassert, hdisk, hnode,
    bitmapSync_inode hl₂ hsize₂, hmalloc, orNull_true, inodeDelete_eq hl₂.fits hn]
  -- the close does what it would have done at once
  have hclose : inodeClose (fs.setOpenInodes l) ref = .ok fs := hopens.close hc.live
  exact inodeClose_congr hclose honly.openInodes

/-! ## The directory -/

/-- A deletion in the directory of record `p` leaves the other records and blocks alone. -/
structure Spares (s s' : NodeState) (p : Nat) : Prop where
  layout : DiskLayout s'.part
  only : BlocksOnly s.part s'.part
  size : s'.part.blockBitmap.size = s.part.blockBitmap.size
  record : ∀ m < 4096, m ≠ p → Same s'.disk s.disk (inodeAddr s.part m) SIZEOF_INODE
  same : ∀ lba, DataBlock s.part lba → ¬ HasBlock s.disk s.inode lba →
    Same s'.disk s.disk (lba.toNat * 512) 512

section
variable {s : NodeState} {p : Nat × Nat}

theorem clearSlot_spares (hl : DiskLayout s.part) (hown : OwnBlocks s.disk s.part s.inode)
    (hp : p ∈ dirGrid) (hne : blockAt s.disk s.inode p.1 ≠ 0) :
    Spares s (s.clearSlot p) (s.inode.iNo.toNat % 2 ^ 8) := by
  obtain ⟨hk, hj⟩ := mem_dirGrid.mp hp
  have hblock : HasBlock s.disk s.inode (blockAt s.disk s.inode p.1) := ⟨hne, .inr ⟨p.1, hk, rfl⟩⟩
  have hd := (hown.holds hblock).toDataBlock
  refine ⟨hl, rfl, rfl, fun m hm hmp => ?_, fun lba hlba hother => ?_⟩
  · have hfill : SameTables s.part (fill s.disk ((blockAt s.disk s.inode p.1).toNat * 512 +
        24 * p.2) 24 0) s.disk := sameTables_block hd _ _ (Nat.le_add_right _ _)
    exact (blit_same (records_apart s.part hmp)).trans (hfill.record hl hm)
  · exact clearSlot_same hl hj hlba fun he => hother (he ▸ hblock)

theorem dropBlock_spares (hl : DiskLayout s.part) (hown : OwnBlocks s.disk s.part s.inode)
    (hk : k < 12) (hne : blockAt s.disk s.inode k ≠ 0) :
    Spares s (s.dropBlock k) (s.inode.iNo.toNat % 2 ^ 8) := by
  have hblock : HasBlock s.disk s.inode (blockAt s.disk s.inode k) :=
    ⟨hne, .inr ⟨k, by omega, rfl⟩⟩
  have hd := (hown.holds hblock).toDataBlock
  have haddr := hd.addr
  have hmax := hd.onDisk
  have hl' : DiskLayout (s.dropBlock k).part := hl.setBlock fun _ => by omega
  refine ⟨hl', rfl, rfl, fun m hm hmp => ?_, fun lba hlba hother => ?_⟩
  · have hmap : SameTables (s.dropBlock k).part (syncBlockMap s.disk (s.dropBlock k).part
        (blockIdx s.part (blockAt s.disk s.inode k))) s.disk :=
      (syncBlockMap_outside hl' hd.inMap).tables
    exact (blit_same (records_apart s.part hmp)).trans (hmap.record hl' hm)
  · exact dropBlock_same hl hd hlba

/-- The entry is deleted, or it is the last of a block that the table lists, and the loop that
counts these blocks does not come to an end. -/
theorem deleteDirEntry_spares (hl : DiskLayout s.part) (hown : OwnBlocks s.disk s.part s.inode)
    (hone : KeyOnce dirGrid (slot s.disk s.inode) (·.iNo) DirEntry.Proper) (hp : p ∈ dirGrid)
    {e : DirEntry} (hslot : slot s.disk s.inode p = some e) (hproper : e.Proper)
    (hsize : (24 : UInt32) ≤ s.inode.iSize) (ioBuf : Bytes) :
    (12 ≤ p.1 ∧ Lone s.disk s.inode p ∧ deleteDirEntry s e.iNo.toNat ioBuf = .error .stuck) ∨
      ¬ (12 ≤ p.1 ∧ Lone s.disk s.inode p) ∧
        ∃ s', deleteDirEntry s e.iNo.toNat ioBuf = .ok (true, s') ∧
          Spares s s' (s.inode.iNo.toNat % 2 ^ 8) := by
  have hne := (slot_some.mp hslot).1
  generalize hr : deleteDirEntry s e.iNo.toNat ioBuf = r
  have hdel : Deletion s p r := hr ▸ deleteDirEntry_found hl hown hone hp hslot hproper hsize ioBuf
  cases hdel with
  | clear hmore => exact .inr ⟨fun h => hmore h.2, _, rfl, clearSlot_spares hl hown hp hne⟩
  | drop hlone hk =>
    exact .inr ⟨fun h => absurd h.1 (by omega), _, rfl, dropBlock_spares hl hown hk hne⟩
  | stuck hlone hk => exact .inl ⟨hk, hlone, rfl⟩

namespace Spares

variable {s' : NodeState} {m q : Nat} (h : Spares s s' q)
include h

theorem sb : s'.part.sb = s.part.sb := h.only.sb

theorem dataBlock {lba : UInt32} (hd : DataBlock s.part lba) :
    DataBlock s'.part lba ∧ blockIdx s'.part lba = blockIdx s.part lba := by
  have hidx := blockIdx_sb h.sb lba
  exact ⟨⟨h.sb ▸ hd.start, hd.onDisk, by rw [hidx, h.size]; exact hd.inMap⟩, hidx⟩

theorem diskInode (hm : m < 4096) (hmq : m ≠ q) :
    ZhuOS.diskInode s'.disk s'.part m = ZhuOS.diskInode s.disk s.part m := by
  have haddr : inodeAddr s'.part m = inodeAddr s.part m := by rw [inodeAddr, inodeAddr, h.sb]
  have hsame := diskInode_congr (h.record m hm hmq)
  unfold ZhuOS.diskInode at hsame ⊢
  rw [haddr, hsame]

/-- A file that has no block of the directory is released as before. -/
theorem releasable (hnd : Releasable s.disk s.part nd)
    (hapart : ∀ lba, HasBlock s.disk nd lba → ¬ HasBlock s.disk s.inode lba) :
    Releasable s'.disk s'.part nd := by
  have hmoved : Moved s.disk nd s'.disk nd :=
    ⟨fun _ _ => rfl, fun lba hlba => h.same lba (hnd lba hlba).1 (hapart lba hlba)⟩
  intro lba hlba
  obtain ⟨hd, hidx⟩ := hnd lba (hmoved.holds.mp hlba)
  obtain ⟨hd', hsame⟩ := h.dataBlock hd
  exact ⟨hd', hsame ▸ hidx⟩

end Spares

end

/-! ## The file table -/

/-- What was open before is open with it. -/
theorem Holds.inodeAt (hd : Holds fs dir l) (hl : Live fs.part.openInodes)
    (href : ref ∈ fs.part.openInodes.map (·.ref)) :
    ∃ a b, fs.inodeAt ref = .ok a ∧ (fs.setOpenInodes l).inodeAt ref = .ok b ∧ b.iNo = a.iNo := by
  obtain ⟨a, ha⟩ := inodeAt_listed href
  obtain ⟨o, ho, horef, rfl⟩ := inodeAt_mem ha
  cases hd with
  | root => exact ⟨o.inode, o.inode, ha, ha, rfl⟩
  | opened hopens =>
    have hkept : ref ∈ l.map (·.ref) := by
      cases hopens with
      | hit ho' hno =>
        rw [setInode_refs]
        exact href
      | miss hmiss hread => exact List.mem_cons_of_mem _ href
    obtain ⟨b, hb⟩ := @inodeAt_listed (fs.setOpenInodes l) ref hkept
    obtain ⟨o', ho', horef', rfl⟩ := inodeAt_mem hb
    refine ⟨o.inode, o'.inode, ha, hb, ?_⟩
    obtain ⟨x, hx, hxref, hflags⟩ | ⟨nd, -, hfresh, hnew, -⟩ := hopens.from hl ho'
    · rw [hflags.iNo, hl.unique ho hx (hxref.trans (horef'.trans horef.symm))]
    · exact absurd (hfresh ▸ horef' ▸ href) hnew

/-- The table is searched to its end, with the directory open as without it. -/
theorem fileInUse_ends (hd : Holds fs dir l) (hl : Live fs.part.openInodes)
    (hhandles : ∀ i < MAX_FILE_OPEN, ∀ ref, (fs.fileTable i).fdInode = some ref →
      ref ∈ fs.part.openInodes.map (·.ref)) (no : UInt32) (left : Nat)
    (hleft : k + left ≤ MAX_FILE_OPEN) : ∃ b, fileInUse fs no left k = .ok b ∧
      fileInUse (fs.setOpenInodes l) no left k = .ok b := by
  induction left generalizing k with
  | zero => exact ⟨false, rfl, rfl⟩
  | succ left ih =>
    rw [fileInUse, fileInUse]
    have htable : (fs.setOpenInodes l).fileTable = fs.fileTable := rfl
    have hrest := @ih (k + 1) (by omega)
    rw [htable]
    cases hfd : (fs.fileTable k).fdInode with
    | none => exact hrest
    | some ref =>
      obtain ⟨a, b, ha, hb, hno⟩ := hd.inodeAt hl (hhandles k (by omega) ref hfd)
      simp only [ha, hb, ok_bind, hno]
      by_cases hsame : a.iNo = no
      · exact ⟨true, if_pos hsame, if_pos hsame⟩
      · simp only [if_neg hsame]
        exact hrest

/-! ## Trees with regular files -/

/-- A regular file beside the directories: its record and its blocks are its own. -/
structure FileAt (fs : Fs) (dirs : Nat → Prop) (n : Nat) : Prop where
  number : (diskInode fs.disk fs.part n).iNo.toNat = n
  inMap : n < fs.part.inodeBitmap.size
  own : OwnBlocks fs.disk fs.part (diskInode fs.disk fs.part n)
  notDir : ¬ dirs n
  apart : ∀ p, dirs p → ∀ lba, HasBlock fs.disk (diskInode fs.disk fs.part n) lba →
    ¬ HasBlock fs.disk (diskInode fs.disk fs.part p) lba

/-- A tree whose files are in order too. The first block of the data area is the root's, what is
open agrees with the disk, and the file table refers to inodes that are open. -/
structure FileTree (fs : Fs) (dirs : Nat → Prop) : Prop extends DottedTree fs dirs where
  whole : ∀ n, dirs n → (diskInode fs.disk fs.part n).iSize.toNat % 24 = 0
  rootBlock : (diskInode fs.disk fs.part 0).iSectors 0 = fs.part.sb.dataStartLba
  numbers : ∀ n, dirs n → KeyOnce dirGrid (slot fs.disk (diskInode fs.disk fs.part n)) (·.iNo)
    DirEntry.Proper
  file : ∀ n, dirs n → ∀ e ∈ entries fs.disk (diskInode fs.disk fs.part n), e.name ≠ [] →
    e.fType = FT_REGULAR → e.Proper ∧ FileAt fs dirs e.iNo.toNat
  opened : ∀ o ∈ fs.part.openInodes, o.inode.iNo.toNat < 4096 ∧
    Inode.SameStored o.inode (diskInode fs.disk fs.part o.inode.iNo.toNat)
  spare : Room 3 fs.part.openInodes
  handles : ∀ i < MAX_FILE_OPEN, ∀ ref, (fs.fileTable i).fdInode = some ref →
    ref ∈ fs.part.openInodes.map (·.ref)

/-- The entry with the number `n` is the only one of a block that the table of `p` lists. -/
def LastInTable (fs : Fs) (p n : Nat) : Prop :=
  ∃ q ∈ dirGrid, ∃ e, slot fs.disk (diskInode fs.disk fs.part p) q = some e ∧ e.Proper ∧
    e.iNo.toNat = n ∧ 12 ≤ q.1 ∧ Lone fs.disk (diskInode fs.disk fs.part p) q

theorem slot_stored {a b : Inode} (h : Inode.SameStored a b) : slot disk a = slot disk b := by
  have hblocks : blockAt disk a = blockAt disk b := blockAt_congr h.iSectors fun _ _ _ _ => rfl
  funext q
  rw [slot, slot, hblocks]

namespace FileTree

variable {dirs : Nat → Prop} {p : Nat} {e : DirEntry}
  (ht : FileTree fs dirs)
include ht

theorem live : Live fs.part.openInodes := ⟨ht.openOk.refs, ht.openOk.counts⟩

theorem counted : ∃ held, FitsMore 3 held ∧ Counted fs.part.openInodes held := by
  obtain ⟨held, hc⟩ := ht.live.counted
  exact ⟨held, ht.spare.fits (by decide) hc, hc⟩

/-- The root directory has the first block. -/
theorem rootUse : InUse fs.part fs.part.sb.dataStartLba ∧
    HasBlock fs.disk (diskInode fs.disk fs.part 0) fs.part.sb.dataStartLba := by
  have htable := ht.layout.table
  have hne : fs.part.sb.dataStartLba ≠ 0 := by
    intro hz
    rw [hz] at htable
    exact absurd htable (by simp)
  have hroot : HasBlock fs.disk (diskInode fs.disk fs.part 0) fs.part.sb.dataStartLba :=
    ⟨hne, .inr ⟨0, by decide, (blockAt_direct (by decide)).trans ht.rootBlock⟩⟩
  exact ⟨(ht.ok 0 ht.root).toOwnBlocks.holds hroot, hroot⟩

theorem firstBlock : fs.part.blockBitmap.bit 0 = true := by
  have hmarked := ht.rootUse.1.marked
  rwa [blockIdx, Nat.sub_self] at hmarked

theorem releasable (hfile : FileAt fs dirs p) :
    Releasable fs.disk fs.part (diskInode fs.disk fs.part p) := by
  intro lba hlba
  have hd := (hfile.own.holds hlba).toDataBlock
  refine ⟨hd, fun hzero => ?_⟩
  have haddr := hd.addr
  have hroot : lba = fs.part.sb.dataStartLba := UInt32.toNat_inj.mp (by omega)
  exact hfile.apart 0 ht.root lba hlba (hroot ▸ ht.rootUse.2)

/-- After the deletion of its entry a file is released. -/
theorem releases (hheap : fs.heap = fun _ => true) (hp : dirs p) (hfile : FileAt fs dirs n)
    (hn : n < 4096) (hat : DirAt fs p dir l nd) (hd : Holds fs dir l) {s : NodeState}
    (hkeeps : KeepsDir ⟨fs.disk, (fs.setOpenInodes l).part, nd⟩ s)
    (hspares : Spares ⟨fs.disk, (fs.setOpenInodes l).part, nd⟩ s (nd.iNo.toNat % 2 ^ 8)) :
    ∃ fs', inodeRelease ((fs.setOpenInodes l).setNode dir.inode s) n = .ok fs' := by
  obtain ⟨held, hfit, hc⟩ := ht.counted
  have hopen := hd.counted hc (hfit.mono (by decide))
  have hquiet : Quiet 1 (fs.setOpenInodes l) ((fs.setOpenInodes l).setNode dir.inode s) :=
    .setNode hat.inodeAt hkeeps
  have hfit' : FitsMore 1 (held + dirUse dir) := FitsMore.dirUse (hfit.mono (by decide)) dir
  have hne : n ≠ p := fun he => hfile.notDir (he ▸ hp)
  have hrecord : nd.iNo.toNat % 2 ^ 8 = p := by
    rw [hat.no]
    exact Nat.mod_eq_of_lt (ht.low p hp)
  have hsame : diskInode s.disk s.part n = diskInode fs.disk fs.part n :=
    hspares.diskInode hn (hrecord.symm ▸ hne)
  have hmoved : Moved fs.disk (diskInode fs.disk fs.part p) fs.disk nd :=
    ⟨hat.stored.iSectors, fun _ _ _ _ _ => rfl⟩
  have hlist : s.part.openInodes = l := hkeeps.blocks.openInodes
  have hl : DiskLayout ((fs.setOpenInodes l).setNode dir.inode s).part := hspares.layout.relist _
  have hheap' : ((fs.setOpenInodes l).setNode dir.inode s).heap = fun _ => true := hheap
  have hcounted := hquiet.counted _ hfit' hopen
  have hmap : n < ((fs.setOpenInodes l).setNode dir.inode s).part.inodeBitmap.size := by
    change n < s.part.inodeBitmap.size
    rw [hkeeps.blocks.inodeBitmap]
    exact hfile.inMap
  have hstored : ∀ o ∈ ((fs.setOpenInodes l).setNode dir.inode s).part.openInodes,
      o.inode.iNo.toNat = n → Inode.SameStored o.inode (diskInode s.disk s.part n) := by
    intro o ho hno
    have hparent : o.inode ≠ nd := fun he => hne (by rw [← hno, he, hat.no])
    have ho : o ∈ ZhuOS.setInode dir.inode s.inode s.part.openInodes := ho
    rw [hlist] at ho
    obtain ⟨hold, -⟩ | ⟨a, -, -, rfl⟩ := mem_setInode ho
    · have hmem := (hat.mem hold).resolve_right hparent
      have hstored := (ht.opened o hmem).2
      rw [hno, ← hsame] at hstored
      exact hstored
    · exact absurd (by rw [← hno, ← hat.no, ← hkeeps.iNo]) hne
  have hrelease : Releasable s.disk s.part (diskInode s.disk s.part n) := by
    have hold := (ht.releasable hfile).relist l
    rw [← hsame] at hold
    apply hspares.releasable hold
    intro lba hlba
    rw [hmoved.holds]
    rw [hsame] at hlba
    exact hfile.apart p hp lba hlba
  obtain ⟨disk, part, hrun, -⟩ := inodeRelease_freed hl hheap' hcounted hfit' hn hmap
    (hsame ▸ hfile.number) hstored (hrelease.relist _)
  exact ⟨_, hrun⟩

/-- The entry of a file is deleted and the file released, unless the deletion does not end. -/
theorem removal (hheap : fs.heap = fun _ => true) (hp : dirs p) (hat : DirAt fs p dir l nd)
    (hd : Holds fs dir l) (he : e ∈ entries fs.disk (diskInode fs.disk fs.part p))
    (hname : e.name ≠ []) (htype : e.fType = FT_REGULAR) :
    LastInTable fs p e.iNo.toNat ∧
        (∀ fs', deleteEntry (fs.setOpenInodes l) dir e.iNo.toNat ≠ .ok fs') ∨
      ¬ LastInTable fs p e.iNo.toNat ∧
        ∃ fs₁ fs₂, deleteEntry (fs.setOpenInodes l) dir e.iNo.toNat = .ok fs₁ ∧
          inodeRelease fs₁ e.iNo.toNat = .ok fs₂ := by
  obtain ⟨hproper, hfile⟩ := ht.file p hp e he hname htype
  obtain ⟨hsmall, -⟩ := ht.listed p hp e he hname
  have hlive : e.fType ≠ FT_UNKNOWN := by
    rw [htype]
    decide
  obtain ⟨q, hq, hslot⟩ := slot_of_mem_entries he hlive
  have hmoved : Moved fs.disk (diskInode fs.disk fs.part p) fs.disk nd :=
    ⟨hat.stored.iSectors, fun _ _ _ _ _ => rfl⟩
  have hslots := @slot_stored fs.disk _ _ hat.stored
  have hsize : (24 : UInt32) ≤ nd.iSize := by
    have htwo := ht.two hp
    have hle := ht.size p hp
    rw [hat.stored.iSize, UInt32.le_iff_toNat_le]
    change 24 ≤ _
    omega
  have hl : DiskLayout (fs.setOpenInodes l).part := ht.layout.relist l
  have hown : OwnBlocks fs.disk (fs.setOpenInodes l).part nd :=
    hmoved.own (fun a ha => ha.relist l) (ht.ok p hp).toOwnBlocks
  have hone := ht.numbers p hp
  have hlone : ∀ q, Lone fs.disk nd q ↔ Lone fs.disk (diskInode fs.disk fs.part p) q := by
    intro q
    have hlone : ∀ {a b : Inode}, slot fs.disk a = slot fs.disk b → Lone fs.disk a q →
        Lone fs.disk b q := fun h hlone => ⟨h ▸ hlone.only, h ▸ hlone.noDot⟩
    exact ⟨hlone hslots, hlone hslots.symm⟩
  rw [← hslots] at hone
  have hslot' : slot fs.disk nd q = some e := by rwa [hslots]
  obtain ⟨hk, hlast, hstuck⟩ | ⟨hmore, s, hdel, hspares⟩ :=
    @deleteDirEntry_spares ⟨fs.disk, (fs.setOpenInodes l).part, nd⟩ q hl hown hone hq e hslot'
      hproper hsize fun _ => 0
  · left
    refine ⟨⟨q, hq, e, hslot, hproper, rfl, hk, (hlone q).mp hlast⟩, fun fs' h => ?_⟩
    simp only [deleteEntry, hat.inodeAt, ok_bind] at h
    obtain ⟨r, hr, -⟩ := bind_ok.mp h
    cases hstuck.symm.trans hr
  · right
    refine ⟨?_, ?_⟩
    · rintro ⟨q', hq', e', hslot₂, hproper', hno, hk, hlast⟩
      rw [← hslots] at hslot₂
      obtain rfl : q' = q := hone q' hq' q hq e' e hslot₂ hslot' hproper' hproper
        (UInt32.toNat_inj.mp hno)
      exact hmore ⟨hk, (hlone q').mpr hlast⟩
    · have hrun : deleteEntry (fs.setOpenInodes l) dir e.iNo.toNat =
          .ok ((fs.setOpenInodes l).setNode dir.inode s) := by
        simp only [deleteEntry, hat.inodeAt, ok_bind]
        exact congrArg (· >>= _) hdel
      obtain ⟨blocks, -, hdel⟩ := bind_ok.mp hdel
      obtain ⟨perSec, -, hdel⟩ := bind_ok.mp hdel
      obtain ⟨fs₂, hrelease⟩ :=
        ht.releases hheap hp hfile hsmall hat hd (deleteBlocks_keeps _ hdel) hspares
      exact ⟨_, fs₂, hrun, hrelease⟩

/-- In the directory it has found, `sys_unlink` of a regular file ends when the file is in use, or
its entry is not the last of a block that the table lists. -/
theorem unlinkIn_ends_iff (hheap : fs.heap = fun _ => true) (hp : dirs p)
    (hat : DirAt fs p dir l nd) (hd : Holds fs dir l)
    (he : e ∈ entries fs.disk (diskInode fs.disk fs.part p)) (hname : e.name ≠ [])
    (htype : e.fType = FT_REGULAR) {record : PathSearchRecord} (hdir : record.parentDir = dir)
    (hfile : record.fileType = FT_REGULAR) :
    (∃ r, unlinkIn (fs.setOpenInodes l) e.iNo record = .ok r) ↔
      fileInUse fs e.iNo MAX_FILE_OPEN 0 = .ok true ∨ ¬ LastInTable fs p e.iNo.toNat := by
  subst hdir
  obtain ⟨hsmall, -⟩ := ht.listed p hp e he hname
  have hfound : ¬ (e.iNo = -1 ∨ record.fileType = FT_DIRECTORY) := by
    rintro (hminus | hdirectory)
    · exact ne_minusOne hsmall hminus
    · rw [hfile] at hdirectory
      exact absurd hdirectory (by decide)
  obtain ⟨b, hb, hb'⟩ := fileInUse_ends hd ht.live ht.handles e.iNo MAX_FILE_OPEN
    (by decide : 0 + MAX_FILE_OPEN ≤ MAX_FILE_OPEN)
  have hmalloc : (fs.setOpenInodes l).askMalloc 1024 = (true, fs.setOpenInodes l) :=
    Fs.askMalloc_found hheap (by decide)
  simp only [unlinkIn, if_neg hfound, hb', ok_bind, hb]
  cases b with
  | true => exact ⟨fun _ => .inl rfl, fun _ => ⟨_, rfl⟩⟩
  | false =>
    have hnot : ¬ (Except.ok false : Except Fault Bool) = .ok true := by simp
    simp only [Bool.false_eq_true, ↓reduceIte, hmalloc, not_true, or_iff_right hnot]
    obtain ⟨hlast, hstuck⟩ | ⟨hmore, fs₁, fs₂, hdel, hrelease⟩ :=
      ht.removal hheap hp hat hd he hname htype
    · refine ⟨?_, fun hnone => absurd hlast hnone⟩
      rintro ⟨r, h⟩
      obtain ⟨fs₁, hdel, -⟩ := bind_ok.mp h
      exact absurd hdel (hstuck fs₁)
    · refine ⟨fun _ => hmore, fun _ => ?_⟩
      simp only [hdel, ok_bind, hrelease]
      exact ⟨_, rfl⟩

end FileTree

end ZhuOS
