import ZhuOS.ConsistentFs
import ZhuOS.Created
import ZhuOS.Positions

/-!
# Writes up to the last close

What writes through a descriptor leave of a new file: the blocks that are marked are those from
before and its own. With the last close nothing is open that was not.
-/

namespace ZhuOS

open ByteMem Slots

set_option maxRecDepth 2000

variable {fs fs' fs₂ : Fs} {dirs : Nat → Prop} {nd nd' : Inode} {n n' p i fd ref : Nat}
  {content : List UInt8} {r : Int} {s s₀ : NodeState} {de : DirEntry} {l : List OpenInode}
  {flag : UInt8}

/-! ## Writes that go through -/

/-- Calls of `sys_write` on a descriptor, one after the other, with what they return. -/
def sysWrites (fs : Fs) (fd : Nat) : List (Bytes × UInt32) → Except Fault (List Int × Fs)
  | [] => return ([], fs)
  | (buf, count) :: calls => do
    let (r, fs) ← sysWrite fs fd buf count
    let (rs, fs) ← sysWrites fs fd calls
    return (r :: rs, fs)

/-- A write that went through had room for the file it has left. -/
theorem fileWrite_room {buf : Bytes} {count : UInt32} (hl : DiskLayout fs.part)
    (hfd : (fs.fileTable i).fdInode = some ref) (hnode : fs.inodeAt ref = .ok nd)
    (hf : FileOk fs.disk fs.part nd n) (h : fileWrite fs i buf count = .ok (r, fs'))
    (hr : r ≠ -1) : nd.iSize.toNat + count.toNat < 512 * 140 ∧
      blockCost ((nd.iSize.toNat + count.toNat) / 512 + 1) ≤
        fs.part.blockBitmap.free.card + blockCost n := by
  obtain ⟨hminus, -⟩ | ⟨⟨h0, h1⟩, -, hlt, hcard⟩ := fileWrite_cases hfd hnode hl h
  · exact absurd hminus hr
  have hsum : nd.iSize.toNat + count.toNat < 2 ^ 32 := by
    rw [fileWrite_eq hfd hnode] at h
    split at h
    · cases h
      exact absurd rfl hr
    · rw [if_neg (by simp [h0]), if_neg (by simp [h1])] at h
      obtain ⟨⟨res, s⟩, hrun, -⟩ := bind_ok.mp h
      obtain ⟨-, -, -, hsize, -⟩ := writeNode_end hrun
      have hmax := s.inode.iSize.toNat_lt
      dsimp only at hsize
      omega
  rw [Nat.mod_eq_of_lt hsum] at hlt hcard
  exact ⟨hlt, hf.blockCost_le (by omega) hcard⟩

/-- A descriptor through which the file at `ref` is written. -/
structure WritesThrough (fs : Fs) (fd i ref : Nat) : Prop where
  descriptor : fs.fdTable fd = some i
  fdIn : fd < MAX_FILES_OPEN_PER_PROC
  slotIn : i < MAX_FILE_OPEN
  inode : (fs.fileTable i).fdInode = some ref
  flag : writes (fs.fileTable i).fdFlag

theorem WritesThrough.slot (h : WritesThrough fs fd i ref) : fdLocal2global fs fd = .ok i := by
  simp only [fdLocal2global, if_neg (Nat.not_le.mpr h.fdIn), h.descriptor,
    ASSERT_true h.slotIn, ok_bind]
  rfl

theorem WritesThrough.kept (h : WritesThrough fs fd i ref)
    (hothers : LeavesOthers fs fs' ref nd nd') : WritesThrough fs' fd i ref where
  descriptor := by rw [hothers.fdTable, h.descriptor]
  fdIn := h.fdIn
  slotIn := h.slotIn
  inode := (hothers.slots i).1.trans h.inode
  flag := (hothers.slots i).2 ▸ h.flag

/-- What writes have left of the file `nd`. -/
structure Written (fs fs' : Fs) (ref : Nat) (nd : Inode) (n : Nat) (nd' : Inode) (n' : Nat) :
    Prop where
  env : WriteEnv fs'
  holds : ∃ content, FileHolds fs' ref nd' n' content
  others : LeavesOthers fs fs' ref nd nd'
  card : fs'.part.blockBitmap.free.card + blockCost n' =
    fs.part.blockBitmap.free.card + blockCost n

theorem FileHolds.sysWrite {buf : Bytes} {count : UInt32} (h : FileHolds fs ref nd n content)
    (henv : WriteEnv fs) (hthrough : WritesThrough fs fd i ref)
    (hrun : sysWrite fs fd buf count = .ok (r, fs')) (hr : r ≠ -1) :
    ∃ nd' n', Written fs fs' ref nd n nd' n' := by
  simp only [ZhuOS.sysWrite, hthrough.slot, ok_bind, if_pos hthrough.flag] at hrun
  obtain ⟨hmax, hfree⟩ := fileWrite_room henv.layout hthrough.inode h.inode h.file hrun hr
  have hlen : (content ++ (WriteCall.mk i buf count).bytes).length =
      nd.iSize.toNat + count.toNat := by
    rw [List.length_append, WriteCall.length_bytes, h.size]
  obtain ⟨fs₁, nd', hrun', henv', hholds, hothers, hcard⟩ :=
    h.write henv ⟨i, buf, count⟩ hthrough.inode (hlen ▸ hmax) (hlen ▸ hfree)
  cases hrun.symm.trans hrun'
  exact ⟨nd', _, henv', ⟨_, hholds⟩, hothers, hcard⟩

/-- By induction on the calls, each of which finds the file as the one before has left it. -/
theorem FileHolds.sysWrites (calls : List (Bytes × UInt32)) {rs : List Int}
    (h : FileHolds fs ref nd n content) (henv : WriteEnv fs)
    (hthrough : WritesThrough fs fd i ref) (hrun : sysWrites fs fd calls = .ok (rs, fs'))
    (hrs : ∀ r ∈ rs, r ≠ -1) : ∃ nd' n', Written fs fs' ref nd n nd' n' := by
  induction calls generalizing fs nd n content rs with
  | nil =>
    cases hrun
    exact ⟨nd, n, henv, ⟨content, h⟩, .refl _ ref nd, rfl⟩
  | cons call calls ih =>
    obtain ⟨⟨r, fs₁⟩, hfirst, hrun⟩ := bind_ok.mp hrun
    obtain ⟨⟨rs', fs₂⟩, hrest, hrun⟩ := bind_ok.mp hrun
    cases hrun
    obtain ⟨nd₁, n₁, hone⟩ := h.sysWrite henv hthrough hfirst (hrs r (List.mem_cons_self ..))
    obtain ⟨content₁, h₁⟩ := hone.holds
    obtain ⟨nd', n', hmore⟩ := ih h₁ hone.env (hthrough.kept hone.others) hrest
      fun r hr => hrs r (List.mem_cons_of_mem _ hr)
    exact ⟨nd', n', hmore.env, hmore.holds, hone.others.trans hmore.others,
      hmore.card.trans hone.card⟩

/-! ## The blocks that were claimed -/

theorem owns_iff {disk : Bytes} {a : UInt32} : Owns disk nd a ↔ HasBlock disk nd a := by
  rw [Owns, HasBlock, or_comm, eq_comm (a := nd.iSectors 12)]

/-- The indices of the blocks of a file. -/
def ownIdx (disk : Bytes) (part : Partition) (nd : Inode) (n : Nat) : Finset Nat :=
  (Finset.range n).image (fun k => blockIdx part (blockAt disk nd k)) ∪
    if 12 < n then {blockIdx part (nd.iSectors 12)} else ∅

section
variable {disk : Bytes} {part : Partition} {a : UInt32}

theorem FileOk.le (h : FileOk disk part nd n) : n ≤ 140 := by
  obtain ⟨rfl, -⟩ | hn := h.count
  · exact Nat.zero_le _
  · omega

theorem FileOk.mem_ownIdx (h : FileOk disk part nd n) (hl : DiskLayout part) {j : Nat} :
    j ∈ ownIdx disk part nd n ↔ ∃ a, Owns disk nd a ∧ blockIdx part a = j := by
  rw [ownIdx, Finset.mem_union, Finset.mem_image]
  constructor
  · rintro (⟨k, hk, rfl⟩ | htable)
    · have hk := Finset.mem_range.mp hk
      exact ⟨_, h.owns_block hl hk (by have := h.le; omega), rfl⟩
    · by_cases hn : 12 < n
      · rw [if_pos hn, Finset.mem_singleton] at htable
        exact ⟨_, ⟨h.indirect.mpr hn, .inr rfl⟩, htable.symm⟩
      · rw [if_neg hn] at htable
        cases htable
  · rintro ⟨a, ⟨hne, ⟨k, -, rfl⟩ | rfl⟩, rfl⟩
    · left
      refine ⟨k, Finset.mem_range.mpr ?_, rfl⟩
      by_contra hge
      exact hne (h.rest k (by omega))
    · right
      rw [if_pos (h.indirect.mp hne)]
      exact Finset.mem_singleton_self _

/-- A file has as many blocks as it costs. -/
theorem FileOk.card_ownIdx (h : FileOk disk part nd n) :
    (ownIdx disk part nd n).card = blockCost n := by
  have hinj : Set.InjOn (fun k => blockIdx part (blockAt disk nd k))
      (Finset.range n : Set Nat) := by
    intro k hk j hj he
    have hk := Finset.mem_range.mp hk
    have hj := Finset.mem_range.mp hj
    exact h.apart k hk j hj
      ((h.inUse k hk).toDataBlock.idx_inj (h.inUse j hj).toDataBlock he)
  have hcard : ((Finset.range n).image fun k => blockIdx part (blockAt disk nd k)).card = n := by
    rw [Finset.card_image_of_injOn hinj, Finset.card_range]
  unfold ownIdx blockCost
  by_cases hn : 12 < n
  · rw [if_pos hn, if_pos hn, Finset.card_union_of_disjoint, hcard, Finset.card_singleton]
    rw [Finset.disjoint_singleton_right, Finset.mem_image]
    rintro ⟨k, hk, he⟩
    have hk := Finset.mem_range.mp hk
    have hne := h.tableApart k hk
    exact hne ((h.inUse k hk).toDataBlock.idx_inj (h.table (h.indirect.mpr hn)).toDataBlock he)
  · rw [if_neg hn, if_neg hn, Finset.union_empty, hcard, Nat.add_zero]

end

theorem WriteEnv.size_eq (henv : WriteEnv fs') (hl : DiskLayout fs.part)
    (hsb : fs'.part.sb = fs.part.sb) :
    fs'.part.blockBitmap.size = fs.part.blockBitmap.size := by
  rw [Bitmap.size, Bitmap.size, henv.layout.blockMapLen, hl.blockMapLen, hsb]

namespace Written

variable (h : Written fs fs' ref nd 0 nd' n')
include h

theorem sb : fs'.part.sb = fs.part.sb := by rw [h.others.part]

theorem idx (a : UInt32) : blockIdx fs'.part a = blockIdx fs.part a := blockIdx_sb h.sb a

theorem inUse {a : UInt32} (ha : Owns fs'.disk nd' a) : InUse fs'.part a := by
  obtain ⟨content, hholds⟩ := h.holds
  exact hholds.file.of_owns ha

/-- What was marked still is. -/
theorem keeps (hl : DiskLayout fs.part) (hnew : NewFile fs ref nd) {j : Nat}
    (hj : j < fs.part.blockBitmap.size) (hset : fs.part.blockBitmap.bit j = true) :
    fs'.part.blockBitmap.bit j = true := by
  by_contra hclear
  have hsize := h.env.size_eq hl h.sb
  obtain ⟨hd, hidx⟩ := freeBit_block h.env.layout (hsize.symm ▸ hj) (by simpa using hclear)
  have hsame := h.idx (fs'.part.sb.dataStartLba + UInt32.ofNat j)
  have hused : InUse fs.part (fs'.part.sb.dataStartLba + UInt32.ofNat j) := by
    refine ⟨⟨h.sb ▸ hd.start, hd.onDisk, ?_⟩, ?_⟩
    · rw [← hsame, hidx]
      exact hj
    · rw [← hsame, hidx]
      exact hset
  obtain ⟨hused', -⟩ := h.others.data _ hused (hnew.owns_nothing _)
  rw [← hidx] at hclear
  exact hclear hused'.marked

/-- The blocks of the file were free. -/
theorem fresh (hl : DiskLayout fs.part) (hnew : NewFile fs ref nd) {a : UInt32}
    (ha : Owns fs'.disk nd' a) : blockIdx fs.part a < fs.part.blockBitmap.size ∧
      fs.part.blockBitmap.bit (blockIdx fs.part a) = false := by
  have hd := (h.inUse ha).toDataBlock
  have hin : blockIdx fs.part a < fs.part.blockBitmap.size := by
    rw [← h.idx, ← h.env.size_eq hl h.sb]
    exact hd.inMap
  refine ⟨hin, ?_⟩
  by_contra hset
  have hused : InUse fs.part a := ⟨⟨h.sb ▸ hd.start, hd.onDisk, hin⟩, by simpa using hset⟩
  exact (h.others.data a hused (hnew.owns_nothing a)).2.1 ha

/-- The free blocks are those that are free now and those of the file. -/
theorem free_eq (hl : DiskLayout fs.part) (hnew : NewFile fs ref nd) :
    fs'.part.blockBitmap.free ∪ ownIdx fs'.disk fs'.part nd' n' = fs.part.blockBitmap.free := by
  obtain ⟨content, hholds⟩ := h.holds
  have hsize := h.env.size_eq hl h.sb
  have hmem := fun j => @FileOk.mem_ownIdx nd' n' fs'.disk fs'.part hholds.file h.env.layout j
  apply Finset.eq_of_subset_of_card_le
  · intro j hj
    rw [Bitmap.mem_free]
    obtain hfree | hown := Finset.mem_union.mp hj
    · obtain ⟨hin, hclear⟩ := Bitmap.mem_free.mp hfree
      rw [hsize] at hin
      refine ⟨hin, ?_⟩
      by_contra hset
      rw [h.keeps hl hnew hin (by simpa using hset)] at hclear
      cases hclear
    · obtain ⟨a, ha, rfl⟩ := (hmem j).mp hown
      rw [h.idx]
      exact h.fresh hl hnew ha
  · rw [Finset.card_union_of_disjoint, hholds.file.card_ownIdx, h.card]
    · exact Nat.le_refl _
    · rw [Finset.disjoint_left]
      intro j hfree hown
      obtain ⟨a, ha, rfl⟩ := (hmem j).mp hown
      have hclear := (Bitmap.mem_free.mp hfree).2
      rw [(h.inUse ha).marked] at hclear
      cases hclear

/-- What is marked was marked or is a block of the file. -/
theorem marks (hl : DiskLayout fs.part) (hnew : NewFile fs ref nd) {j : Nat}
    (hj : j < fs.part.blockBitmap.size) : fs'.part.blockBitmap.bit j = true ↔
      fs.part.blockBitmap.bit j = true ∨
        ∃ a, Owns fs'.disk nd' a ∧ blockIdx fs.part a = j := by
  constructor
  · intro hset
    by_contra hnot
    obtain ⟨hclear, hnone⟩ := not_or.mp hnot
    have hfree : j ∈ fs.part.blockBitmap.free := Bitmap.mem_free.mpr ⟨hj, by simpa using hclear⟩
    rw [← h.free_eq hl hnew] at hfree
    obtain ⟨content, hholds⟩ := h.holds
    obtain hfree | hown := Finset.mem_union.mp hfree
    · rw [(Bitmap.mem_free.mp hfree).2] at hset
      cases hset
    · obtain ⟨a, ha, hidx⟩ := (hholds.file.mem_ownIdx h.env.layout).mp hown
      exact hnone ⟨a, ha, (h.idx a) ▸ hidx⟩
  · rintro (hset | ⟨a, ha, rfl⟩)
    · exact h.keeps hl hnew hj hset
    · rw [← h.idx]
      exact (h.inUse ha).marked

end Written

/-! ## The last close -/

/-- The files without the inode at `ref`; the entry `i` of the file table and the descriptor are
free. -/
def afterClose (fs : Fs) (fd i ref : Nat) : Fs :=
  { fs.setOpenInodes (fs.part.openInodes.filter (·.ref ≠ ref)) with
    fileTable := Function.update fs.fileTable i { fs.fileTable i with fdInode := none }
    fdTable := Function.update fs.fdTable fd none }

theorem sysClose_last (h : WritesThrough fs fd i ref) (hfd : 2 < fd)
    (hat : fs.inodeAt ref = .ok nd) (hone : nd.iOpenCnts = 1) :
    sysClose fs fd = .ok (0, afterClose fs fd i ref) := by
  have hset : (fs.setInode ref { nd with writeDeny := false }).inodeAt ref =
      .ok { nd with writeDeny := false } := by
    obtain ⟨o, ho, href, -⟩ := inodeAt_mem hat
    obtain ⟨o', hfind⟩ : ∃ o', fs.part.openInodes.find? (·.ref = ref) = some o' :=
      Option.isSome_iff_exists.mp (List.find?_isSome.mpr ⟨o, ho, by simpa using href⟩)
    apply @inodeAt_eq ⟨o'.ref, { nd with writeDeny := false }⟩
    change (ZhuOS.setInode ref _ fs.part.openInodes).find? _ = _
    rw [find_setInode, hfind]
    rfl
  have hlast : nd.iOpenCnts - 1 = 0 := by
    rw [hone]
    rfl
  have hfilter := filter_setInode ref { nd with writeDeny := false } fs.part.openInodes
  have hlist : (fs.setInode ref { nd with writeDeny := false }).part.openInodes =
    setInode ref { nd with writeDeny := false } fs.part.openInodes := rfl
  simp only [sysClose, if_pos hfd, h.slot, ok_bind, fileClose, h.inode, hat, inodeClose, hset,
    hlast, ↓reduceIte, hlist, hfilter]
  rfl

/-! ## The closed file in its tree -/

/-- The file `n` has been made in the directory `p`, written to as far as `nd`, and closed. -/
structure FileClosed (fs fs' : Fs) (dirs : Nat → Prop) (p n : Nat) (s₀ : NodeState)
    (de : DirEntry) (s : NodeState) (nd : Inode) : Prop where
  entering : Entering fs dirs p n s₀ de s (inodeInit (.ofNat n))
  entered : Entered fs dirs p n s₀ de s fs'.disk
  settled : Settled fs p s fs'.disk fs'
  startBlocks : s₀.part.blockBitmap = fs.part.blockBitmap
  heap : fs'.heap = fun _ => true
  number : nd.iNo.toNat = n
  record : Inode.SameStored (diskInode fs'.disk fs'.part n) nd
  own : ∀ a, Owns fs'.disk nd a → InUse fs'.part a
  kept : ∀ a, InUse s.part a → InUse fs'.part a ∧ ¬ Owns fs'.disk nd a
  size : fs'.part.blockBitmap.size = fs.part.blockBitmap.size
  marks : ∀ j < fs.part.blockBitmap.size, fs'.part.blockBitmap.bit j = true ↔
    s.part.blockBitmap.bit j = true ∨ ∃ a, Owns fs'.disk nd a ∧ blockIdx fs.part a = j
  inodeBitmap : fs'.part.inodeBitmap = bitmapSet fs.part.inodeBitmap n true
  blockMap : BlockMapSynced fs'.disk fs'.part
  inodeMap : InodeMapSynced fs'.disk fs'.part
  slots : ∀ k r, (fs'.fileTable k).fdInode = some r → (fs.fileTable k).fdInode = some r

/-- The maps after the creation. -/
theorem Entering.maps {new : Inode} (he : Entering fs dirs p n s₀ de s new)
    (hc : ConsistentFs fs dirs) (hblocks : BlockMapSynced s₀.disk s₀.part) :
    BlockMapSynced (recordedDisk s new n) s.part ∧
      InodeMapSynced (recordedDisk s new n) s.part := by
  have hl := he.nodeLayout
  have hb := he.inserted.blockMap he.startLayout he.startOwn hblocks
  have hrecords : SameMaps s.part (blit (blit s.disk (inodeAddr s.part p) s.inode.pure.toBytes 0
      SIZEOF_INODE) (inodeAddr s.part n) new.pure.toBytes 0 SIZEOF_INODE)
        s.disk := (sameMaps_record _ _ _).trans (sameMaps_record _ _ _)
  rw [he.records.eq]
  refine ⟨syncInodeMap_blockMap hl (hrecords.blockMap hl hb) n, ?_⟩
  -- the inode bitmap on disk is still the one without the number
  have hlen := hc.layout.inodeMapLen
  have hmap := hc.layout.inodeMap
  have htable := hc.layout.table
  have hold : MapSynced s.disk s.part.sb.inodeBitmapLba.toNat fs.part.inodeBitmap := by
    rw [he.nodeSb]
    exact MapSynced.congr hc.inodeMap fun a hlo hhi => he.nodeTables a hlo (by omega)
  have hrecorded : MapSynced (blit (blit s.disk (inodeAddr s.part p) s.inode.pure.toBytes 0
      SIZEOF_INODE) (inodeAddr s.part n) new.pure.toBytes 0 SIZEOF_INODE)
        s.part.sb.inodeBitmapLba.toNat fs.part.inodeBitmap := by
    rw [← he.nodeSb] at hlen hmap
    exact MapSynced.congr hold fun a _ hhi => hrecords a (by omega)
  have hset := mapSynced_set hrecorded n true
  unfold InodeMapSynced syncInodeMap
  rw [he.nodeMap]
  exact hset

section
variable (he : Entering fs dirs p n s₀ de s (inodeInit (.ofNat n)))
include he

theorem Entering.writeEnv (ht : FileTree fs dirs) (hheap : fs.heap = fun _ => true)
    (i fd ref : Nat) : WriteEnv (createdFs fs flag l s n i fd ref) where
  layout := he.nodeLayout.relist _
  root := by
    have hsb : (createdFs fs flag l s n i fd ref).part.sb = fs.part.sb := he.nodeSb
    rw [hsb]
    exact (he.inserted.keeps (he.startKeeps _ ht.rootUse.1)).relist _
  heap := hheap

/-- After the last close the file is in its tree, and nothing is open that was not. -/
theorem Entering.fileClosed (hc : ConsistentFs fs dirs) (hheap : fs.heap = fun _ => true)
    (hstart : s₀.part.blockBitmap = fs.part.blockBitmap)
    (hblocks : BlockMapSynced s₀.disk s₀.part) (href : ∀ o ∈ fs.part.openInodes, o.ref ≠ ref)
    (hw : Written (createdFs fs flag (refresh p s.inode fs.part.openInodes) s n i fd ref) fs₂ ref
      { inodeInit (.ofNat n) with iOpenCnts := 1 } 0 nd n') :
    FileClosed fs (afterClose fs₂ fd i ref) dirs p n s₀ de s nd := by
  have henv : WriteEnv (createdFs fs flag (refresh p s.inode fs.part.openInodes) s n i fd ref) :=
    he.writeEnv hc.toFileTree hheap i fd ref
  have hnew : NewFile (createdFs fs flag (refresh p s.inode fs.part.openInodes) s n i fd ref) ref
      { inodeInit (.ofNat n) with iOpenCnts := 1 } := he.newFile i fd ref
  have hmaps := he.maps hc hblocks
  obtain ⟨content, hholds⟩ := hw.holds
  have hsb₂ : fs₂.part.sb = fs.part.sb := hw.sb.trans he.nodeSb
  have hpart : fs₂.part = { s.part with
      blockBitmap := fs₂.part.blockBitmap, openInodes := fs₂.part.openInodes } := hw.others.part
  have hnumber : nd.iNo.toNat = n := by
    rw [hw.others.node]
    exact he.newToNat
  -- what was in use after the creation
  have hdata : ∀ a, InUse s.part a → InUse fs₂.part a ∧ ¬ Owns fs₂.disk nd a ∧
      Same fs₂.disk (recordedDisk s (inodeInit (.ofNat n)) n) (a.toNat * 512) 512 :=
    fun a ha => hw.others.data a (ha.relist _) (hnew.owns_nothing a)
  have hrecord : ∀ m < 4096, m ≠ n → diskInode fs₂.disk fs.part m =
      diskInode (recordedDisk s (inodeInit (.ofNat n)) n) fs.part m := by
    intro m hm hne
    have hold := hw.others.stored m hm (by rwa [he.newNo])
    rw [diskInode_sb hsb₂] at hold
    exact hold.trans (diskInode_sb he.nodeSb _ m)
  have hentered : Entered fs dirs p n s₀ de s fs₂.disk :=
    { he.entered with
      dataSame := fun a ha => (hdata a ha).2.2.trans (he.entered.dataSame a ha)
      parentRecord := by
        rw [hrecord p (hc.small p he.isDir) (he.ne_new he.isDir)]
        exact he.parentRecord
      recordSame := fun m hm hmp hmn => (hrecord m hm hmn).trans (he.recordSame hmp hmn hm) }
  have hlist : fs₂.part.openInodes.filter (·.ref ≠ ref) =
      refresh p s.inode fs.part.openInodes := by
    have hothers : ∀ o ∈ refresh p s.inode fs.part.openInodes, decide (o.ref ≠ ref) = true := by
      intro o ho
      obtain ⟨o', ho', rfl⟩ := List.mem_map.mp ho
      have hne := href o' ho'
      by_cases hp : o'.inode.iNo.toNat = p
      · rw [if_pos hp]
        exact decide_eq_true hne
      · rw [if_neg hp]
        exact decide_eq_true hne
    rw [hw.others.opened]
    have hcons : (createdFs fs flag (refresh p s.inode fs.part.openInodes) s n i fd
        ref).part.openInodes = ⟨ref, { inodeInit (.ofNat n) with iOpenCnts := 1 }⟩ ::
          refresh p s.inode fs.part.openInodes := rfl
    rw [hcons, List.filter_cons_of_neg (by simp), List.filter_eq_self.mpr hothers]
  have hsize : fs₂.part.blockBitmap.size = fs.part.blockBitmap.size :=
    hw.env.size_eq hc.layout hsb₂
  have hsize₁ : s.part.blockBitmap.size = fs.part.blockBitmap.size :=
    henv.size_eq hc.layout he.nodeSb
  refine ⟨he, hentered, ⟨rfl, hsb₂, hw.env.layout.relist _, hw.others.rootDir, hlist⟩, hstart,
    hw.env.heap, hnumber, ?_, ?_, ?_, hsize, ?_, ?_, ?_, ?_, ?_⟩
  · have hmod : n % 2 ^ 8 = n := Nat.mod_eq_of_lt he.low
    have hstored := hholds.record
    rw [hnumber, hmod] at hstored
    exact hstored
  · exact fun a ha => (hw.inUse ha).relist _
  · exact fun a ha => ⟨(hdata a ha).1.relist _, (hdata a ha).2.1⟩
  · intro j hj
    have hmarks := hw.marks henv.layout hnew (hsize₁.symm ▸ hj)
    have hidx : ∀ a, blockIdx (createdFs fs flag (refresh p s.inode fs.part.openInodes) s n i fd
        ref).part a = blockIdx fs.part a := blockIdx_sb he.nodeSb
    simp only [hidx] at hmarks
    exact hmarks
  · have hmap : fs₂.part.inodeBitmap = s.part.inodeBitmap := by rw [hpart]
    exact hmap.trans he.nodeMap
  · exact hw.others.blockMap hmaps.1
  · exact hw.others.inodeMap hmaps.2
  · intro k r hk
    have hk : (Function.update fs₂.fileTable i { fs₂.fileTable i with fdInode := none } k).fdInode =
        some r := hk
    by_cases hki : k = i
    · subst hki
      rw [Function.update_self] at hk
      cases hk
    · rw [Function.update_of_ne hki, (hw.others.slots k).1] at hk
      have hk : (Function.update fs.fileTable i ⟨0, flag.toUInt32, some ref⟩ k).fdInode =
          some r := hk
      rwa [Function.update_of_ne hki] at hk

end

end ZhuOS
