import ZhuOS.FileCycle

/-!
# The file is removed again

The search finds the entry that the creation has put into the parent directory. Its deletion
gives up the block that came with it, if one did, and the release of the inode the blocks of the
file, its record and its number.
-/

namespace ZhuOS

open ByteMem Slots

set_option maxRecDepth 2000

variable {fs fs' : Fs} {dirs : Nat → Prop} {parent nd : Inode} {name : List UInt8}
  {n p i fd : Nat} {de : DirEntry} {s s₀ : NodeState} {l : List OpenInode}

/-! ## The search finds the file again -/

/-- The name is not used in the directory, which has room for it. -/
structure NewName (fs : Fs) (p : Nat) (name : List UInt8) : Prop where
  isName : FileName name
  unlisted : lookup fs.disk (diskInode fs.disk fs.part p) name = none
  room : ¬ DirectFull fs.disk (diskInode fs.disk fs.part p) 12

/-- With `.` and `..` listed a new name is neither. -/
theorem NewName.proper (h : NewName fs p name) (ht : DottedTree fs dirs) (hp : dirs p) :
    name ≠ dot ∧ name ≠ dotDot := by
  refine not_or.mp fun hdots => ?_
  obtain ⟨q, hq, e, he, hname⟩ := ht.dots p hp name hdots
  have hmem := mem_entries_of_slot hq he
  have hfound := h.unlisted
  rw [lookup_none] at hfound
  exact hfound e hmem hname

namespace FileClosed

section
variable (h : FileClosed fs fs' dirs p n s₀ de s nd)
include h

theorem live (ht : FileTree fs dirs) : OpenOk fs'.part.openInodes := by
  rw [h.settled.opened]
  exact ht.openOk.refresh h.entering.nodeNo

theorem spare (ht : FileTree fs dirs) : Room 3 fs'.part.openInodes := by
  rw [h.settled.opened]
  intro o ho
  obtain ⟨o', ho', rfl⟩ := List.mem_map.mp ho
  have hroom := ht.spare o' ho'
  by_cases hp : o'.inode.iNo.toNat = p
  · rw [if_pos hp]
    exact hroom
  · rw [if_neg hp]
    exact hroom

/-- The new number is not open. -/
theorem unopened (hc : ConsistentFs fs dirs) {o : OpenInode} (ho : o ∈ fs'.part.openInodes) :
    o.inode.iNo.toNat ≠ n := by
  obtain ⟨o', ho', -, hno, -⟩ := h.settled.mem h.entering.nodeNo ho
  intro he
  have hmarked := hc.cached o' ho'
  rw [← hno, he, h.entering.free] at hmarked
  cases hmarked

theorem right (hde : createDirEntry name (.ofNat n) FT_REGULAR = .ok de)
    (hnew : NewName fs p name) :
    InsertedRight s₀ s name (.ofNat n) FT_REGULAR :=
  h.entered.parentNames hnew.isName hde hnew.unlisted hnew.room

/-- Where a name led it leads still. -/
theorem steps (hde : createDirEntry name (.ofNat n) FT_REGULAR = .ok de)
    (hnew : NewName fs p name) : StepsKept fs fs' dirs :=
  h.entered.steps rfl h.settled.sb (h.right hde hnew)

theorem treeOk (hde : createDirEntry name (.ofNat n) FT_REGULAR = .ok de)
    (hnew : NewName fs p name) : TreeOk fs' dirs := by
  obtain ⟨hname, hno, htype⟩ := createDirEntry_ok hnew.isName hde
  have hentry : de.stored.iNo.toNat < 4096 := by
    rw [hno, h.entering.newToNat]
    have hlow := h.entering.low
    omega
  have hnone : NewDirs fs dirs (fun _ => False) de fs'.disk :=
    ⟨fun _ _ => not_false, nofun, nofun, nofun, nofun, hentry, .inl htype⟩
  have hok := h.settled.treeOk h.entered hnone (h.steps hde hnew)
  simpa only [or_false] using hok

end

section
variable {p : UInt32} {path : List UInt8} {front : List (List UInt8)}
  (h : FileClosed fs fs' dirs p.toNat n s₀ de s nd)
include h

/-- The path leads to the new entry. -/
theorem fileOn (hc : ConsistentFs fs dirs)
    (hde : createDirEntry name (.ofNat n) FT_REGULAR = .ok de)
    (hnew : NewName fs p.toNat name) (hpath : PathName path)
    (hmiss : MissingAt fs (components path) front name [] p) :
    ∃ e, FileOn fs' (components path) p e ∧ e.iNo = .ofNat n := by
  have hroot : dirs (0 : UInt32).toNat := hc.root
  have hfront : ∀ c ∈ front, FileName c := fun c hc =>
    hpath.names c (hmiss.split ▸ List.mem_append_left _ hc)
  obtain ⟨e, hfound, hno, htype⟩ := (h.entered.parentFinds name).mp (h.right hde hnew).new
  rw [← diskInode_sb h.settled.sb] at hfound
  have hleads := (h.steps hde hnew).walk hc.toTreeOk hroot hfront hmiss.leads
  exact ⟨e, ⟨front, name, [], hmiss.split, hleads, hfound, htype⟩, hno⟩

/-- The search ends at the new entry, with the parent directory open. -/
theorem search (hc : ConsistentFs fs dirs)
    (hde : createDirEntry name (.ofNat n) FT_REGULAR = .ok de)
    (hnew : NewName fs p.toNat name) (hpath : PathName path)
    (hmiss : MissingAt fs (components path) front name [] p) :
    ∃ record l node, searchFile fs' path = .ok (.ofNat n, record, fs'.setOpenInodes l) ∧
      record.fileType = FT_REGULAR ∧ DirAt fs' p.toNat record.parentDir l node ∧
        Holds fs' record.parentDir l := by
  have htree := h.treeOk hde hnew
  have hsome : components path ≠ [] := by
    rw [hmiss.split]
    simp
  obtain ⟨e, hfile, hno⟩ := h.fileOn hc hde hnew hpath hmiss
  obtain ⟨r, hsearch, hstop⟩ := searchFile_stop htree h.heap hpath.absolute hpath.fits hpath.short
    (hmiss.not_known hc.toTreeOk)
  have hstop' := hstop
  cases hstop with
  | missing => exact absurd rfl (hstop'.found hsome hfile.answers)
  | directory q parent dir l node hwalk hsmall hat =>
    have hans := hstop'.answers hsome (hstop'.found hsome hfile.answers)
    have htype := congrArg Prod.snd (hans.unique hfile.answers)
    exact absurd htype (by decide : FT_DIRECTORY ≠ FT_REGULAR)
  | file front' rest name' q e' dir l node hsplit hwalk hat hfound htype hsmall =>
    have hfile' : FileOn fs' (components path) q e' :=
      ⟨front', name', rest, hsplit, hwalk, hfound, htype⟩
    obtain ⟨rfl, rfl⟩ := hfile.unique hfile'
    obtain ⟨l', heap, heq, hholds⟩ :=
      searchFile_holds ⟨htree.openOk.refs, htree.openOk.counts⟩ hsearch
    have hlist : l' = l := congrArg (·.part.openInodes) heq.symm
    exact ⟨_, l, node, hno ▸ hsearch, rfl, hat, hlist ▸ hholds⟩

end

end FileClosed

/-! ## Its entry is deleted -/

/-- The entry in the slot is gone; the directory and both maps are stored. -/
structure Deletes (s s' : NodeState) (q : Nat × Nat) (e : DirEntry) : Prop where
  cleared : Cleared dirGrid (slot s.disk s.inode) (slot s'.disk s'.inode) q e
  size : s'.inode.iSize = s.inode.iSize - 24
  keeps : KeepsDir s s'
  own : OwnBlocks s'.disk s'.part s'.inode
  spares : Spares s s' (s.inode.iNo.toNat % 2 ^ 8)
  record : Inode.SameStored (diskInode s'.disk s'.part (s.inode.iNo.toNat % 2 ^ 8)) s'.inode
  blockMap : BlockMapSynced s.disk s.part → BlockMapSynced s'.disk s'.part
  inodeMap : InodeMapSynced s.disk s.part → InodeMapSynced s'.disk s'.part

theorem storeRecord_stored (disk : Bytes) (part : Partition) (nd : Inode) :
    Inode.SameStored (diskInode (storeRecord disk part nd) part (nd.iNo.toNat % 2 ^ 8)) nd := by
  have hpure := @diskInode_stored disk part (nd.iNo.toNat % 2 ^ 8) nd.pure
  exact ⟨hpure.iNo, hpure.iSize, hpure.iSectors⟩

section
variable {q : Nat × Nat} {e : DirEntry}

theorem clearSlot_deletes (hl : DiskLayout s.part) (hown : OwnBlocks s.disk s.part s.inode)
    (hq : q ∈ dirGrid) (hslot : slot s.disk s.inode q = some e) :
    Deletes s (s.clearSlot q) q e := by
  have hne := (slot_some.mp hslot).1
  have hd := (hown.inUse q.1 (mem_dirGrid.mp hq).1 hne).toDataBlock
  have hmaps : SameMaps s.part (s.clearSlot q).disk s.disk :=
    (sameMaps_record _ _ _).trans (sameMaps_block hl hd _ _ (Nat.le_add_right _ _))
  exact ⟨clearSlot_cleared hl hown hq hslot, rfl, ⟨⟨rfl, rfl⟩, rfl, rfl⟩,
    clearSlot_own hl hown hq hne, clearSlot_spares hl hown hq hne,
    storeRecord_stored _ s.part s.inode.shrink, hmaps.blockMap hl, hmaps.inodeMap hl⟩

theorem dropBlock_deletes (hl : DiskLayout s.part) (hown : OwnBlocks s.disk s.part s.inode)
    (hq : q ∈ dirGrid) (hk : q.1 < 12) (hslot : slot s.disk s.inode q = some e)
    (hlone : Lone s.disk s.inode q)
    (hparent : ∀ j < 21, ∀ a, slot s.disk s.inode (q.1, j) = some a → a.name ≠ dotDot) :
    Deletes s (s.dropBlock q.1) q e := by
  have hne := (slot_some.mp hslot).1
  have hd := (hown.inUse q.1 (by omega) hne).toDataBlock
  have hspares := dropBlock_spares hl hown hk hne
  have hl' := hspares.layout
  have hrecord : SameMaps (s.dropBlock q.1).part (s.dropBlock q.1).disk
      (syncBlockMap s.disk (s.dropBlock q.1).part
        (blockIdx s.part (blockAt s.disk s.inode q.1))) := sameMaps_record _ _ _
  refine ⟨dropBlock_cleared hl hown hq hk hslot hlone hparent, rfl, ⟨⟨rfl, rfl⟩, rfl, rfl⟩,
    dropBlock_own hl hown hk hne, hspares,
    storeRecord_stored _ _ (s.dropBlock q.1).inode, fun hs => ?_, fun hs => ?_⟩
  · exact hrecord.blockMap hl' (mapSynced_set hs _ false)
  · have houtside := @syncBlockMap_outside s.disk (s.dropBlock q.1).part hl' _ hd.inMap
    exact hrecord.inodeMap hl' (houtside.inodeMap hs)

end

namespace FileClosed

variable {q : Nat × Nat} {dir : Dir} {node : Inode}
  (h : FileClosed fs fs' dirs p n s₀ de s nd)
include h

theorem filled (hde : createDirEntry name (.ofNat n) FT_REGULAR = .ok de)
    (hnew : NewName fs p name) : ∃ q, SlotFilled s₀ s q de.stored := by
  obtain ⟨-, -, htype⟩ := createDirEntry_ok hnew.isName hde
  refine h.entering.inserted.filled h.entering.startLayout h.entering.startOwn (fun hfull => ?_) ?_
  · exact hnew.room ((h.entered.parentMoved.directFull (Nat.le_refl 12)).mp hfull)
  · rw [htype]
    decide

/-- The parent, open again, is as the insertion has left it. -/
theorem parentMoved (hat : DirAt fs' p dir l node) : Moved s.disk s.inode fs'.disk node := by
  have hstored := hat.stored
  rw [diskInode_sb h.settled.sb] at hstored
  exact h.entered.parentFinal.trans ⟨hstored.iSectors, fun _ _ _ _ _ => rfl⟩

/-- Its slots are those from before, with the new entry in a free one. -/
theorem put (hat : DirAt fs' p dir l node) (hf : SlotFilled s₀ s q de.stored) :
    Put dirGrid (slot fs.disk (diskInode fs.disk fs.part p)) (slot fs'.disk node) q de.stored where
  mem := hf.put.mem
  free := (h.entered.parentMoved.slot hf.put.mem).symm.trans hf.put.free
  self := ((h.parentMoved hat).slot hf.put.mem).trans hf.put.self
  other r hr hrq := by
    rw [(h.parentMoved hat).slot hr, hf.put.other r hr hrq, h.entered.parentMoved.slot hr]

/-- No two entries of the parent have one number. -/
theorem keyOnce (hc : ConsistentFs fs dirs) (hno : de.stored.iNo = .ofNat n)
    (hat : DirAt fs' p dir l node) (hf : SlotFilled s₀ s q de.stored) :
    KeyOnce dirGrid (slot fs'.disk node) (·.iNo) DirEntry.Proper := by
  refine (h.put hat hf).keyOnce (hc.numbers p h.entering.isDir) fun r hr e he _ hsame => ?_
  refine hc.unlisted h.entering.inMap h.entering.free h.entering.isDir hr he ?_
  rw [hsame, hno]
  exact h.entering.newToNat

/-- In a block that was there the new entry is not alone. -/
theorem not_lone (hc : ConsistentFs fs dirs) (hat : DirAt fs' p dir l node)
    (hf : SlotFilled s₀ s q de.stored) (hsame : s.inode.iSectors = s₀.inode.iSectors) :
    ¬ Lone fs'.disk node q := by
  intro hlone
  have hput := h.put hat hf
  have hdirect := hf.direct
  have hq2 := (mem_dirGrid.mp hput.mem).2
  by_cases hfirst : q.1 = 0
  · obtain ⟨j, hj, e, he, hname⟩ := hc.firstDot p h.entering.isDir
    rw [← hfirst] at he
    have hafter := hput.keeps (pair_mem_dirGrid (by omega) hj) he
    exact hlone.noDot j hj e hafter hname
  · have hne : blockAt fs.disk (diskInode fs.disk fs.part p) q.1 ≠ 0 := by
      have hused := (slot_some.mp hf.put.self).1
      rw [blockAt_direct hdirect, hsame] at hused
      rw [blockAt_direct hdirect, ← h.entering.stored.iSectors q.1 (by omega)]
      exact hused
    obtain ⟨j, hj, e, he, hproper⟩ := hc.holdsEntry h.entering.isDir (by omega) hfirst hne
    have hafter := hput.keeps (pair_mem_dirGrid (by omega) hj) he
    obtain rfl := hlone.only j hj e hafter hproper
    have hfree := hput.free
    rw [he] at hfree
    cases hfree

/-- In a block of its own it is all that lies there. -/
theorem alone (hat : DirAt fs' p dir l node) (hf : SlotFilled s₀ s q de.stored)
    (hz : s₀.inode.iSectors q.1 = 0) {j : Nat} (hj : j < 21) {e : DirEntry}
    (he : slot fs'.disk node (q.1, j) = some e) : j = q.2 ∧ e = de.stored := by
  have hdirect := hf.direct
  obtain ⟨heq, rfl⟩ | ⟨-, hold⟩ :=
    (h.put hat hf).cases (pair_mem_dirGrid (by omega) hj) he
  · exact ⟨congrArg Prod.snd heq, rfl⟩
  · have hne := (slot_some.mp hold).1
    rw [blockAt_direct hdirect, ← h.entering.stored.iSectors q.1 (by omega)] at hne
    exact absurd hz hne

theorem grown (hat : DirAt fs' p dir l node) (hf : SlotFilled s₀ s q de.stored) :
    node.iSize = (diskInode fs.disk fs.part p).iSize + 24 := by
  rw [hat.stored.iSize, diskInode_sb h.settled.sb, h.entered.parentRecord.iSize, hf.size,
    h.entering.stored.iSize]

/-- What the insertion has left marked in a block of its own. -/
theorem bits_claimed {lba : UInt32} {disk : Bytes}
    (hclaim : Claimed s₀.disk s₀.part lba disk s.part) {j : Nat}
    (hj : j < fs.part.blockBitmap.size) :
    (j ≠ blockIdx fs.part lba ∧ fs'.part.blockBitmap.bit j = true) ↔
      fs.part.blockBitmap.bit j = true ∨ ∃ a, Owns fs'.disk nd a ∧ blockIdx fs.part a = j := by
  have hidx₀ := blockIdx_sb h.entering.startSb
  have hclear : fs.part.blockBitmap.bit (blockIdx fs.part lba) = false := by
    rw [← h.startBlocks, ← hidx₀]
    exact hclaim.free
  have hnode : s.part.blockBitmap.bit j = true ↔
      j = blockIdx fs.part lba ∨ fs.part.blockBitmap.bit j = true := by
    rw [hclaim.part_eq, setBlock_bit, hidx₀, h.startBlocks]
    by_cases hjl : j = blockIdx fs.part lba
    · simp [hjl]
    · simp [hjl]
  rw [h.marks j hj, hnode]
  constructor
  · rintro ⟨hne, (hjl | hset) | hown⟩
    · exact absurd hjl hne
    · exact .inl hset
    · exact .inr hown
  · rintro (hset | ⟨a, ha, rfl⟩)
    · refine ⟨?_, .inl (.inr hset)⟩
      rintro rfl
      rw [hclear] at hset
      cases hset
    · refine ⟨fun he => ?_, .inr ⟨a, ha, rfl⟩⟩
      -- a block of the file is not the one the entry is in
      have hused := (h.kept lba hclaim.inUse)
      have hidx := blockIdx_sb h.settled.sb
      have hsame : blockIdx fs'.part a = blockIdx fs'.part lba := by rw [hidx, hidx, he]
      obtain rfl := (h.own a ha).toDataBlock.idx_inj hused.1.toDataBlock hsame
      exact hused.2 ha

/-- The entry is deleted. What is marked then was marked before the creation, or is a block of
the file. -/
theorem deletes (hc : ConsistentFs fs dirs)
    (hde : createDirEntry name (.ofNat n) FT_REGULAR = .ok de)
    (hnew : NewName fs p name) (hat : DirAt fs' p dir l node) (ioBuf : Bytes) :
    ∃ s' q, SlotFilled s₀ s q de.stored ∧
      deleteDirEntry ⟨fs'.disk, (fs'.setOpenInodes l).part, node⟩ n ioBuf = .ok (true, s') ∧
      Deletes ⟨fs'.disk, (fs'.setOpenInodes l).part, node⟩ s' q de.stored ∧
      ∀ j < fs.part.blockBitmap.size, s'.part.blockBitmap.bit j = true ↔
        fs.part.blockBitmap.bit j = true ∨ ∃ a, Owns fs'.disk nd a ∧ blockIdx fs.part a = j := by
  obtain ⟨q, hf⟩ := h.filled hde hnew
  obtain ⟨hname, hno, -⟩ := createDirEntry_ok hnew.isName hde
  have hput := h.put hat hf
  have hl : DiskLayout (fs'.setOpenInodes l).part := h.settled.layout.relist l
  have hown : OwnBlocks fs'.disk (fs'.setOpenInodes l).part node :=
    (h.parentMoved hat).own (fun a ha => (h.kept a ha).1.relist l) h.entered.parentOwn
  have hproper : de.stored.Proper := by
    unfold DirEntry.Proper
    rw [hname]
    exact hnew.proper hc.toDottedTree h.entering.isDir
  have hsize : (24 : UInt32) ≤ node.iSize := by
    have hbound := hc.bounded p h.entering.isDir
    have h24 : (24 : UInt32).toNat = 24 := rfl
    rw [h.grown hat hf, UInt32.le_iff_toNat_le, UInt32.toNat_add, h24, Nat.mod_eq_of_lt hbound]
    omega
  have hnat : de.stored.iNo.toNat = n := hno ▸ h.entering.newToNat
  have hdel := @deleteDirEntry_found ⟨fs'.disk, (fs'.setOpenInodes l).part, node⟩ q de.stored hl
    hown (h.keyOnce hc hno hat hf) hput.mem hput.self hproper hsize ioBuf
  rw [hnat] at hdel
  generalize deleteDirEntry _ n ioBuf = r at hdel
  obtain ⟨hsectors, hpart⟩ | ⟨lba, disk, hz, hclaim, hsectors⟩ := hf.blocks
  · have hmore := h.not_lone hc hat hf hsectors
    cases hdel with
    | drop hlone hk => exact absurd hlone hmore
    | stuck hlone hk => exact absurd hlone hmore
    | clear _ =>
      refine ⟨_, q, hf, rfl, clearSlot_deletes hl hown hput.mem hput.self, fun j hj => ?_⟩
      have hmarks := h.marks j hj
      rw [hpart, h.startBlocks] at hmarks
      exact hmarks
  · have hall := fun j (hj : j < 21) e => @alone _ _ _ _ _ _ _ _ _ _ q dir node h hat hf hz j hj e
    cases hdel with
    | clear hmore =>
      refine absurd ⟨fun j hj e he _ => (hall j hj e he).1, fun j hj e he => ?_⟩ hmore
      rw [(hall j hj e he).2]
      exact hproper.1
    | stuck hlone hk => exact absurd hf.direct (by omega)
    | drop hlone hk =>
      refine ⟨_, q, hf, rfl, dropBlock_deletes hl hown hput.mem hk hput.self hlone ?_, ?_⟩
      · intro j hj e he
        rw [(hall j hj e he).2]
        exact hproper.2
      · intro j hj
        have hlba : blockAt fs'.disk node q.1 = lba := by
          rw [blockAt_direct hk, (h.parentMoved hat).sectors q.1 (by omega), hsectors, if_pos rfl]
        have hidx : blockIdx (fs'.setOpenInodes l).part (blockAt fs'.disk node q.1) =
            blockIdx fs.part lba := by
          rw [hlba]
          exact blockIdx_sb h.settled.sb lba
        rw [← h.bits_claimed hclaim hj]
        simp only [NodeState.dropBlock, hidx, setBlock_bit]
        have hlist : (fs'.setOpenInodes l).part.blockBitmap = fs'.part.blockBitmap := rfl
        rw [hlist]
        by_cases hjl : j = blockIdx fs.part lba
        · simp [hjl]
        · simp [hjl]

/-! ## Its blocks and its number are given up -/

theorem ne_parent : n ≠ p := fun he => h.entering.fresh (he ▸ h.entering.isDir)

/-- The first block of the data area is not one of the file. -/
theorem not_first (ht : FileTree fs dirs) {a : UInt32} (ha : Owns fs'.disk nd a) :
    blockIdx fs'.part a ≠ 0 := by
  intro hzero
  have hroot := h.entering.inserted.keeps (h.entering.startKeeps _ ht.rootUse.1)
  have haddr := (h.own a ha).toDataBlock.addr
  rw [hzero, h.settled.sb] at haddr
  obtain rfl : a = fs.part.sb.dataStartLba := UInt32.toNat_inj.mp (by omega)
  exact (h.kept _ hroot).2 ha

/-- The blocks of the file are not those of the parent. -/
theorem apart (hat : DirAt fs' p dir l node) {a : UInt32} (ha : Owns fs'.disk nd a) :
    ¬ HasBlock fs'.disk node a := by
  intro hparent
  have hused := h.entered.parentOwn.holds ((h.parentMoved hat).holds.mp hparent)
  exact (h.kept a hused).2 ha

/-- Nothing that is open has the number. -/
theorem unopened_after (hc : ConsistentFs fs dirs) (hat : DirAt fs' p dir l node) {nd' : Inode}
    (hno : nd'.iNo = node.iNo) {o : OpenInode} (ho : o ∈ setInode dir.inode nd' l) :
    o.inode.iNo.toNat ≠ n := by
  obtain ⟨hold, -⟩ | ⟨a, -, -, rfl⟩ := mem_setInode ho
  · obtain hmem | hparent := hat.mem hold
    · exact h.unopened hc hmem
    · rw [hparent, hat.no]
      exact h.ne_parent.symm
  · rw [hno, hat.no]
    exact h.ne_parent.symm

/-- Behind the deletion the inode is released. -/
theorem releases (hc : ConsistentFs fs dirs) (hat : DirAt fs' p dir l node) (hd : Holds fs' dir l)
    {s' : NodeState} {e : DirEntry}
    (hdel : Deletes ⟨fs'.disk, (fs'.setOpenInodes l).part, node⟩ s' q e) :
    ∃ disk part, inodeRelease ((fs'.setOpenInodes l).setNode dir.inode s') n =
        .ok (releasedFs ((fs'.setOpenInodes l).setNode dir.inode s') disk part n) ∧
      Freed s'.disk ((fs'.setOpenInodes l).setNode dir.inode s').part (Owns fs'.disk nd) disk
        part := by
  have hspares := hdel.spares
  have hne := h.ne_parent
  have hlive := h.live hc.toFileTree
  obtain ⟨held, hcounted⟩ := Live.counted ⟨hlive.refs, hlive.counts⟩
  have hfit : FitsMore 3 held := (h.spare hc.toFileTree).fits (by decide) hcounted
  have hopen := hd.counted hcounted (hfit.mono (by decide))
  have hfit' : FitsMore 1 (held + dirUse dir) := FitsMore.dirUse (hfit.mono (by decide)) dir
  have hquiet : Quiet 1 (fs'.setOpenInodes l) ((fs'.setOpenInodes l).setNode dir.inode s') :=
    .setNode hat.inodeAt hdel.keeps
  have hlist : s'.part.openInodes = l := hspares.only.openInodes
  have hlow := h.entering.low
  have hmap : n < ((fs'.setOpenInodes l).setNode dir.inode s').part.inodeBitmap.size := by
    have honly : s'.part.inodeBitmap = fs'.part.inodeBitmap := hspares.only.inodeBitmap
    change n < s'.part.inodeBitmap.size
    rw [honly, h.inodeBitmap]
    exact h.entering.inMap
  -- the record of the file
  have hparent : node.iNo.toNat % 2 ^ 8 = p := by
    rw [hat.no]
    exact Nat.mod_eq_of_lt (hc.low p h.entering.isDir)
  have hsame : diskInode s'.disk s'.part n = diskInode fs'.disk fs'.part n :=
    hspares.diskInode (by omega) (hparent.symm ▸ hne)
  have hstored : Inode.SameStored (diskInode s'.disk s'.part n) nd := hsame ▸ h.record
  have hblocks : Releasable fs'.disk (fs'.setOpenInodes l).part nd := by
    intro a ha
    have hown := owns_iff.mpr ha
    exact ⟨((h.own a hown).relist l).toDataBlock, h.not_first hc.toFileTree hown⟩
  have hmoved : Moved fs'.disk nd s'.disk (diskInode s'.disk s'.part n) := by
    refine ⟨hstored.iSectors, fun a ha => ?_⟩
    exact hspares.same a (hblocks a ha).1 (h.apart hat (owns_iff.mpr ha))
  have hrelease : Releasable s'.disk s'.part (diskInode s'.disk s'.part n) := by
    intro a ha
    obtain ⟨hd, hidx⟩ := hblocks a (hmoved.holds.mp ha)
    obtain ⟨hd', hsame'⟩ := hspares.dataBlock hd
    exact ⟨hd', hsame' ▸ hidx⟩
  have hheap : ((fs'.setOpenInodes l).setNode dir.inode s').heap = fun _ => true := h.heap
  obtain ⟨disk, part, hrun, hfreed⟩ := @inodeRelease_freed
    ((fs'.setOpenInodes l).setNode dir.inode s') n _ (hspares.layout.relist _) hheap
    (hquiet.counted _ hfit' hopen) hfit' (by omega) hmap (by
      have hno : (diskInode s'.disk s'.part n).iNo.toNat = n := by rw [hstored.iNo, h.number]
      exact hno)
    (fun o ho hno => absurd hno (h.unopened_after hc hat hdel.keeps.iNo (hlist ▸ ho)))
    (hrelease.relist _)
  have hgone : HasBlock s'.disk (diskInode s'.disk s'.part n) = Owns fs'.disk nd :=
    funext fun a => propext (hmoved.holds.trans owns_iff.symm)
  exact ⟨disk, part, hrun, hgone ▸ hfreed⟩

end FileClosed

/-! ## What a release leaves alone -/

section
variable {disk : Bytes} {part : Partition} {m : Nat}

theorem releasedFs_disk (fs : Fs) (disk : Bytes) (part : Partition) (n : Nat) :
    (releasedFs fs disk part n).disk = blit (syncInodeMap disk
      { part with inodeBitmap := bitmapSet part.inodeBitmap n false } n) (inodeAddr part n)
        (fun _ => 0) 0 SIZEOF_INODE := rfl

/-- The sectors from the inode table on, but for the record. -/
theorem releasedFs_same (hl : DiskLayout part) (hn : n < part.inodeBitmap.size) (fs : Fs)
    {off len : Nat} (hoff : part.sb.inodeTableLba.toNat * 512 ≤ off)
    (hrecord : off + len ≤ inodeAddr part n ∨ inodeAddr part n + SIZEOF_INODE ≤ off) :
    Same (releasedFs fs disk part n).disk disk off len := by
  have hl' : DiskLayout { part with inodeBitmap := bitmapSet part.inodeBitmap n false } :=
    ⟨hl.blockMapLen, hl.inodeMapLen, hl.blockMap, hl.inodeMap, hl.table, hl.onDisk, hl.inPart,
      hl.blocks, hl.entrySize⟩
  rw [releasedFs_disk]
  exact (blit_same hrecord).trans (syncInodeMap_same hl' hn disk hoff)

theorem releasedFs_record (hl : DiskLayout part) (hn : n < part.inodeBitmap.size) (fs : Fs)
    (hm : m ≠ n) : diskInode (releasedFs fs disk part n).disk part m = diskInode disk part m :=
  diskInode_congr (releasedFs_same hl hn fs (Nat.le_add_right _ _) (records_apart part hm))

theorem releasedFs_data (hl : DiskLayout part) (hn : n < part.inodeBitmap.size) (hlow : n < 4096)
    (fs : Fs) {a : UInt32} (ha : part.sb.dataStartLba.toNat ≤ a.toNat) :
    Same (releasedFs fs disk part n).disk disk (a.toNat * 512) 512 := by
  have htable := hl.table
  apply releasedFs_same hl hn fs (by omega)
  right
  unfold inodeAddr SIZEOF_INODE
  omega

theorem releasedFs_maps (hl : DiskLayout part) (fs : Fs) (hb : BlockMapSynced disk part)
    (hi : InodeMapSynced disk part) :
    BlockMapSynced (releasedFs fs disk part n).disk (releasedFs fs disk part n).part ∧
      InodeMapSynced (releasedFs fs disk part n).disk (releasedFs fs disk part n).part := by
  have hl' : DiskLayout (releasedFs fs disk part n).part :=
    ⟨hl.blockMapLen, hl.inodeMapLen, hl.blockMap, hl.inodeMap, hl.table, hl.onDisk, hl.inPart,
      hl.blocks, hl.entrySize⟩
  have hrecord : SameMaps (releasedFs fs disk part n).part (releasedFs fs disk part n).disk
      (syncInodeMap disk (releasedFs fs disk part n).part n) := by
    rw [releasedFs_disk]
    exact sameMaps_record _ _ n
  have hblocks : BlockMapSynced disk (releasedFs fs disk part n).part := hb
  exact ⟨hrecord.blockMap hl' (syncInodeMap_blockMap hl' hblocks n),
    hrecord.inodeMap hl' (mapSynced_set hi n false)⟩

end

theorem Freed.inodeMap {disk disk' : Bytes} {part part' : Partition} {gone : UInt32 → Prop}
    (h : Freed disk part gone disk' part') (hs : InodeMapSynced disk part) :
    InodeMapSynced disk' part' := by
  have hkept := h.outside.inodeMap hs
  unfold InodeMapSynced at hkept ⊢
  rw [h.only.sb, h.only.inodeBitmap]
  exact hkept

/-! ## The call -/

theorem fileInUse_none {no : UInt32} (hopen : ∀ o ∈ fs.part.openInodes, o.inode.iNo ≠ no)
    (left k : Nat) : fileInUse fs no left k ≠ .ok true := by
  induction left generalizing k with
  | zero => exact nofun
  | succ left ih =>
    rw [fileInUse]
    cases hfd : (fs.fileTable k).fdInode with
    | none => exact ih (k + 1)
    | some r =>
      intro hrun
      obtain ⟨node, hat, hrun⟩ := bind_ok.mp hrun
      obtain ⟨o, ho, -, rfl⟩ := inodeAt_mem hat
      rw [if_neg (hopen o ho)] at hrun
      exact ih (k + 1) hrun

/-- The parent directory lists what it listed, with the same size, also where it is open; the
bitmaps are the same in memory and on disk. -/
structure Returned (fs fs' : Fs) (p : Nat) : Prop extends Restored fs fs' p where
  opened : ∀ o ∈ fs'.part.openInodes, o.inode.iNo.toNat = p →
    o.inode.iSize = (diskInode fs.disk fs.part p).iSize
  blockSectors : Same fs'.disk fs.disk (fs.part.sb.blockBitmapLba.toNat * 512)
    fs.part.blockBitmap.btmpBytesLen
  inodeSectors : Same fs'.disk fs.disk (fs.part.sb.inodeBitmapLba.toNat * 512)
    fs.part.inodeBitmap.btmpBytesLen

/-- Maps with the same bits are the same on disk. -/
theorem MapSynced.same {disk disk' : Bytes} {lba : Nat} {b b' : Bitmap}
    (hs : MapSynced disk lba b) (hs' : MapSynced disk' lba b')
    (hlen : b'.btmpBytesLen = b.btmpBytesLen) (hbits : ∀ i < b.size, b'.bit i = b.bit i) :
    Same disk' disk (lba * 512) b.btmpBytesLen := by
  intro a hlo hhi
  obtain ⟨k, rfl⟩ : ∃ k, a = lba * 512 + k := ⟨a - lba * 512, by omega⟩
  have hk : k < b.btmpBytesLen := by omega
  rw [hs k hk, hs' k (hlen ▸ hk)]
  apply PackedBits.byte_ext
  intro j hj
  exact hbits _ (by unfold Bitmap.size; omega)

/-- Directories with the same slots list the same. -/
theorem listed_of_slots {disk disk' : Bytes} {nd nd' : Inode}
    (h : ∀ q ∈ dirGrid, slot disk' nd' q = slot disk nd q) {e : DirEntry}
    (hlive : e.fType ≠ FT_UNKNOWN) : e ∈ entries disk' nd' ↔ e ∈ entries disk nd := by
  constructor
  · intro he
    obtain ⟨q, hq, hslot⟩ := slot_of_mem_entries he hlive
    exact mem_entries_of_slot hq ((h q hq).symm.trans hslot)
  · intro he
    obtain ⟨q, hq, hslot⟩ := slot_of_mem_entries he hlive
    exact mem_entries_of_slot hq ((h q hq).trans hslot)

namespace FileClosed

section
variable {q : Nat × Nat} {dir : Dir} {node : Inode}
  (h : FileClosed fs fs' dirs p n s₀ de s nd)
include h

/-- The file table does not lead to the file. -/
theorem notInUse (hc : ConsistentFs fs dirs) (hd : Holds fs' dir l) :
    fileInUse (fs'.setOpenInodes l) (.ofNat n) MAX_FILE_OPEN 0 = .ok false := by
  have hlive := h.live hc.toFileTree
  have hhandles : ∀ i < MAX_FILE_OPEN, ∀ ref, (fs'.fileTable i).fdInode = some ref →
      ref ∈ fs'.part.openInodes.map (·.ref) := by
    intro i hi ref href
    obtain ⟨o, ho, rfl⟩ := List.mem_map.mp (hc.handles i hi ref (h.slots i ref href))
    rw [h.settled.opened, refresh, List.map_map]
    refine List.mem_map.mpr ⟨o, ho, ?_⟩
    by_cases hp : o.inode.iNo.toNat = p <;> simp [hp]
  obtain ⟨b, hb, hb'⟩ := fileInUse_ends hd ⟨hlive.refs, hlive.counts⟩ hhandles (.ofNat n)
    MAX_FILE_OPEN (by decide : 0 + MAX_FILE_OPEN ≤ MAX_FILE_OPEN)
  cases b with
  | false => exact hb'
  | true =>
    refine absurd hb (fileInUse_none (fun o ho hno => h.unopened hc ho ?_) _ _)
    rw [hno]
    exact h.entering.newToNat

/-- The deletion takes the new entry back. -/
theorem slots_back (hat : DirAt fs' p dir l node) (hf : SlotFilled s₀ s q de.stored)
    {s' : NodeState}
    (hdel : Deletes ⟨fs'.disk, (fs'.setOpenInodes l).part, node⟩ s' q de.stored)
    {r : Nat × Nat} (hr : r ∈ dirGrid) :
    slot s'.disk s'.inode r = slot fs.disk (diskInode fs.disk fs.part p) r := by
  have hput := h.put hat hf
  by_cases hrq : r = q
  · rw [hrq, hdel.cleared.self, hput.free]
  · rw [hdel.cleared.other r hr hrq, hput.other r hr hrq]

/-- A block that was marked is not one of the file. -/
theorem not_marked {a : UInt32} (ha : Owns fs'.disk nd a) :
    fs.part.blockBitmap.bit (blockIdx fs.part a) = false := by
  by_contra hset
  have hd := (h.own a ha).toDataBlock
  have hsb := h.settled.sb
  have hidx := blockIdx_sb hsb a
  have hused : InUse fs.part a :=
    ⟨⟨hsb ▸ hd.start, hd.onDisk, by rw [← hidx, ← h.size]; exact hd.inMap⟩, by simpa using hset⟩
  exact (h.kept a (h.entering.inserted.keeps (h.entering.startKeeps a hused))).2 ha

/-- Everything is as before the creation. -/
theorem returned (hc : ConsistentFs fs dirs) (hat : DirAt fs' p dir l node)
    (hf : SlotFilled s₀ s q de.stored) {s' : NodeState}
    (hdel : Deletes ⟨fs'.disk, (fs'.setOpenInodes l).part, node⟩ s' q de.stored)
    (hbits : ∀ j < fs.part.blockBitmap.size, s'.part.blockBitmap.bit j = true ↔
      fs.part.blockBitmap.bit j = true ∨ ∃ a, Owns fs'.disk nd a ∧ blockIdx fs.part a = j)
    {disk : Bytes} {part : Partition} (fs₃ : Fs)
    (hfreed : Freed s'.disk ((fs'.setOpenInodes l).setNode dir.inode s').part (Owns fs'.disk nd)
      disk part) :
    Returned fs ((releasedFs fs₃ disk part n).setOpenInodes
      (refresh p s'.inode fs'.part.openInodes)) p := by
  have hne := h.ne_parent
  have hlow := h.entering.low
  have hnode : node.iNo.toNat % 2 ^ 8 = p := by
    rw [hat.no]
    exact Nat.mod_eq_of_lt (hc.low p h.entering.isDir)
  have hsb' : s'.part.sb = fs.part.sb := hdel.spares.sb.trans h.settled.sb
  have hsb : part.sb = s'.part.sb := hfreed.sb
  have hinodes : part.inodeBitmap = bitmapSet fs.part.inodeBitmap n true := by
    have hmiddle : s'.part.inodeBitmap = fs'.part.inodeBitmap := hdel.spares.only.inodeBitmap
    exact hfreed.only.inodeBitmap.trans (hmiddle.trans h.inodeBitmap)
  have hmap : n < part.inodeBitmap.size := by
    rw [hinodes]
    exact h.entering.inMap
  -- the directory
  have hrecord : Inode.SameStored (diskInode (releasedFs fs₃ disk part n).disk part p)
      s'.inode := by
    rw [releasedFs_record hfreed.layout hmap fs₃ hne.symm, diskInode_sb hsb]
    have hstored := hdel.record
    rw [hnode] at hstored
    have hsame : Same disk s'.disk (inodeAddr s'.part p) SIZEOF_INODE :=
      hfreed.outside.tables.record (hdel.spares.layout.relist _)
        (by have := hc.low p h.entering.isDir; omega)
    rw [diskInode_congr hsame]
    exact hstored
  have hmoved : Moved s'.disk s'.inode (releasedFs fs₃ disk part n).disk
      (diskInode (releasedFs fs₃ disk part n).disk part p) := by
    refine ⟨hrecord.iSectors, fun a ha => ?_⟩
    have hd := (hdel.own.holds ha).toDataBlock
    exact (releasedFs_data hfreed.layout hmap (by omega) fs₃ (hsb ▸ hd.start)).trans
      (hfreed.outside.same (hdel.spares.layout.relist _) ⟨hd.start, hd.onDisk, hd.inMap⟩)
  have hsize : s'.inode.iSize = (diskInode fs.disk fs.part p).iSize := by
    rw [hdel.size, h.grown hat hf, add_sub_cancel_right]
  -- the bitmaps
  have hblocks : ∀ i < fs.part.blockBitmap.size, part.blockBitmap.bit i =
      fs.part.blockBitmap.bit i := by
    intro i hi
    have hidx : ∀ a, blockIdx ((fs'.setOpenInodes l).setNode dir.inode s').part a =
        blockIdx fs.part a := blockIdx_sb hsb'
    have hpart := hfreed.bits i
    simp only [hidx] at hpart
    have hnode : ((fs'.setOpenInodes l).setNode dir.inode s').part.blockBitmap =
      s'.part.blockBitmap := rfl
    rw [hnode, hbits i hi] at hpart
    apply Bool.eq_iff_iff.mpr
    rw [hpart]
    constructor
    · rintro ⟨hset | hown, hnot⟩
      · exact hset
      · exact absurd hown hnot
    · intro hset
      refine ⟨.inl hset, ?_⟩
      rintro ⟨a, ha, rfl⟩
      rw [h.not_marked ha] at hset
      cases hset
  have hnumbers : ∀ i, (bitmapSet part.inodeBitmap n false).bit i = fs.part.inodeBitmap.bit i := by
    intro i
    rw [hinodes, bitmapSet_bit, bitmapSet_bit]
    by_cases hin : i = n
    · rw [if_pos hin, hin, h.entering.free]
    · rw [if_neg hin, if_neg hin]
  have hmaps := @releasedFs_maps n disk part hfreed.layout fs₃
    (hfreed.synced (hdel.blockMap h.blockMap)) (hfreed.inodeMap (hdel.inodeMap h.inodeMap))
  have hpart : part.sb = fs.part.sb := hsb.trans hsb'
  have hlen : part.blockBitmap.btmpBytesLen = fs.part.blockBitmap.btmpBytesLen := by
    rw [hfreed.layout.blockMapLen, hc.layout.blockMapLen, hpart]
  have hlen' : part.inodeBitmap.btmpBytesLen = fs.part.inodeBitmap.btmpBytesLen := by
    rw [hfreed.layout.inodeMapLen, hc.layout.inodeMapLen, hpart]
  constructor
  · constructor
    · intro e hlive
      apply listed_of_slots (fun r hr => ?_) hlive
      exact (hmoved.slot hr).trans (h.slots_back hat hf hdel hr)
    · exact hrecord.iSize.trans hsize
    · exact hblocks
    · exact fun i _ => hnumbers i
  · intro o ho hp
    obtain ⟨o', ho', rfl⟩ := List.mem_map.mp ho
    by_cases hno : o'.inode.iNo.toNat = p
    · rw [if_pos hno]
      exact hsize
    · rw [if_neg hno] at hp
      exact absurd hp hno
  · have hs : MapSynced _ part.sb.blockBitmapLba.toNat part.blockBitmap := hmaps.1
    rw [hpart] at hs
    exact MapSynced.same hc.blockMap hs hlen hblocks
  · have hs : MapSynced _ part.sb.inodeBitmapLba.toNat (bitmapSet part.inodeBitmap n false) :=
      hmaps.2
    rw [hpart] at hs
    exact MapSynced.same hc.inodeMap hs hlen' fun i _ => hnumbers i

end

end FileClosed

theorem FileMade.writesThrough (h : FileMade fs parent name n i fd de s) (fs₀ : Fs)
    (l : List OpenInode) (ref : Nat) :
    WritesThrough (createdFs fs₀ (O_CREAT ||| O_RDWR) l s n i fd ref) fd i ref where
  descriptor := Function.update_self ..
  fdIn := h.fdIn
  slotIn := h.slotIn
  inode := by
    simp only [createdFs, Function.update_self]
  flag := by
    simp only [createdFs, Function.update_self]
    decide

theorem mappedFs_room : CreateRoom mappedFs where
  number := ⟨3, by decide, by decide, by decide⟩
  slot := ⟨3, by decide, by decide, rfl⟩
  descriptor := ⟨3, by decide, by decide, rfl⟩
  block := Bitmap.free_pos.mpr ⟨3, by decide, by decide⟩

theorem mappedFs_missing : MissingAt mappedFs (components pathAC) [[97]] [99] [] 1 where
  split := components_pathAC
  leads := by
    have hlead : walk belowFs.disk belowFs.part (0, FT_DIRECTORY) [[97]] = some (1, FT_DIRECTORY) :=
      belowFs_a.walk
    simp only [walk_cons, walk_nil] at hlead ⊢
    rw [mappedFs_step (by decide)]
    exact hlead
  unlisted := by
    have hone : (1 : UInt32).toNat = 1 := rfl
    rw [hone, mappedFs_inode, (mappedFs_moved (by decide)).lookup]
    exact belowFs_missing.unlisted

end ZhuOS
