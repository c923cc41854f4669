import ZhuOS.DirSlots
import ZhuOS.Trees

/-!
# A tree with one entry more

A file or a directory is made with an entry in its parent, a record of its own and a new record
of the parent. What such a call has left of the tree does not depend on what it has made.
-/

namespace ZhuOS

open ByteMem

set_option maxRecDepth 2000

variable {fs fs' : Fs} {dirs : Nat → Prop} {nd : Inode} {name : List UInt8} {p n m : Nat}
  {s₀ s s' : NodeState} {de : DirEntry} {disk' : Bytes} {a iNo fType : UInt32}

theorem Inserted.sameHandle (hi : Inserted s de s') :
    s'.inode.iNo = s.inode.iNo ∧ s'.inode.iOpenCnts = s.inode.iOpenCnts := by
  cases hi with
  | slot => exact ⟨rfl, rfl⟩
  | block => exact ⟨rfl, rfl⟩
  | table => exact ⟨rfl, rfl⟩

/-- A list that is refreshed has the same addresses, numbers and counts. -/
theorem OpenOk.refresh {l : List OpenInode} (hl : OpenOk l) (hno : nd.iNo.toNat = p) :
    OpenOk (ZhuOS.refresh p nd l) := by
  have hrefs : (ZhuOS.refresh p nd l).map (·.ref) = l.map (·.ref) := by
    rw [ZhuOS.refresh, List.map_map]
    apply List.map_congr_left
    intro o _
    by_cases hp : o.inode.iNo.toNat = p <;> simp [hp]
  have hnos : (ZhuOS.refresh p nd l).map (·.inode.iNo) = l.map (·.inode.iNo) := by
    rw [ZhuOS.refresh, List.map_map]
    apply List.map_congr_left
    intro o _
    by_cases hp : o.inode.iNo.toNat = p
    · have : nd.iNo = o.inode.iNo := UInt32.toNat_inj.mp (hno.trans hp.symm)
      simp [hp, this]
    · simp [hp]
  constructor
  · rw [hrefs]
    exact hl.refs
  · rw [hnos]
    exact hl.nos
  · intro o ho
    obtain ⟨o', ho', rfl⟩ := List.mem_map.mp ho
    by_cases hp : o'.inode.iNo.toNat = p
    · rw [if_pos hp]
      exact hl.counts o' ho'
    · rw [if_neg hp]
      exact hl.counts o' ho'

/-! ## The records -/

/-- The disk with the records of the parent and of a new inode, and the bitmap. -/
def recordedDisk (s : NodeState) (new : Inode) (n : Nat) : Bytes :=
  let disk := blit s.disk (inodeAddr s.part (s.inode.iNo.toNat % 2 ^ 8)) s.inode.pure.toBytes 0
    SIZEOF_INODE
  let disk := blit disk (inodeAddr s.part (new.iNo.toNat % 2 ^ 8)) new.pure.toBytes 0 SIZEOF_INODE
  syncInodeMap disk s.part n

/-- The sector of the inode bitmap lies before the table. -/
theorem syncInodeMap_same {part : Partition} (hl : DiskLayout part)
    (hn : n < part.inodeBitmap.size) (disk : Bytes) {off len : Nat}
    (hoff : part.sb.inodeTableLba.toNat * 512 ≤ off) :
    Same (syncInodeMap disk part n) disk off len := by
  have hlen := hl.inodeMapLen
  have hmap := hl.inodeMap
  unfold Bitmap.size at hn
  unfold syncInodeMap
  exact blit_same (by omega)

/-- The records of `p` and `n` are written, and the bit of `n`. -/
structure Records (s : NodeState) (new : Inode) (p n : Nat) : Prop where
  layout : DiskLayout s.part
  inMap : n < s.part.inodeBitmap.size
  parent : s.inode.iNo.toNat % 2 ^ 8 = p
  number : new.iNo.toNat % 2 ^ 8 = n
  ne : p ≠ n

namespace Records

variable {new : Inode} (h : Records s new p n)
include h

theorem eq : recordedDisk s new n = syncInodeMap (blit (blit s.disk (inodeAddr s.part p)
    s.inode.pure.toBytes 0 SIZEOF_INODE) (inodeAddr s.part n) new.pure.toBytes 0 SIZEOF_INODE)
      s.part n := by
  rw [recordedDisk, h.parent, h.number]

/-- The data is as it was after the insertion. -/
theorem dataSame (ha : s.part.sb.dataStartLba.toNat ≤ a.toNat) :
    Same (recordedDisk s new n) s.disk (a.toNat * 512) 512 := by
  have htable := h.layout.table
  exact (syncInodeMap_same h.layout h.inMap _ (by omega)).trans
    ((record_outside h.layout _ _ ha).trans (record_outside h.layout _ _ ha))

theorem mapSame (disk : Bytes) (m : Nat) :
    Same (syncInodeMap disk s.part n) disk (inodeAddr s.part m) SIZEOF_INODE :=
  syncInodeMap_same h.layout h.inMap _ (Nat.le_add_right _ _)

theorem recordSame (hp : m ≠ p) (hn : m ≠ n) :
    Same (recordedDisk s new n) s.disk (inodeAddr s.part m) SIZEOF_INODE := by
  rw [h.eq]
  exact (h.mapSame _ m).trans ((blit_same (records_apart _ hn)).trans
    (blit_same (records_apart _ hp)))

theorem newRecord : Inode.SameStored (diskInode (recordedDisk s new n) s.part n) new := by
  rw [h.eq, diskInode_congr (h.mapSame _ n)]
  have := @diskInode_stored (blit s.disk (inodeAddr s.part p) s.inode.pure.toBytes 0 SIZEOF_INODE)
    s.part n new.pure
  exact ⟨this.iNo, this.iSize, this.iSectors⟩

theorem parentRecord :
    Inode.SameStored (diskInode (recordedDisk s new n) s.part p) s.inode := by
  have happart := records_apart s.part h.ne
  rw [h.eq, diskInode_congr (h.mapSame _ p), diskInode_congr (blit_same happart)]
  have := @diskInode_stored s.disk s.part p s.inode.pure
  exact ⟨this.iNo, this.iSize, this.iSectors⟩

end Records

/-! ## The insertion -/

/-- The entry `de` was put into the directory `p` of a tree, which was in the state `s₀`, and has
left `s`; the disk is `disk'` when the records of `p` and of the new number `n` are written. -/
structure Entered (fs : Fs) (dirs : Nat → Prop) (p n : Nat) (s₀ : NodeState) (de : DirEntry)
    (s : NodeState) (disk' : Bytes) : Prop where
  tree : DiskTree fs dirs
  isDir : dirs p
  fresh : ¬ dirs n
  startSb : s₀.part.sb = fs.part.sb
  startLayout : DiskLayout s₀.part
  startKeeps : ∀ a, InUse fs.part a → InUse s₀.part a
  startSame : ∀ a, InUse fs.part a → Same s₀.disk fs.disk (a.toNat * 512) 512
  stored : Inode.SameStored s₀.inode (diskInode fs.disk fs.part p)
  inserted : Inserted s₀ de s
  dataSame : ∀ a, InUse s.part a → Same disk' s.disk (a.toNat * 512) 512
  parentRecord : Inode.SameStored (diskInode disk' fs.part p) s.inode
  recordSame : ∀ m < 4096, m ≠ p → m ≠ n →
    diskInode disk' fs.part m = diskInode fs.disk fs.part m

namespace Entered

variable (h : Entered fs dirs p n s₀ de s disk')
include h

theorem ne_new (hm : dirs m) : m ≠ n := fun he => h.fresh (he ▸ hm)

theorem nodeLayout : DiskLayout s.part := h.inserted.layout h.startLayout

theorem nodeNo : s.inode.iNo.toNat = p := by
  rw [h.inserted.sameHandle.1, h.stored.iNo]
  exact h.tree.number p h.isDir

/-- The parent before the insertion. -/
theorem parentMoved : Moved fs.disk (diskInode fs.disk fs.part p) s₀.disk s₀.inode := by
  refine ⟨h.stored.iSectors, fun a ha => ?_⟩
  exact h.startSame a ((h.tree.ok p h.isDir).toOwnBlocks.holds ha)

theorem parentOk : DirOk s₀.disk s₀.part s₀.inode :=
  h.parentMoved.ok h.startKeeps (h.tree.ok p h.isDir)

theorem parentOwn : OwnBlocks s.disk s.part s.inode :=
  h.inserted.own h.startLayout h.parentOk.toOwnBlocks

/-- The other directories are as they were. -/
theorem otherMoved (hm : dirs m) (hp : m ≠ p) : Moved fs.disk (diskInode fs.disk fs.part m)
    disk' (diskInode disk' fs.part m) := by
  rw [h.recordSame m (h.tree.small m hm) hp (h.ne_new hm)]
  refine ⟨fun _ _ => rfl, fun a ha => ?_⟩
  have hused := (h.tree.ok m hm).toOwnBlocks.holds ha
  have hother : ¬ HasBlock s₀.disk s₀.inode a := by
    rw [h.parentMoved.holds]
    exact h.tree.apart m p hm h.isDir hp a ha
  have hstart := h.startKeeps a hused
  exact (h.dataSame a (h.inserted.keeps hstart)).trans
    ((h.inserted.same h.startLayout hstart hother).trans (h.startSame a hused))

/-- The parent is as the insertion has left it. -/
theorem parentFinal : Moved s.disk s.inode disk' (diskInode disk' fs.part p) :=
  ⟨h.parentRecord.iSectors, fun a ha => h.dataSame a (h.parentOwn.holds ha)⟩

/-- What a lookup finds in the parent after the insertion. -/
theorem parentFinds (name : List UInt8) : Finds s name iNo fType ↔
    ∃ e, lookup disk' (diskInode disk' fs.part p) name = some e ∧ e.iNo = iNo ∧
      e.fType = fType := by
  rw [h.parentFinal.lookup]
  exact finds_iff h.nodeLayout h.parentOwn.readable

/-- What a lookup found in the parent before. -/
theorem parentFound (name : List UInt8) : Finds s₀ name iNo fType ↔
    ∃ e, lookup fs.disk (diskInode fs.disk fs.part p) name = some e ∧ e.iNo = iNo ∧
      e.fType = fType := by
  rw [← h.parentMoved.lookup]
  exact finds_iff h.startLayout h.parentOk.readable

/-- The names of the parent, with the new one. -/
theorem parentNames (hname : FileName name) (hentry : createDirEntry name iNo fType = .ok de)
    (hnew : lookup fs.disk (diskInode fs.disk fs.part p) name = none)
    (hroom : ¬ DirectFull fs.disk (diskInode fs.disk fs.part p) 12) :
    InsertedRight s₀ s name iNo fType := by
  have hnone : ∀ i u, ¬ Finds s₀ name i u := by
    intro i u hfind
    obtain ⟨e, he, -⟩ := (h.parentFound name).mp hfind
    rw [hnew] at he
    cases he
  refine (h.inserted.right_iff h.startLayout h.parentOk hname hnone hentry).mpr fun hlose => ?_
  exact hroom ((h.parentMoved.directFull (Nat.le_refl 12)).mp hlose.1)

/-- What is listed in the parent was listed there, or is the new entry. -/
theorem parentListed {e : DirEntry} (he : e ∈ entries disk' (diskInode disk' fs.part p))
    (hne : e.name ≠ []) : e ∈ entries fs.disk (diskInode fs.disk fs.part p) ∨ e = de.stored := by
  rw [h.parentFinal.entries] at he
  rw [← h.parentMoved.entries]
  obtain ⟨-, hadds⟩ | ⟨-, hadds⟩ :=
    h.inserted.adds h.startLayout h.parentOk.toOwnBlocks h.parentOk.unnamed
  · exact hadds.only e he hne
  · refine (hadds.only e he hne).imp_left fun hold => ?_
    rw [entries_split]
    exact List.mem_append_left _ hold

theorem number (hm : dirs m) : (diskInode disk' fs.part m).iNo.toNat = m := by
  by_cases hp : m = p
  · subst hp
    rw [h.parentRecord.iNo]
    exact h.nodeNo
  · rw [h.recordSame m (h.tree.small m hm) hp (h.ne_new hm)]
    exact h.tree.number m hm

theorem readable (hm : dirs m) : Readable disk' (diskInode disk' fs.part m) := by
  by_cases hp : m = p
  · subst hp
    exact h.parentFinal.readable h.parentOwn.readable
  · exact (h.otherMoved hm hp).readable (h.tree.readable m hm)

/-- What is listed was listed, or is the new entry. -/
theorem listed (hm : dirs m) {e : DirEntry} (he : e ∈ entries disk' (diskInode disk' fs.part m))
    (hne : e.name ≠ []) : e.iNo.toNat < 4096 ∧ (e.fType = FT_REGULAR ∨
      e.fType = FT_DIRECTORY ∧ dirs e.iNo.toNat) ∨ e = de.stored := by
  by_cases hp : m = p
  · subst hp
    exact (h.parentListed he hne).imp_left fun hold => h.tree.listed m hm e hold hne
  · rw [(h.otherMoved hm hp).entries] at he
    exact .inl (h.tree.listed m hm e he hne)

/-- Where a name led it leads still. -/
theorem steps (hdisk : fs'.disk = disk') (hsb : fs'.part.sb = fs.part.sb)
    (hright : InsertedRight s₀ s name iNo fType) : StepsKept fs fs' dirs := by
  intro d hd m hm x hstep
  rw [walkStep_dir, Option.map_eq_some_iff] at hstep ⊢
  obtain ⟨e, he, rfl⟩ := hstep
  have hrecord : ∀ k, diskInode fs'.disk fs'.part k = diskInode disk' fs.part k := by
    intro k
    rw [diskInode, diskInode, inodeAddr, inodeAddr, hsb, hdisk]
  rw [hrecord, hdisk]
  by_cases hp : d.toNat = p
  · rw [hp] at he ⊢
    have hfound := hright.old m hm _ _ ((h.parentFound m).mpr ⟨e, he, rfl, rfl⟩)
    obtain ⟨e', he', hno, htype⟩ := (h.parentFinds m).mp hfound
    exact ⟨e', he', by rw [hno, htype]⟩
  · exact ⟨e, ((h.otherMoved hd hp).lookup m).trans he, rfl⟩

end Entered

/-! ## A number and its entry -/

/-- The free number `n` is taken and its entry `de` put into the directory `p` of a tree, which is
in the state `s₀` by then; the inode `new` will be stored. -/
structure Entering (fs : Fs) (dirs : Nat → Prop) (p n : Nat) (s₀ : NodeState) (de : DirEntry)
    (s : NodeState) (new : Inode) : Prop where
  tree : DiskTree fs dirs
  isDir : dirs p
  inMap : n < fs.part.inodeBitmap.size
  free : fs.part.inodeBitmap.bit n = false
  low : n < 256
  number : new.iNo = .ofNat n
  startSb : s₀.part.sb = fs.part.sb
  startMap : s₀.part.inodeBitmap = bitmapSet fs.part.inodeBitmap n true
  startLayout : DiskLayout s₀.part
  startKeeps : ∀ a, InUse fs.part a → InUse s₀.part a
  startSame : ∀ a, InUse fs.part a → Same s₀.disk fs.disk (a.toNat * 512) 512
  startTables : SameTables fs.part s₀.disk fs.disk
  stored : Inode.SameStored s₀.inode (diskInode fs.disk fs.part p)
  inserted : Inserted s₀ de s

namespace Entering

variable {new : Inode} (h : Entering fs dirs p n s₀ de s new)
include h

theorem nodeSb : s.part.sb = fs.part.sb := h.inserted.only.sb.trans h.startSb

theorem nodeMap : s.part.inodeBitmap = bitmapSet fs.part.inodeBitmap n true :=
  h.inserted.only.inodeBitmap.trans h.startMap

theorem nodeLayout : DiskLayout s.part := h.inserted.layout h.startLayout

theorem inNodeMap : n < s.part.inodeBitmap.size := by
  rw [h.nodeMap]
  exact h.inMap

/-- The number is new in the tree. -/
theorem fresh : ¬ dirs n := by
  intro hn
  have hfree := h.free
  rw [h.tree.marked n hn] at hfree
  cases hfree

theorem ne_new (hm : dirs m) : m ≠ n := fun he => h.fresh (he ▸ hm)

/-- The number of the parent, also after the insertion. -/
theorem nodeNo : s.inode.iNo.toNat = p := by
  rw [h.inserted.sameHandle.1, h.stored.iNo]
  exact h.tree.number p h.isDir

theorem parentNo : s.inode.iNo.toNat % 2 ^ 8 = p := by
  rw [h.nodeNo]
  exact Nat.mod_eq_of_lt (h.tree.low p h.isDir)

theorem newToNat : (UInt32.ofNat n).toNat = n := by
  have hlow := h.low
  rw [UInt32.toNat_ofNat']
  omega

theorem newNo : new.iNo.toNat % 2 ^ 8 = n := by
  rw [h.number, h.newToNat]
  exact Nat.mod_eq_of_lt h.low

theorem records : Records s new p n :=
  ⟨h.nodeLayout, h.inNodeMap, h.parentNo, h.newNo, h.ne_new h.isDir⟩

theorem addr (m : Nat) : inodeAddr s.part m = inodeAddr fs.part m := by
  rw [inodeAddr, inodeAddr, h.nodeSb]

theorem diskInode_addr (disk : Bytes) (m : Nat) :
    diskInode disk s.part m = diskInode disk fs.part m := by
  rw [diskInode, diskInode, h.addr]

theorem startOwn : OwnBlocks s₀.disk s₀.part s₀.inode := by
  have hown := (h.tree.ok p h.isDir).toOwnBlocks
  have hmoved : Moved fs.disk (diskInode fs.disk fs.part p) s₀.disk s₀.inode :=
    ⟨h.stored.iSectors, fun a ha => h.startSame a (hown.holds ha)⟩
  exact hmoved.own h.startKeeps hown

/-- The data is as it was after the insertion. -/
theorem dataSame (ha : fs.part.sb.dataStartLba.toNat ≤ a.toNat) :
    Same (recordedDisk s new n) s.disk (a.toNat * 512) 512 :=
  h.records.dataSame (h.nodeSb ▸ ha)

/-- The tables are as they were before, but for the two records. -/
theorem nodeTables : SameTables fs.part s.disk fs.disk := by
  have hins : SameTables s₀.part s.disk s₀.disk := h.inserted.tables h.startLayout h.startOwn
  unfold SameTables at hins
  rw [h.startSb] at hins
  exact SameTables.trans hins h.startTables

theorem recordSame (hp : m ≠ p) (hn : m ≠ n) (hm : m < 4096) :
    diskInode (recordedDisk s new n) fs.part m = diskInode fs.disk fs.part m := by
  apply diskInode_congr
  have hsame := h.records.recordSame hp hn
  rw [h.addr] at hsame
  exact hsame.trans (h.nodeTables.record h.tree.layout hm)

theorem newRecord : Inode.SameStored (diskInode (recordedDisk s new n) fs.part n) new :=
  h.diskInode_addr _ n ▸ h.records.newRecord

theorem parentRecord : Inode.SameStored (diskInode (recordedDisk s new n) fs.part p) s.inode :=
  h.diskInode_addr _ p ▸ h.records.parentRecord

theorem entered : Entered fs dirs p n s₀ de s (recordedDisk s new n) where
  tree := h.tree
  isDir := h.isDir
  fresh := h.fresh
  startSb := h.startSb
  startLayout := h.startLayout
  startKeeps := h.startKeeps
  startSame := h.startSame
  stored := h.stored
  inserted := h.inserted
  dataSame _ ha := h.dataSame (h.nodeSb ▸ ha.start)
  parentRecord := h.parentRecord
  recordSame _ hm hp hn := h.recordSame hp hn hm

end Entering

/-! ## The tree afterwards -/

/-- The directories `new` come with the entry `de`. -/
structure NewDirs (fs : Fs) (dirs new : Nat → Prop) (de : DirEntry) (disk' : Bytes) : Prop where
  unopened : ∀ o ∈ fs.part.openInodes, ¬ new o.inode.iNo.toNat
  small : ∀ m, new m → m < 4096
  number : ∀ m, new m → (diskInode disk' fs.part m).iNo.toNat = m
  readable : ∀ m, new m → Readable disk' (diskInode disk' fs.part m)
  listed : ∀ m, new m → ∀ e ∈ entries disk' (diskInode disk' fs.part m), e.name ≠ [] →
    e.iNo.toNat < 4096 ∧
      (e.fType = FT_REGULAR ∨ e.fType = FT_DIRECTORY ∧ (dirs e.iNo.toNat ∨ new e.iNo.toNat))
  entry : de.stored.iNo.toNat < 4096 ∧ (de.stored.fType = FT_REGULAR ∨
    de.stored.fType = FT_DIRECTORY ∧ new de.stored.iNo.toNat)

/-- The state after the call: the parent is refreshed where it is open. -/
structure Settled (fs : Fs) (p : Nat) (s : NodeState) (disk' : Bytes) (fs' : Fs) : Prop where
  disk : fs'.disk = disk'
  sb : fs'.part.sb = fs.part.sb
  layout : DiskLayout fs'.part
  rootDir : fs'.rootDir = fs.rootDir
  opened : fs'.part.openInodes = refresh p s.inode fs.part.openInodes

namespace Settled

variable (h : Settled fs p s disk' fs')
include h

theorem record (m : Nat) : diskInode fs'.disk fs'.part m = diskInode disk' fs.part m := by
  rw [diskInode, diskInode, inodeAddr, inodeAddr, h.sb, h.disk]

/-- The list of open inodes, with the parent's refreshed. -/
theorem mem {o : OpenInode} (hno : s.inode.iNo.toNat = p) (ho : o ∈ fs'.part.openInodes) :
    ∃ o' ∈ fs.part.openInodes, o.ref = o'.ref ∧ o.inode.iNo = o'.inode.iNo ∧
      (o'.inode.iNo.toNat = p ∧ Inode.SameStored o.inode s.inode ∨
        o'.inode.iNo.toNat ≠ p ∧ o = o') := by
  rw [h.opened] at ho
  obtain ⟨o', ho', rfl⟩ := List.mem_map.mp ho
  refine ⟨o', ho', ?_⟩
  by_cases hp : o'.inode.iNo.toNat = p
  · rw [if_pos hp]
    have hsame : s.inode.iNo = o'.inode.iNo := UInt32.toNat_inj.mp (hno.trans hp.symm)
    exact ⟨rfl, hsame, .inl ⟨hp, rfl, rfl, fun _ _ => rfl⟩⟩
  · rw [if_neg hp]
    exact ⟨rfl, rfl, .inr ⟨hp, rfl⟩⟩

theorem treeOk (he : Entered fs dirs p n s₀ de s disk') {new : Nat → Prop}
    (hnew : NewDirs fs dirs new de disk') (hsteps : StepsKept fs fs' dirs) :
    TreeOk fs' fun m => dirs m ∨ new m where
  fits := h.layout.fits
  entrySize := h.layout.entrySize
  openOk := by
    rw [h.opened]
    exact he.tree.openOk.refresh he.nodeNo
  root := .inl he.tree.root
  rootOpen := by
    obtain ⟨o, ho, href, hno⟩ := he.tree.rootOpen
    rw [h.opened, h.rootDir]
    refine ⟨_, List.mem_map_of_mem ho, ?_⟩
    by_cases hp : o.inode.iNo.toNat = p
    · rw [if_pos hp]
      exact ⟨href, (UInt32.toNat_inj.mp (he.nodeNo.trans hp.symm)).trans hno⟩
    · rw [if_neg hp]
      exact ⟨href, hno⟩
  small := by
    rintro m (hm | hm)
    · exact he.tree.small m hm
    · exact hnew.small m hm
  number := by
    rintro m (hm | hm)
    · rw [h.record]
      exact he.number hm
    · rw [h.record]
      exact hnew.number m hm
  readable := by
    rintro m (hm | hm)
    · rw [h.record, h.disk]
      exact he.readable hm
    · rw [h.record, h.disk]
      exact hnew.readable m hm
  stored := by
    intro o ho hdir
    rw [h.record]
    obtain ⟨o', ho', -, hno, ⟨hp, hsame⟩ | ⟨hp, rfl⟩⟩ := h.mem he.nodeNo ho
    · rw [hno, hp]
      exact hsame.trans he.parentRecord.symm
    · have hold : dirs o.inode.iNo.toNat := hdir.resolve_right (hnew.unopened o ho')
      rw [he.recordSame _ (he.tree.small _ hold) hp (he.ne_new hold)]
      exact he.tree.stored o ho' hold
  listed := by
    rintro m (hm | hm) e hmem hne
    · rw [h.record, h.disk] at hmem
      obtain ⟨hlt, htype⟩ | rfl := he.listed hm hmem hne
      · exact ⟨hlt, htype.imp_right fun hdir => hdir.imp_right .inl⟩
      · exact hnew.entry.imp_right fun htype => htype.imp_right fun hdir => hdir.imp_right .inr
    · rw [h.record, h.disk] at hmem
      exact hnew.listed m hm e hmem hne
  rootDots := by
    intro m hm
    obtain ⟨e, hfound, hno, htype⟩ := he.tree.rootDots m hm
    have hname : FileName m := by
      obtain rfl | rfl := hm
      · exact ⟨by decide, by decide, by decide⟩
      · exact ⟨by decide, by decide, by decide⟩
    have hroot : dirs (0 : UInt32).toNat := he.tree.root
    have hstep : walkStep fs.disk fs.part (0, FT_DIRECTORY) m = some (0, FT_DIRECTORY) := by
      rw [walkStep_dir]
      exact Option.map_eq_some_iff.mpr ⟨e, hfound, by rw [hno, htype]⟩
    have hkept := hsteps 0 hroot m hname _ hstep
    rw [walkStep_dir, Option.map_eq_some_iff] at hkept
    obtain ⟨e', hfound', heq⟩ := hkept
    obtain ⟨hno', htype'⟩ := Prod.mk.inj heq
    exact ⟨e', hfound', hno', htype'⟩

/-- The path of the new entry leads to it. -/
theorem walk (he : Entered fs dirs p n s₀ de s disk')
    (hright : InsertedRight s₀ s name iNo fType) {front : List (List UInt8)}
    (hfront : ∀ c ∈ front, FileName c) {q : UInt32} (hq : q.toNat = p)
    (hleads : ZhuOS.walk fs.disk fs.part (0, FT_DIRECTORY) front = some (q, FT_DIRECTORY)) :
    ZhuOS.walk fs'.disk fs'.part (0, FT_DIRECTORY) (front ++ [name]) = some (iNo, fType) := by
  have hroot : dirs (0 : UInt32).toNat := he.tree.root
  obtain ⟨e, hfound, hno, htype⟩ := (he.parentFinds name).mp hright.new
  have hlookup : lookup fs'.disk (diskInode fs'.disk fs'.part q.toNat) name = some e := by
    rw [h.record, h.disk, hq]
    exact hfound
  have hwalk := (he.steps h.disk h.sb hright).walk he.tree.toTreeOk hroot hfront hleads
  rw [walk_snoc hwalk hlookup, hno, htype]

end Settled

end ZhuOS
