import ZhuOS.SoundUnlink

/-!
# A file less

`sys_unlink` removes the first regular file on its way. With the entry deleted the inode is
released, and the file system is left sound.
-/

namespace ZhuOS

open ByteMem Slots

set_option maxRecDepth 2000

variable {fs fs' : Fs} {dirs files : Nat → Prop} {s : NodeState} {e : DirEntry} {dir : Dir}
  {q : Nat × Nat} {n m p : Nat} {a : UInt32} {node : Inode} {l : List OpenInode} {disk : Bytes}
  {part : Partition}

/-- In the directory `p`, open as `node`, the entry of the file `n` has been deleted, which has left
`s`; the release of the inode has left `disk` and `part`. -/
structure Removes (fs : Fs) (dirs files : Nat → Prop) (p n : Nat) (dir : Dir) (l : List OpenInode)
    (node : Inode) (q : Nat × Nat) (e : DirEntry) (s : NodeState) (disk : Bytes)
    (part : Partition) : Prop where
  isDir : dirs p
  isFile : files n
  isOpen : DirAt fs p dir l node
  deletes : Deletes ⟨fs.disk, (fs.setOpenInodes l).part, node⟩ s q e
  empties : Empties ⟨fs.disk, (fs.setOpenInodes l).part, node⟩ s
  freed : Freed s.disk ((fs.setOpenInodes l).setNode dir.inode s).part
    (HasBlock fs.disk (diskInode fs.disk fs.part n)) disk part

/-- The files after the call. -/
def unlinkedFs (fs : Fs) (p n : Nat) (dir : Dir) (l : List OpenInode) (s : NodeState)
    (disk : Bytes) (part : Partition) : Fs :=
  (releasedFs ((fs.setOpenInodes l).setNode dir.inode s) disk part n).setOpenInodes
    (refresh p s.inode fs.part.openInodes)

/-- An open directory has the blocks of its record. -/
theorem DirAt.moved (h : DirAt fs p dir l node) :
    Moved fs.disk (diskInode fs.disk fs.part p) fs.disk node :=
  moved_stored fs.disk h.stored

namespace SoundFs

variable (h : SoundFs fs dirs files)
include h

/-- The first block of the data area is not one of a file. -/
theorem file_notFirst (hn : files n) (ha : HasBlock fs.disk (diskInode fs.disk fs.part n) a) :
    blockIdx fs.part a ≠ 0 := by
  intro hzero
  have haddr := ((h.ownUsed (.inr hn)).holds ha).toDataBlock.addr
  rw [hzero] at haddr
  obtain rfl : a = fs.part.sb.dataStartLba := UInt32.toNat_inj.mp (by omega)
  have hne : n ≠ 0 := by
    rintro rfl
    exact h.kinds 0 h.root hn
  exact h.apart n 0 (.inr hn) (.inl h.root) hne _ ha h.fileTree.rootUse.2

/-- No file is open. -/
theorem file_closed (hn : files n) {o : OpenInode} (ho : o ∈ fs.part.openInodes) :
    o.inode.iNo.toNat ≠ n := by
  intro he
  exact h.kinds n (he ▸ (h.opened o ho).1) hn

theorem notInUse {no : UInt32} (hn : files no.toNat) (hd : Holds fs dir l) :
    fileInUse (fs.setOpenInodes l) no MAX_FILE_OPEN 0 = .ok false := by
  obtain ⟨b, hb, hb'⟩ := fileInUse_ends hd h.fileTree.live h.handles no MAX_FILE_OPEN
    (by decide : 0 + MAX_FILE_OPEN ≤ MAX_FILE_OPEN)
  cases b with
  | false => exact hb'
  | true =>
    refine absurd hb (fileInUse_none (fun o ho hno => ?_) _ _)
    exact h.file_closed hn ho (congrArg UInt32.toNat hno)

/-- Behind the deletion the inode of the file is released. -/
theorem releases (hp : dirs p) (hn : files n) (hat : DirAt fs p dir l node) (hd : Holds fs dir l)
    (hdel : Deletes ⟨fs.disk, (fs.setOpenInodes l).part, node⟩ s q e) :
    ∃ disk part, inodeRelease ((fs.setOpenInodes l).setNode dir.inode s) n =
        .ok (releasedFs ((fs.setOpenInodes l).setNode dir.inode s) disk part n) ∧
      Freed s.disk ((fs.setOpenInodes l).setNode dir.inode s).part
        (HasBlock fs.disk (diskInode fs.disk fs.part n)) disk part := by
  have hspares := hdel.spares
  obtain ⟨hlow, hmap⟩ := h.low n (.inr hn)
  have hne : n ≠ p := fun he => h.kinds p hp (he ▸ hn)
  obtain ⟨held, hfit, hcounted⟩ := h.fileTree.counted
  have hopen := hd.counted hcounted (hfit.mono (by decide))
  have hfit' : FitsMore 1 (held + dirUse dir) := FitsMore.dirUse (hfit.mono (by decide)) dir
  have hquiet : Quiet 1 (fs.setOpenInodes l) ((fs.setOpenInodes l).setNode dir.inode s) :=
    .setNode hat.inodeAt hdel.keeps
  have hlist : s.part.openInodes = l := hspares.only.openInodes
  have hmap' : n < ((fs.setOpenInodes l).setNode dir.inode s).part.inodeBitmap.size := by
    have honly : s.part.inodeBitmap = fs.part.inodeBitmap := hspares.only.inodeBitmap
    change n < s.part.inodeBitmap.size
    rw [honly]
    exact hmap
  -- the record and the blocks of the file are as they were
  have hparent : node.iNo.toNat % 2 ^ 8 = p := by
    rw [hat.no]
    exact Nat.mod_eq_of_lt (h.low p (.inl hp)).1
  have hsame : diskInode s.disk s.part n = diskInode fs.disk fs.part n :=
    hspares.diskInode (by omega) (hparent.symm ▸ hne)
  have hrelease : Releasable fs.disk (fs.setOpenInodes l).part (diskInode fs.disk fs.part n) :=
    fun a ha => ⟨(((h.ownUsed (.inr hn)).holds ha).relist l).toDataBlock, h.file_notFirst hn ha⟩
  have hapart : ∀ a, HasBlock fs.disk (diskInode fs.disk fs.part n) a → ¬ HasBlock fs.disk node a :=
    fun a ha hparent => h.apart n p (.inr hn) (.inl hp) hne a ha (hat.moved.holds.mp hparent)
  have hmoved : Moved fs.disk (diskInode fs.disk fs.part n) s.disk (diskInode s.disk s.part n) := by
    rw [hsame]
    exact ⟨fun _ _ => rfl, fun a ha => hspares.same a (hrelease a ha).1 (hapart a ha)⟩
  have hgone : HasBlock s.disk (diskInode s.disk s.part n) =
      HasBlock fs.disk (diskInode fs.disk fs.part n) :=
    funext fun a => propext hmoved.holds
  have hheap : ((fs.setOpenInodes l).setNode dir.inode s).heap = fun _ => true := h.heap
  have hreleases : Releasable s.disk s.part (diskInode s.disk s.part n) := by
    rw [hsame]
    exact hspares.releasable hrelease hapart
  have hclosed : ∀ o ∈ setInode dir.inode s.inode s.part.openInodes, o.inode.iNo.toNat ≠ n := by
    intro o ho
    rw [hlist] at ho
    obtain ⟨hold, -⟩ | ⟨b, -, -, rfl⟩ := mem_setInode ho
    · obtain hmem | hopened := hat.mem hold
      · exact h.file_closed hn hmem
      · rw [hopened, hat.no]
        exact hne.symm
    · rw [hdel.keeps.iNo, hat.no]
      exact hne.symm
  obtain ⟨disk, part, hrun, hfreed⟩ := @inodeRelease_freed
    ((fs.setOpenInodes l).setNode dir.inode s) n _ (hspares.layout.relist _) hheap
    (hquiet.counted _ hfit' hopen) hfit' (by omega) hmap' (by
      have hno : (diskInode s.disk s.part n).iNo.toNat = n := by
        rw [hsame]
        exact h.number n (.inr hn)
      exact hno)
    (fun o ho hno => absurd hno (hclosed o ho))
    (hreleases.relist _)
  exact ⟨disk, part, hrun, hgone ▸ hfreed⟩

end SoundFs

namespace Removes

variable (r : Removes fs dirs files p n dir l node q e s disk part) (h : SoundFs fs dirs files)
include r

theorem sb : s.part.sb = fs.part.sb := r.deletes.spares.sb

theorem partSb : part.sb = fs.part.sb := r.freed.sb.trans r.sb

theorem nodeNo : s.inode.iNo.toNat = p := by
  rw [r.deletes.keeps.iNo]
  exact r.isOpen.no

theorem layout : DiskLayout (unlinkedFs fs p n dir l s disk part).part := by
  have hl := r.freed.layout
  exact ⟨hl.blockMapLen, hl.inodeMapLen, hl.blockMap, hl.inodeMap, hl.table, hl.onDisk, hl.inPart,
    hl.blocks, hl.entrySize⟩

include h

theorem low : p < 256 ∧ n < 256 := ⟨(h.low p (.inl r.isDir)).1, (h.low n (.inr r.isFile)).1⟩

theorem ne : n ≠ p := fun he => h.kinds p r.isDir (he ▸ r.isFile)

theorem inMap : n < part.inodeBitmap.size := by
  have honly : s.part.inodeBitmap = fs.part.inodeBitmap := r.deletes.spares.only.inodeBitmap
  rw [r.freed.only.inodeBitmap]
  exact honly ▸ (h.low n (.inr r.isFile)).2

/-- The records behind the release. -/
theorem record (hm : m ≠ n) (hlow : m < 4096) :
    diskInode (unlinkedFs fs p n dir l s disk part).disk
      (unlinkedFs fs p n dir l s disk part).part m = diskInode s.disk s.part m := by
  have hfinal : diskInode (unlinkedFs fs p n dir l s disk part).disk
      (unlinkedFs fs p n dir l s disk part).part m = diskInode disk part m :=
    releasedFs_record r.freed.layout (r.inMap h) ((fs.setOpenInodes l).setNode dir.inode s) hm
  have hsame : Same disk s.disk (inodeAddr s.part m) SIZEOF_INODE :=
    r.freed.outside.tables.record (r.deletes.spares.layout.relist _) hlow
  have hsb : part.sb = s.part.sb := r.freed.sb
  rw [hfinal, diskInode_sb hsb, diskInode_congr hsame]

theorem parentMod : node.iNo.toNat % 2 ^ 8 = p := by
  rw [r.isOpen.no]
  exact Nat.mod_eq_of_lt (r.low h).1

/-- The parent on the disk. -/
theorem parentRecord : Inode.SameStored (diskInode (unlinkedFs fs p n dir l s disk part).disk
    (unlinkedFs fs p n dir l s disk part).part p) s.inode := by
  have hlow := (r.low h).1
  have hstored := r.deletes.record
  rw [r.parentMod h] at hstored
  rw [r.record h (r.ne h).symm (by omega)]
  exact hstored

/-- The data of a block behind the deletion. -/
theorem dataFinal (ha : DataBlock s.part a) :
    Same (unlinkedFs fs p n dir l s disk part).disk s.disk (a.toNat * 512) 512 := by
  have hlow := (r.low h).2
  have hstart : part.sb.dataStartLba.toNat ≤ a.toNat := by
    rw [r.partSb, ← r.sb]
    exact ha.start
  have hrelease : Same (unlinkedFs fs p n dir l s disk part).disk disk (a.toNat * 512) 512 :=
    releasedFs_data r.freed.layout (r.inMap h) (by omega)
      ((fs.setOpenInodes l).setNode dir.inode s) hstart
  exact hrelease.trans
    (r.freed.outside.same (r.deletes.spares.layout.relist _) ⟨ha.start, ha.onDisk, ha.inMap⟩)

theorem parentMoved : Moved s.disk s.inode (unlinkedFs fs p n dir l s disk part).disk
    (diskInode (unlinkedFs fs p n dir l s disk part).disk
      (unlinkedFs fs p n dir l s disk part).part p) :=
  ⟨(r.parentRecord h).iSectors, fun _ ha => r.dataFinal h (r.deletes.own.holds ha).toDataBlock⟩

/-- A block that is in use behind the deletion, and is not the file's, stays in use. -/
theorem keeps (ha : InUse s.part a)
    (hother : ¬ HasBlock fs.disk (diskInode fs.disk fs.part n) a) :
    InUse (unlinkedFs fs p n dir l s disk part).part a := by
  have ha' : InUse ((fs.setOpenInodes l).setNode dir.inode s).part a := ha.relist _
  obtain ⟨hd, hidx⟩ := r.freed.dataBlock ha'.toDataBlock
  refine ⟨⟨hd.start, hd.onDisk, hd.inMap⟩, ?_⟩
  have hbit : part.blockBitmap.bit (blockIdx part a) = true := by
    rw [hidx]
    refine (r.freed.bits _).mpr ⟨ha'.marked, ?_⟩
    rintro ⟨b, hb, hsame⟩
    have hused := (h.ownUsed (.inr r.isFile)).holds hb
    have hkept : InUse s.part b := by
      refine r.empties.keeps b (hused.relist l) fun hparent => ?_
      exact h.apart n p (.inr r.isFile) (.inl r.isDir) (r.ne h) b hb
        (r.isOpen.moved.holds.mp hparent)
    obtain rfl := hkept.toDataBlock.idx_inj ha.toDataBlock hsame
    exact hother hb
  exact hbit

theorem around : Around fs (unlinkedFs fs p n dir l s disk part) p s.inode
    (without (fun m => dirs m ∨ files m) n) where
  sb := r.partSb
  layout := r.layout
  heap := h.heap
  blockMap := by
    have hmaps := @releasedFs_maps n disk part r.freed.layout
      ((fs.setOpenInodes l).setNode dir.inode s)
      (r.freed.synced (r.deletes.blockMap h.blockMap))
      (r.freed.inodeMap (r.deletes.inodeMap h.inodeMap))
    exact hmaps.1
  inodeMap := by
    have hmaps := @releasedFs_maps n disk part r.freed.layout
      ((fs.setOpenInodes l).setNode dir.inode s)
      (r.freed.synced (r.deletes.blockMap h.blockMap))
      (r.freed.inodeMap (r.deletes.inodeMap h.inodeMap))
    exact hmaps.2
  rootDir := rfl
  opened := rfl
  handles _ _ hr := hr
  parentNo := r.nodeNo
  parent := r.parentRecord h
  record m hm hne := by
    have hlow := (h.low m hm.1).1
    rw [r.record h hm.2 (by omega)]
    exact r.deletes.spares.diskInode (by omega) (r.parentMod h ▸ hne)
  data m hm hne a ha := by
    have hused := (h.ownUsed hm.1).holds ha
    have hparent : ¬ HasBlock fs.disk node a := fun hp =>
      h.apart m p hm.1 (.inl r.isDir) hne a ha (r.isOpen.moved.holds.mp hp)
    have hkept := r.empties.keeps a (hused.relist l) hparent
    refine ⟨r.keeps h hkept (h.apart m n hm.1 (.inr r.isFile) hm.2 a ha), ?_⟩
    exact (r.dataFinal h hkept.toDataBlock).trans
      (r.deletes.spares.same a (hused.relist l).toDataBlock hparent)

theorem loses (hproper : e.Proper) (hno : e.iNo.toNat = n) :
    Loses fs (unlinkedFs fs p n dir l s disk part) dirs files p n q e s.inode where
  around := r.around h
  isDir := r.isDir
  isFile := r.isFile
  proper := hproper
  entryNo := hno
  cleared := by
    have hslots := @slot_stored fs.disk _ _ r.isOpen.stored
    have hmem := r.deletes.cleared.mem
    refine ⟨hmem, hslots ▸ r.deletes.cleared.taken, ?_, fun x hx hxq => ?_⟩
    · rw [(r.parentMoved h).slot hmem]
      exact r.deletes.cleared.self
    · rw [(r.parentMoved h).slot hx, ← hslots]
      exact r.deletes.cleared.other x hx hxq
  shape := (r.parentMoved h).shape (r.parentRecord h).iSize r.empties.shape
  own := by
    refine (r.parentMoved h).ownOf (fun a ha => ?_) r.deletes.own
    refine r.keeps h (r.deletes.own.holds ha) fun hfile => ?_
    exact h.apart n p (.inr r.isFile) (.inl r.isDir) (r.ne h) a hfile
      (r.isOpen.moved.holds.mp (r.empties.had a ha))
  first := by
    rw [(r.parentRecord h).iSectors 0 (by decide), r.empties.first]
    exact r.isOpen.stored.iSectors 0 (by decide)
  had a ha := r.isOpen.moved.holds.mp (r.empties.had a ((r.parentMoved h).holds.mp ha))
  inodeBitmap := by
    have honly : s.part.inodeBitmap = fs.part.inodeBitmap := r.deletes.spares.only.inodeBitmap
    have hmap : part.inodeBitmap = s.part.inodeBitmap := r.freed.only.inodeBitmap
    change bitmapSet part.inodeBitmap n false = _
    rw [hmap, honly]
  size := by
    have hlen : part.blockBitmap.size = s.part.blockBitmap.size :=
      congrArg (· * 8) r.freed.len
    exact hlen.trans r.deletes.spares.size
  marks i hi := by
    obtain ⟨hset, hgone⟩ := (r.freed.bits i).mp hi
    obtain ⟨hold, hparent⟩ := r.empties.marks i hset
    refine ⟨hold, fun a ha hidx => ?_, fun a ha hidx => hgone ⟨a, ha, ?_⟩⟩
    · exact (r.parentMoved h).holds.mpr (hparent a (r.isOpen.moved.holds.mpr ha) hidx)
    · exact (blockIdx_sb r.sb a).trans hidx

end Removes

/-! ## The call -/

namespace SoundFs

variable {path : List UInt8} (h : SoundFs fs dirs files)
include h

/-- The first regular file on the way goes, also when the path goes on behind it. -/
theorem sysUnlink_removes (hpath : PathName path) {p : UInt32}
    (hfile : FileOn fs (components path) p e) : ∃ fs' q nd, sysUnlink fs path = .ok (0, fs') ∧
      Loses fs fs' dirs files p.toNat e.iNo.toNat q e nd := by
  have hroot : dirs (0 : UInt32).toNat := h.root
  obtain ⟨front, name, rest, hsplit, hwalk, hfound, htype⟩ := hfile
  have hsome : components path ≠ [] := by
    rw [hsplit]
    simp
  have hmem : name ∈ components path := by
    rw [hsplit]
    simp
  have hp : dirs p.toNat := h.treeOk.leads hroot
    (fun c hc => mem_components (hsplit ▸ List.mem_append_left _ hc)) hwalk
  -- the entry lies in a slot, and its number is that of a file
  obtain ⟨q, hq, hslot, rfl⟩ :=
    ((h.shape p.toNat hp).toNamed.lookup_iff (mem_components hmem)).mp hfound
  obtain ⟨hproper, hn⟩ := h.regular hp ⟨hq, hslot⟩ htype
  have hne : e.iNo ≠ 0 := (h.listed p.toNat hp q e ⟨hq, hslot⟩).1 hproper
  have hlow := (h.low _ (.inr hn)).1
  have hnot : ¬ (path = rootPath ∨ path = rootDotPath ∨ path = rootDotDotPath) := by
    intro hknown
    have hleads := h.treeOk.known_walk hknown
    rw [hsplit] at hleads
    exact FileOn.not_past hwalk hfound htype hleads
  obtain ⟨r, hr⟩ := h.fileTree.found h.heap hpath.fits hpath.searchFits hnot
  have hon : FileOn fs (components path) p e :=
    ⟨front, e.name, rest, hsplit, hwalk, hfound, htype⟩
  have hans := hr.stop.found hsome hon.answers
  obtain ⟨hsearch, hstop, hholds⟩ := hr
  cases hstop with
  | missing => exact absurd rfl hans
  | directory p' parent dir l nd hwalk' hsmall hat =>
    rw [hsplit] at hwalk'
    exact absurd hwalk' (FileOn.not_past hwalk hfound htype)
  | file front' rest' name' p' e' dir l node hsplit' hwalk' hat hfound' htype' hsmall =>
    obtain ⟨rfl, rfl⟩ := hon.unique ⟨front', name', rest', hsplit', hwalk', hfound', htype'⟩
    have hd := hholds l rfl
    have hslots := @slot_stored fs.disk _ _ hat.stored
    have hl : DiskLayout (fs.setOpenInodes l).part := h.layout.relist l
    have hown : OwnBlocks fs.disk (fs.setOpenInodes l).part node :=
      hat.moved.own (fun a ha => ha.relist l) (h.own p.toNat hp)
    have hshape : DirShape fs.disk node := hat.moved.shape hat.stored.iSize (h.shape p.toNat hp)
    have hone := h.fileTree.numbers p.toNat hp
    rw [← hslots] at hone hslot
    obtain ⟨s, hrun, hdel, hempties⟩ :=
      @DirShape.deletes ⟨fs.disk, (fs.setOpenInodes l).part, node⟩ e q hshape hl hown hq hslot
        hproper hone fun _ => 0
    obtain ⟨disk, part, hrelease, hfreed⟩ := h.releases hp hn hat hd hdel
    have hremoves : Removes fs dirs files p.toNat e.iNo.toNat dir l node q e s disk part :=
      ⟨hp, hn, hat, hdel, hempties, hfreed⟩
    refine ⟨_, q, s.inode, ?_, hremoves.loses h hproper rfl⟩
    have hcond : ¬ (e.iNo = -1 ∨ FT_REGULAR = FT_DIRECTORY) := by
      rintro (hminus | hdirectory)
      · exact ne_minusOne (by omega) hminus
      · exact absurd hdirectory (by decide)
    have hmalloc : (fs.setOpenInodes l).askMalloc 1024 = (true, fs.setOpenInodes l) :=
      Fs.askMalloc_found h.heap (by decide)
    have hentry : deleteEntry (fs.setOpenInodes l) dir e.iNo.toNat =
        .ok ((fs.setOpenInodes l).setNode dir.inode s) := by
      simp only [deleteEntry, hat.inodeAt, ok_bind]
      exact congrArg (· >>= _) hrun
    have hopen : (releasedFs ((fs.setOpenInodes l).setNode dir.inode s) disk part
        e.iNo.toNat).part.openInodes = setInode dir.inode s.inode l := by
      have hpart : part.openInodes = setInode dir.inode s.inode s.part.openInodes :=
        hfreed.only.openInodes
      have hlist : s.part.openInodes = l := hdel.keeps.blocks.openInodes
      rw [hlist] at hpart
      exact hpart
    have hclose := hat.close _ s.inode hdel.keeps.iNo hdel.keeps.iOpenCnts hopen
    simp only [sysUnlink, ASSERT_true hpath.fits, hsearch, ASSERT_true hne, unlinkIn,
      if_neg hcond, h.notInUse hn hd, ok_bind, Bool.false_eq_true, ↓reduceIte, hmalloc, not_true,
      hentry, hrelease]
    exact congrArg (· >>= fun fs => .ok ((0 : Int), fs)) hclose

/-- Without a regular file on the way, and not at the root, nothing is removed. -/
theorem sysUnlink_refuses (hpath : PathName path) (hroot : ¬ LeadsToRoot fs path)
    (hnone : ∀ p e, ¬ FileOn fs (components path) p e) :
    sysUnlink fs path = .ok (-1, fs) := by
  obtain ⟨r, hr, hsome, hne⟩ := h.fileTree.found_ne_zero h.heap hpath.fits hpath.searchFits
    hroot
  obtain ⟨hsearch, hstop, -⟩ := hr
  cases hstop with
  | missing front rest name p dir l nd hsplit hwalk hat hmiss =>
    have hne : (-1 : UInt32) ≠ 0 := by decide
    simp only [sysUnlink, ASSERT_true hpath.fits, hsearch, ASSERT_true hne, unlinkIn, true_or,
      if_true, ok_bind, pure_bind, hat.close_same]
    rfl
  | file front rest name p e dir l nd hsplit hwalk hat hfound htype hsmall =>
    exact absurd ⟨front, name, rest, hsplit, hwalk, hfound, htype⟩ (hnone p e)
  | directory p parent dir l nd hwalk hsmall hat =>
    simp only [sysUnlink, ASSERT_true hpath.fits, hsearch, ASSERT_true hne, unlinkIn, or_true,
      if_true, ok_bind, pure_bind, hat.close_same]
    rfl

/-- With a directory open an inode is opened, holds what is stored of it, and is closed again. -/
theorem peeks (hd : Holds fs dir l) (hat : DirAt fs p dir l node) (hn : n < 4096) :
    ∃ ref l' nd, inodeOpen (fs.setOpenInodes l) n = .ok (ref, fs.setOpenInodes l') ∧
      (fs.setOpenInodes l').inodeAt ref = .ok nd ∧
        Inode.SameStored nd (diskInode fs.disk fs.part n) ∧
          inodeClose (fs.setOpenInodes l') ref = .ok (fs.setOpenInodes l) := by
  obtain ⟨held, hfit, hcounted⟩ := h.fileTree.counted
  have hc : Counted (fs.setOpenInodes l).part.openInodes (held + dirUse dir) :=
    hd.counted hcounted (hfit.mono (by decide))
  have hfit' : FitsMore 1 (held + dirUse dir) := FitsMore.dirUse (hfit.mono (by decide)) dir
  obtain ⟨ref, l', hopen, hopens⟩ := @inodeOpen_ends (fs.setOpenInodes l) _
    (h.layout.relist l).fits h.heap hn
  have hc' : Counted (fs.setOpenInodes l').part.openInodes
      (held + dirUse dir + Pi.single ref 1) := hc.opened hopens hfit'
  obtain ⟨nd, hnd⟩ := inodeAt_listed hc'.isListed
  refine ⟨ref, l', nd, hopen, hnd, ?_, hopens.close hc.live⟩
  refine @inodeOpen_stored (fs.setOpenInodes l) _ _ _ _ (h.layout.relist l).fits hn
    (fun o ho hno => ?_) hopen hnd
  obtain hold | hnew := hat.mem ho
  · exact hno ▸ (h.opened o hold).2
  · rw [hnew, hat.no] at hno
    rw [hnew, ← hno]
    exact hat.stored

/-- A directory is opened, found to be in use, and closed. -/
theorem rmdirIn_same {record : PathSearchRecord} {no : UInt32} (hd : Holds fs dir l)
    (hat : DirAt fs p dir l node) (hno : dirs no.toNat)
    (htype : record.fileType = FT_DIRECTORY) :
    rmdirIn (fs.setOpenInodes l) no record = .ok (-1, fs.setOpenInodes l) := by
  have hlow := (h.low _ (.inl hno)).1
  obtain ⟨ref, l', nd, hopen, hnd, hstored, hclose⟩ := h.peeks hd hat (by omega : no.toNat < 4096)
  have hmalloc : (fs.setOpenInodes l).askMalloc SIZEOF_DIR = (true, fs.setOpenInodes l) :=
    Fs.askMalloc_found h.heap (by decide)
  have hdir : dirOpen (fs.setOpenInodes l) no.toNat = .ok (⟨false, ref⟩, fs.setOpenInodes l') := by
    simp only [dirOpen, hmalloc, hopen, ok_bind, orNull_true]
    rfl
  have hsize : nd.iSize ≠ 24 := by
    rw [hstored.iSize]
    exact h.fileTree.size_ne hno
  have hentry : (fs.setOpenInodes l').part.sb.dirEntrySize = 24 := h.layout.entrySize
  have hempty : dirIsEmpty (fs.setOpenInodes l') ⟨false, ref⟩ = .ok false := by
    simp only [dirIsEmpty, hnd, ok_bind, hentry, hsize]
    rfl
  have hclosed : dirClose (fs.setOpenInodes l') ⟨false, ref⟩ = .ok (fs.setOpenInodes l) := hclose
  have hfound : ¬ (no = -1 ∨ record.fileType = FT_REGULAR) := by
    rintro (hminus | hfile)
    · exact ne_minusOne (by omega) hminus
    · rw [htype] at hfile
      exact absurd hfile (by decide)
  simp only [rmdirIn, if_neg hfound, hdir, hempty, hclosed, ok_bind]
  rfl

/-- `.` and `..` count in the size: no directory is empty, and none is removed. -/
theorem sysRmdir_same (hpath : PathName path) (hroot : ¬ LeadsToRoot fs path) :
    sysRmdir fs path = .ok (-1, fs) := by
  obtain ⟨r, hr, hsome, hne⟩ := h.fileTree.found_ne_zero h.heap hpath.fits hpath.searchFits
    hroot
  obtain ⟨hsearch, hstop, hholds⟩ := hr
  cases hstop with
  | missing front rest name p dir l nd hsplit hwalk hat hmiss =>
    have hne : (-1 : UInt32) ≠ 0 := by decide
    simp only [sysRmdir, hsearch, ASSERT_true hne, rmdirIn, true_or, if_true, ok_bind, pure_bind,
      hat.close_same]
    rfl
  | file front rest name p e dir l nd hsplit hwalk hat hfound htype hsmall =>
    simp only [sysRmdir, hsearch, ASSERT_true hne, rmdirIn, or_true, if_true, ok_bind, pure_bind,
      hat.close_same]
    rfl
  | directory p parent dir l nd hwalk hsmall hat =>
    have hzero : dirs (0 : UInt32).toNat := h.root
    have hp : dirs p.toNat := h.treeOk.leads hzero (fun c hc => mem_components hc) hwalk
    rw [if_neg hsome] at hsearch hne
    have hne : p ≠ 0 := hne
    have hin := @rmdirIn_same fs dirs files dir _ _ l h
      ⟨[] ++ joinPath (components path), dir, FT_DIRECTORY⟩ p (hholds l rfl) hat hp rfl
    simp only [sysRmdir, hsearch, ASSERT_true hne, hin, ok_bind, hat.close_same]
    rfl

end SoundFs

end ZhuOS
