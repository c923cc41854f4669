import ZhuOS.Entered
import ZhuOS.Getcwd

/-!
# What `sys_mkdir` makes

A number, a block with `.` and `..`, an entry in the parent directory, and the records of the
two inodes. The tree has one directory more, and nothing else of it has changed.
-/

namespace ZhuOS

open ByteMem PackedBits

set_option maxRecDepth 2000

/-! ## What a call that returns 0 has done -/

def Partition.setNumber (part : Partition) (n : Nat) : Partition :=
  { part with inodeBitmap := bitmapSet part.inodeBitmap n true }

/-- The inode of the new directory. -/
def newDirInode (n : Nat) (lba : UInt32) : Inode :=
  { (inodeInit (.ofNat n)).setSector 0 lba with iSize := 48 }

/-- The parent directory when the block of the new one is written. -/
def dotsWritten (disk : Bytes) (part : Partition) (lba : UInt32) (n : Nat) (parent : Inode) :
    NodeState :=
  ⟨blit disk (lba.toNat * 512) (dotSector (.ofNat n) parent.iNo) 0 512, part, parent⟩

/-- The number `n` and the block `lba` of the new directory, and its entry `de`; `disk` and
`part` are those after the block was claimed, `s` after the entry was inserted. -/
structure Made (fs : Fs) (parent : Inode) (name : List UInt8) (n : Nat) (lba : UInt32)
    (disk : Bytes) (part : Partition) (de : DirEntry) (s : NodeState) : Prop where
  inMap : n < fs.part.inodeBitmap.size
  free : fs.part.inodeBitmap.bit n = false
  first : ∀ m < n, fs.part.inodeBitmap.bit m = true
  claimed : Claimed fs.disk (fs.part.setNumber n) lba disk part
  entry : createDirEntry name (.ofNat n) FT_DIRECTORY = .ok de
  inserted : Inserted (dotsWritten disk part lba n parent) de s

/-- The disk with the records of the parent and of the new directory, and the bitmap. -/
def madeDisk (s : NodeState) (n : Nat) (lba : UInt32) : Bytes :=
  let disk := blit s.disk (inodeAddr s.part (s.inode.iNo.toNat % 2 ^ 8)) s.inode.pure.toBytes 0
    SIZEOF_INODE
  let disk := blit disk (inodeAddr s.part ((newDirInode n lba).iNo.toNat % 2 ^ 8))
    (newDirInode n lba).pure.toBytes 0 SIZEOF_INODE
  syncInodeMap disk s.part n

variable {fs fs' : Fs} {dirs : Nat → Prop} {dir : Dir} {parent nd : Inode} {name : List UInt8}
  {n : Nat} {lba : UInt32} {disk : Bytes} {part : Partition} {de : DirEntry} {s s' : NodeState}

theorem DiskLayout.setNumber (hl : DiskLayout part) (n : Nat) : DiskLayout (part.setNumber n) :=
  ⟨hl.blockMapLen, hl.inodeMapLen, hl.blockMap, hl.inodeMap, hl.table, hl.onDisk, hl.inPart,
    hl.blocks, hl.entrySize⟩

theorem InUse.setNumber (h : InUse part lba) (n : Nat) : InUse (part.setNumber n) lba :=
  ⟨⟨h.start, h.onDisk, h.inMap⟩, h.marked⟩

/-- The number is the first that is free. -/
theorem inodeBitmapAlloc_first {part' : Partition} {i : Nat}
    (h : inodeBitmapAlloc part = .ok (some i, part')) : ∀ j < i, part.inodeBitmap.bit j = true := by
  obtain ⟨hi, hfree, -⟩ := inodeBitmapAlloc_ok h
  have hrun : ClearRun part.inodeBitmap.bits part.inodeBitmap.size i 1 :=
    ⟨by omega, fun j hj hlt => (show j = i by omega) ▸ hfree⟩
  obtain ⟨m, hm⟩ := exists_leastRun hrun
  have hscan := bitmapScan_least (Nat.le_refl _) hm
  simp only [inodeBitmapAlloc, hscan, ok_bind] at h
  cases h
  intro j hj
  by_contra hclear
  have hclear : part.inodeBitmap.bit j = false := by simpa using hclear
  have hle := hm.least j ⟨by omega, fun x hx hlt => (show x = j by omega) ▸ hclear⟩
  omega

/-- Twice the size of an entry. -/
theorem DiskLayout.twoEntries (hl : DiskLayout part) : 2 * part.sb.dirEntrySize = 48 := by
  rw [hl.entrySize]
  rfl

theorem mkdirBlock_ok (hl : DiskLayout fs.part) {parentNo : UInt32}
    (h : mkdirBlock fs n parentNo = .ok (some nd, fs')) :
    ∃ lba disk part, Claimed fs.disk fs.part lba disk part ∧ nd = newDirInode n lba ∧
      fs' = { fs with
        disk := blit disk (lba.toNat * 512) (dotSector (.ofNat n) parentNo) 0 512, part } := by
  obtain ⟨⟨r, part⟩, halloc, h⟩ := bind_ok.mp h
  cases r with
  | none => cases h
  | some lba =>
    obtain ⟨⟨⟩, -, h⟩ := bind_ok.mp h
    obtain ⟨disk, hsync, h⟩ := bind_ok.mp h
    have hclaim : claimBlock fs.disk fs.part = .ok (some lba, disk, part) := by
      simp only [claimBlock, halloc, ok_bind, hsync]
      rfl
    obtain ⟨lba', heq, hc⟩ := claimBlock_ok hl hclaim
    cases heq
    simp only [ideWrite_one hc.block.onDisk, ok_bind, (hc.layout hl).twoEntries] at h
    cases h
    exact ⟨lba, disk, part, hc, rfl, rfl⟩

theorem mkdirSync_ok (hl : DiskLayout fs.part) (hown : OwnBlocks fs.disk fs.part parent)
    (hat : fs.inodeAt dir.inode = .ok parent) (hn : n < fs.part.inodeBitmap.size)
    (h : mkdirSync fs dir name n (newDirInode n lba) = .ok (true, fs')) :
    ∃ de s, createDirEntry name (.ofNat n) FT_DIRECTORY = .ok de ∧
      Inserted ⟨fs.disk, fs.part, parent⟩ de s ∧
      fs' = { fs.setNode dir.inode s with disk := madeDisk s n lba } := by
  obtain ⟨de, hde, h⟩ := bind_ok.mp h
  obtain ⟨nd, hnd, h⟩ := bind_ok.mp h
  obtain rfl := Except.ok.inj (hat.symm.trans hnd)
  obtain ⟨⟨done, s⟩, hsync, h⟩ := bind_ok.mp h
  cases done with
  | false => cases h
  | true =>
    have hl₀ : DiskLayout (NodeState.mk fs.disk fs.part parent).part := hl
    have hins : Inserted ⟨fs.disk, fs.part, parent⟩ de s :=
      syncDirEntry_inserted hl₀ hown.readable.direct hsync
    have hl' : DiskLayout (fs.setNode dir.inode s).part := (hins.layout hl₀).relist _
    have hmap : (fs.setNode dir.inode s).part.inodeBitmap = fs.part.inodeBitmap := by
      have honly : BlocksOnly fs.part s.part := hins.only
      exact honly.inodeBitmap
    simp only [inodeSync_eq hl'.fits, ok_bind, not_true, ↓reduceIte,
      bitmapSync_inode hl' (hmap.symm ▸ hn)] at h
    cases h
    exact ⟨de, s, hde, hins, rfl⟩

/-- The entry of an open directory is found at the same address when its list is the same. -/
theorem inodeAt_list {ref : Nat} (hlist : fs'.part.openInodes = fs.part.openInodes) :
    fs'.inodeAt ref = fs.inodeAt ref := by
  rw [Fs.inodeAt, Fs.inodeAt, hlist]

theorem mkdirIn_made {path : List UInt8} (hl : DiskLayout fs.part)
    (hown : OwnBlocks fs.disk fs.part parent) (hat : fs.inodeAt dir.inode = .ok parent)
    (h : mkdirIn fs dir path = .ok (0, fs')) :
    ∃ n lba disk part de s, Made fs parent (lastName path) n lba disk part de s ∧
      fs' = { fs.setNode dir.inode s with disk := madeDisk s n lba } := by
  obtain ⟨⟨⟩, -, h⟩ := bind_ok.mp h
  obtain ⟨⟨found, part₁⟩, halloc, h⟩ := bind_ok.mp h
  cases found with
  | none => cases h
  | some n =>
    obtain ⟨hn, hfree, rfl⟩ := inodeBitmapAlloc_ok halloc
    obtain ⟨nd, hnd, h⟩ := bind_ok.mp h
    obtain rfl := Except.ok.inj (hat.symm.trans ((inodeAt_list rfl).symm.trans hnd))
    obtain ⟨⟨made, fs₁⟩, hblock, h⟩ := bind_ok.mp h
    cases made with
    | none => cases h
    | some newDir =>
      have hl₁ : DiskLayout (fs.part.setNumber n) := hl.setNumber n
      obtain ⟨lba, disk, part, hc, rfl, rfl⟩ := mkdirBlock_ok hl₁ hblock
      obtain ⟨⟨synced, fs₂⟩, hsync, h⟩ := bind_ok.mp h
      cases synced with
      | false => cases h
      | true =>
        cases h
        have hc : Claimed fs.disk (fs.part.setNumber n) lba disk part := hc
        have hkeeps : ∀ a, InUse fs.part a → InUse part a :=
          fun a ha => hc.keeps (ha.setNumber n)
        have hmoved : Moved fs.disk parent (dotsWritten disk part lba n parent).disk parent := by
          refine ⟨fun _ _ => rfl, fun a ha => ?_⟩
          exact hc.same hl₁ ((hown.holds ha).setNumber n) _
        have hopen : part.openInodes = fs.part.openInodes := by
          rw [hc.part_eq]
          rfl
        have hmap : part.inodeBitmap.size = fs.part.inodeBitmap.size := by
          rw [hc.part_eq]
          rfl
        obtain ⟨de, s, hde, hins, rfl⟩ := mkdirSync_ok (hc.layout hl₁) (hmoved.own hkeeps hown)
          ((inodeAt_list hopen).trans hat) (hmap.symm ▸ hn) hsync
        exact ⟨n, lba, disk, part, de, s,
          ⟨hn, hfree, inodeBitmapAlloc_first halloc, hc, hde, hins⟩, rfl⟩

/-! ## The state after the call -/

/-- The files with the new directory, the parent refreshed where it is open. -/
def madeFs (fs : Fs) (p : Nat) (s : NodeState) (n : Nat) (lba : UInt32) : Fs :=
  { fs with
    disk := madeDisk s n lba
    part := { s.part with openInodes := refresh p s.inode fs.part.openInodes } }

theorem lastName_joinPath (front : List (List UInt8)) (hname : slash ∉ name) :
    lastName (joinPath (front ++ [name])) = name := by
  have hjoin : joinPath (front ++ [name]) = joinPath front ++ slash :: name := by
    rw [joinPath, List.flatMap_append]
    simp [joinPath]
  have hall : ∀ b ∈ name.reverse, decide (b ≠ slash) = true := by
    intro b hb
    have hmem := List.mem_reverse.mp hb
    simpa using fun h : b = slash => hname (h ▸ hmem)
  rw [lastName, hjoin, List.reverse_append, List.reverse_cons, List.append_assoc,
    List.takeWhile_append_of_pos hall, List.singleton_append,
    List.takeWhile_cons_of_neg (by simp), List.append_nil, List.reverse_reverse]

/-- A call that returns 0 has made the directory. -/
theorem sysMkdir_made (ht : DiskTree fs dirs) (hheap : fs.heap = fun _ => true)
    {path : List UInt8} (hpath : PathName path) {front : List (List UInt8)} {p : UInt32}
    (hmiss : MissingAt fs (components path) front name [] p)
    (h : sysMkdir fs path = .ok (0, fs')) :
    ∃ l parent n lba disk part de s,
      Inode.SameStored parent (diskInode fs.disk fs.part p.toNat) ∧
      Made (fs.setOpenInodes l) parent name n lba disk part de s ∧
      fs' = madeFs fs p.toNat s n lba := by
  have hmem : ∀ c ∈ front ++ [name], c ∈ components path := fun c hc => hmiss.split ▸ hc
  have hroot : dirs (0 : UInt32).toNat := ht.root
  have hp : dirs p.toNat := ht.leads hroot
    (fun c hc => mem_components (hmem c (List.mem_append_left _ hc))) hmiss.leads
  obtain ⟨record, fs₁, hsearch, -, hstop⟩ := hmiss.searched ht.toTreeOk hheap hpath
  obtain ⟨l, parent, hfs₁, hat⟩ := hstop.parentOpen
  obtain rfl : fs₁ = fs.setOpenInodes l := hfs₁
  obtain ⟨searched, wanted, hsearched, hwanted, hdepth⟩ :=
    hstop.depths ((fs.setOpenInodes l).junk 0) ((fs.setOpenInodes l).junk 0)
  obtain rfl := hdepth.mpr rfl
  simp only [sysMkdir, Fs.askMalloc_found hheap (by decide : 0 < 1024), not_true, ↓reduceIte,
    hsearch, ok_bind, ne_eq, hwanted, hsearched] at h
  obtain ⟨⟨ret, fs₂⟩, hin, h⟩ := bind_ok.mp h
  obtain ⟨fs₃, hclose, h⟩ := bind_ok.mp h
  cases h
  have hl : DiskLayout (fs.setOpenInodes l).part :=
    ⟨ht.layout.blockMapLen, ht.layout.inodeMapLen, ht.layout.blockMap, ht.layout.inodeMap,
      ht.layout.table, ht.layout.onDisk, ht.layout.inPart, ht.layout.blocks, ht.layout.entrySize⟩
  have hmoved : Moved fs.disk (diskInode fs.disk fs.part p.toNat) fs.disk parent :=
    ⟨hat.stored.iSectors, fun _ _ _ _ _ => rfl⟩
  have hkeeps : ∀ a, InUse fs.part a → InUse (fs.setOpenInodes l).part a :=
    fun a ha => ⟨⟨ha.start, ha.onDisk, ha.inMap⟩, ha.marked⟩
  have hown : OwnBlocks (fs.setOpenInodes l).disk (fs.setOpenInodes l).part parent :=
    hmoved.own hkeeps (ht.ok _ hp).toOwnBlocks
  obtain ⟨n, lba, disk, part, de, s, hmade, rfl⟩ := mkdirIn_made hl hown hat.inodeAt hin
  have hname : lastName record.searchedPath = name := by
    have : record.searchedPath = joinPath (front ++ [name]) := hstop.searched
    rw [this]
    exact lastName_joinPath front (component_word (hmem name (by simp))).2
  rw [hname] at hmade
  refine ⟨l, parent, n, lba, disk, part, de, s, hat.stored, hmade, ?_⟩
  -- closing the parent refreshes it where it was open before
  obtain ⟨hno, hcnt⟩ := hmade.inserted.sameHandle
  have hlist : s.part.openInodes = l := by
    rw [hmade.inserted.only.openInodes, hmade.claimed.part_eq]
    rfl
  have hopen : ({ (fs.setOpenInodes l).setNode record.parentDir.inode s with
      disk := madeDisk s n lba } : Fs).part.openInodes =
        ZhuOS.setInode record.parentDir.inode s.inode l := by
    rw [← hlist]
    rfl
  have := hat.close _ s.inode hno hcnt hopen
  rw [hclose] at this
  exact Except.ok.inj this

/-! ## The block with `.` and `..` -/

theorem dirDotEntry_stored {filename : List UInt8} (hname : filename = dot ∨ filename = dotDot)
    (i : UInt32) : (dirDotEntry filename i).stored.name = filename ∧
      (dirDotEntry filename i).stored.iNo = i ∧
        (dirDotEntry filename i).stored.fType = FT_DIRECTORY := by
  obtain ⟨hstored, hno, htype⟩ := DirEntry.ofBytes_toBytes (dirDotEntry filename i)
  refine ⟨hstored.trans ?_, hno, htype⟩
  obtain rfl | rfl := hname
  · rfl
  · rfl

theorem dotSector_first (a b : UInt32) :
    entryAt (dotSector a b) 0 = (dirDotEntry dot a).stored := by
  apply DirEntry.ofBytes_congr
  intro i hi
  rw [shift_apply, dotSector, blit_out (.inl (by omega)), blit_in (by omega) (by omega)]
  exact congrArg _ (by omega)

theorem dotSector_second (a b : UInt32) :
    entryAt (dotSector a b) 1 = (dirDotEntry dotDot b).stored := by
  apply DirEntry.ofBytes_congr
  intro i hi
  rw [shift_apply, dotSector, blit_in (by omega) (by omega)]
  exact congrArg _ (by omega)

theorem dotSector_rest (a b : UInt32) {j : Nat} (hj : 1 < j) :
    (entryAt (dotSector a b) j).fType = FT_UNKNOWN ∧ (entryAt (dotSector a b) j).name = [] := by
  apply entryAt_zero
  intro i hi
  unfold dotSector SIZEOF_DIR_ENTRY
  rw [blit_out (by omega), blit_out (by omega)]

/-! ## What of the disk has changed -/

/-- What a call has made in the directory `p` of a tree. -/
structure Making (fs : Fs) (dirs : Nat → Prop) (p : Nat) (l : List OpenInode) (parent : Inode)
    (name : List UInt8) (n : Nat) (lba : UInt32) (disk : Bytes) (part : Partition) (de : DirEntry)
    (s : NodeState) : Prop
    extends Made (fs.setOpenInodes l) parent name n lba disk part de s where
  tree : DiskTree fs dirs
  isDir : dirs p
  stored : Inode.SameStored parent (diskInode fs.disk fs.part p)
  lowNew : n < 256
  fileName : FileName name

namespace Making

variable {p m : Nat} {l : List OpenInode} {a : UInt32}
  (h : Making fs dirs p l parent name n lba disk part de s)
include h

theorem partSb : part.sb = fs.part.sb := by
  rw [h.claimed.part_eq]
  rfl

theorem partLayout : DiskLayout part := h.claimed.layout ((h.tree.layout.relist l).setNumber n)

theorem entering : Entering fs dirs p n (dotsWritten disk part lba n parent) de s
    (newDirInode n lba) where
  tree := h.tree
  isDir := h.isDir
  inMap := h.inMap
  free := h.free
  low := h.lowNew
  number := rfl
  startSb := h.partSb
  startMap := by
    change part.inodeBitmap = _
    rw [h.claimed.part_eq]
    rfl
  startLayout := h.partLayout
  startKeeps _ ha := h.claimed.keeps ((ha.relist l).setNumber n)
  startSame _ ha :=
    h.claimed.same ((h.tree.layout.relist l).setNumber n) ((ha.relist l).setNumber n) _
  startTables := h.claimed.tables ((h.tree.layout.relist l).setNumber n)
    (dotSector (.ofNat n) parent.iNo)
  stored := h.stored
  inserted := h.inserted

theorem newToNat : (UInt32.ofNat n).toNat = n := h.entering.newToNat

/-- The data is as it was after the insertion. -/
theorem dataSame (ha : fs.part.sb.dataStartLba.toNat ≤ a.toNat) :
    Same (madeDisk s n lba) s.disk (a.toNat * 512) 512 := h.entering.dataSame ha

theorem newRecord :
    Inode.SameStored (diskInode (madeDisk s n lba) fs.part n) (newDirInode n lba) :=
  h.entering.newRecord

theorem entered : Entered fs dirs p n (dotsWritten disk part lba n parent) de s
    (madeDisk s n lba) := h.entering.entered

/-! ### The new directory -/

/-- The block of the new directory is not one of the parent's. -/
theorem newBlock : Same (madeDisk s n lba) (dotsWritten disk part lba n parent).disk
    (lba.toNat * 512) 512 := by
  have hother : ¬ HasBlock (dotsWritten disk part lba n parent).disk parent lba := by
    intro hhas
    have hused := (h.tree.ok p h.isDir).toOwnBlocks.holds (h.entered.parentMoved.holds.mp hhas)
    exact h.claimed.ne ((hused.relist l).setNumber n) rfl
  have hstart : fs.part.sb.dataStartLba.toNat ≤ lba.toNat := h.claimed.block.start
  exact (h.dataSame hstart).trans (h.inserted.same h.partLayout h.claimed.inUse hother)

theorem newSector : (diskInode (madeDisk s n lba) fs.part n).iSectors 0 = lba := by
  rw [h.newRecord.iSectors 0 (by decide)]
  rfl

theorem newBlocks (k : Nat) :
    blockAt (madeDisk s n lba) (diskInode (madeDisk s n lba) fs.part n) k =
      if k = 0 then lba else 0 := by
  have hsector : ∀ i < 13, i ≠ 0 → (diskInode (madeDisk s n lba) fs.part n).iSectors i = 0 := by
    intro i hi hne
    rw [h.newRecord.iSectors i hi]
    exact setSector_other hne
  by_cases hk : k < 12
  · rw [blockAt_direct hk]
    by_cases h0 : k = 0
    · rw [if_pos h0, h0, h.newSector]
    · rw [if_neg h0, hsector k (by omega) h0]
  · rw [if_neg (by omega), blockAt_noTable (hsector 12 (by decide) (by decide)) (by omega)]

/-- The entry `j` of its block. -/
theorem newEntry {j : Nat} (hj : j < 21) :
    entryAt (shift (madeDisk s n lba) (lba.toNat * 512)) j =
      entryAt (dotSector (.ofNat n) parent.iNo) j := by
  apply entryAt_congr hj
  intro i hi
  rw [shift_apply, h.newBlock _ (by omega) (by omega)]
  exact (blit_at hi).trans (congrArg _ (Nat.zero_add i))

theorem newListed {e : DirEntry}
    (he : e ∈ entries (madeDisk s n lba) (diskInode (madeDisk s n lba) fs.part n)) :
    e = (dirDotEntry dot (.ofNat n)).stored ∨ e = (dirDotEntry dotDot parent.iNo).stored ∨
      e.fType = FT_UNKNOWN ∧ e.name = [] := by
  obtain ⟨k, hk, hne, j, hj, rfl⟩ := mem_listed.mp he
  rw [h.newBlocks] at hne ⊢
  by_cases h0 : k = 0
  · rw [if_pos h0, h.newEntry hj]
    by_cases hfirst : j = 0
    · exact .inl (hfirst ▸ dotSector_first ..)
    · by_cases hsecond : j = 1
      · exact .inr (.inl (hsecond ▸ dotSector_second ..))
      · exact .inr (.inr (dotSector_rest _ _ (by omega)))
  · rw [if_neg h0] at hne
    exact absurd rfl hne

theorem newNonzero : lba ≠ 0 :=
  h.claimed.block.ne_zero ((h.tree.layout.relist l).setNumber n)

/-- The first two entries of its block are listed. -/
theorem newMem {j : Nat} (hj : j < 21) : entryAt (dotSector (.ofNat n) parent.iNo) j ∈
    entries (madeDisk s n lba) (diskInode (madeDisk s n lba) fs.part n) := by
  rw [← h.newEntry hj]
  refine mem_listed.mpr ⟨0, by decide, ?_, j, hj, ?_⟩
  · rw [h.newBlocks, if_pos rfl]
    exact h.newNonzero
  · rw [h.newBlocks, if_pos rfl]

/-- `.` is the directory itself. -/
theorem newDot : ∃ e, lookup (madeDisk s n lba) (diskInode (madeDisk s n lba) fs.part n) dot =
    some e ∧ e.iNo = .ofNat n ∧ e.fType = FT_DIRECTORY := by
  obtain ⟨hname, hno, htype⟩ := dirDotEntry_stored (.inl rfl) (.ofNat n)
  have hmem := h.newMem (by decide : 0 < 21)
  rw [dotSector_first] at hmem
  refine ⟨_, lookup_of_mem hmem hname fun x hx hxname => ?_, hno, htype⟩
  obtain rfl | rfl | ⟨-, hnil⟩ := h.newListed hx
  · rfl
  · rw [(dirDotEntry_stored (.inr rfl) parent.iNo).1] at hxname
    cases hxname
  · rw [hnil] at hxname
    cases hxname

/-- The second entry has the number of the parent. -/
theorem newUp {q : UInt32} (hq : q.toNat = p) :
    (entryAt (shift (madeDisk s n lba) (lba.toNat * 512)) 1).iNo = q ∧
      (entryAt (shift (madeDisk s n lba) (lba.toNat * 512)) 1).fType = FT_DIRECTORY := by
  obtain ⟨-, hno, htype⟩ := dirDotEntry_stored (.inr rfl) parent.iNo
  rw [h.newEntry (by decide), dotSector_second]
  refine ⟨?_, htype⟩
  apply UInt32.toNat_inj.mp
  rw [hno, h.stored.iNo, h.tree.number p h.isDir, hq]

/-! ### The tree -/

theorem finalSb : (madeFs fs p s n lba).part.sb = fs.part.sb := h.entering.nodeSb

theorem finalInode (m : Nat) : diskInode (madeFs fs p s n lba).disk (madeFs fs p s n lba).part m =
    diskInode (madeDisk s n lba) fs.part m := by
  have haddr : inodeAddr (madeFs fs p s n lba).part m = inodeAddr fs.part m := by
    rw [inodeAddr, inodeAddr, h.finalSb]
  rw [diskInode, diskInode, haddr]
  rfl

theorem settled : Settled fs p s (madeDisk s n lba) (madeFs fs p s n lba) :=
  ⟨rfl, h.finalSb, h.entering.nodeLayout.relist _, rfl, rfl⟩

theorem newNumber : (diskInode (madeDisk s n lba) fs.part n).iNo.toNat = n := by
  rw [h.newRecord.iNo]
  exact h.newToNat

theorem newReadable : Readable (madeDisk s n lba) (diskInode (madeDisk s n lba) fs.part n) := by
  constructor
  · rw [h.newRecord.iSectors 12 (by decide)]
    exact Nat.zero_le _
  · intro k _
    rw [h.newBlocks]
    split
    · exact h.claimed.block.onDisk
    · exact Nat.zero_le _

theorem newEntries {e : DirEntry}
    (he : e ∈ entries (madeDisk s n lba) (diskInode (madeDisk s n lba) fs.part n))
    (hname : e.name ≠ []) : e.iNo.toNat < 4096 ∧
      (e.fType = FT_REGULAR ∨ e.fType = FT_DIRECTORY ∧ (dirs e.iNo.toNat ∨ e.iNo.toNat = n)) := by
  have hlow := h.lowNew
  have hnew := h.newToNat
  obtain rfl | rfl | ⟨-, hnil⟩ := h.newListed he
  · obtain ⟨-, hno, htype⟩ := dirDotEntry_stored (.inl rfl) (.ofNat n)
    rw [hno, htype, hnew]
    exact ⟨by omega, .inr ⟨rfl, .inr rfl⟩⟩
  · obtain ⟨-, hno, htype⟩ := dirDotEntry_stored (.inr rfl) parent.iNo
    rw [hno, htype, h.stored.iNo, h.tree.number p h.isDir]
    exact ⟨h.tree.small p h.isDir, .inr ⟨rfl, .inl h.isDir⟩⟩
  · exact absurd hnil hname

theorem newDirs (hcached : ∀ o ∈ fs.part.openInodes,
      fs.part.inodeBitmap.bit o.inode.iNo.toNat = true) :
    NewDirs fs dirs (· = n) de (madeDisk s n lba) := by
  have hlow := h.lowNew
  constructor
  · intro o ho hn
    have hfree : fs.part.inodeBitmap.bit n = false := h.free
    rw [← hn, hcached o ho] at hfree
    cases hfree
  · rintro m rfl
    omega
  · rintro m rfl
    exact h.newNumber
  · rintro m rfl
    exact h.newReadable
  · rintro m rfl e he hne
    exact h.newEntries he hne
  · obtain ⟨-, hno, htype⟩ := createDirEntry_ok h.fileName h.entry
    rw [hno, htype, h.newToNat]
    exact ⟨by omega, .inr ⟨rfl, rfl⟩⟩

theorem names (hnew : lookup fs.disk (diskInode fs.disk fs.part p) name = none)
    (hroom : ¬ DirectFull fs.disk (diskInode fs.disk fs.part p) 12) :
    InsertedRight (dotsWritten disk part lba n parent) s name (.ofNat n) FT_DIRECTORY :=
  h.entered.parentNames h.fileName h.entry hnew hroom

end Making

/-- A call that returns 0 in a tree with a number below 256 that is free. -/
theorem sysMkdir_making (ht : DiskTree fs dirs) (hheap : fs.heap = fun _ => true)
    (hlow : ∃ i < 256, fs.part.inodeBitmap.bit i = false)
    {path : List UInt8} (hpath : PathName path) {front : List (List UInt8)} {p : UInt32}
    (hmiss : MissingAt fs (components path) front name [] p)
    (h : sysMkdir fs path = .ok (0, fs')) :
    ∃ l parent n lba disk part de s, Making fs dirs p.toNat l parent name n lba disk part de s ∧
      fs' = madeFs fs p.toNat s n lba := by
  have hnames := hpath.names
  have hmem : ∀ c ∈ front ++ [name], c ∈ components path := fun c hc => hmiss.split ▸ hc
  have hroot : dirs (0 : UInt32).toNat := ht.root
  have hp : dirs p.toNat := ht.leads hroot
    (fun c hc => mem_components (hmem c (List.mem_append_left _ hc))) hmiss.leads
  obtain ⟨l, parent, n, lba, disk, part, de, s, hstored, hmade, rfl⟩ :=
    sysMkdir_made ht hheap hpath hmiss h
  have hn : n < 256 := by
    obtain ⟨i, hi, hfree⟩ := hlow
    by_contra hge
    have hset : fs.part.inodeBitmap.bit i = true := hmade.first i (by omega)
    rw [hset] at hfree
    cases hfree
  exact ⟨l, parent, n, lba, disk, part, de, s,
    ⟨hmade, ht, hp, hstored, hn, hnames name (hmem name (by simp))⟩, rfl⟩

/-! ## What `sys_mkdir` promises -/

/-- After the directory `n` was made in `p`: its path leads to it, its entries `.` and `..` are
itself and `p`, and every path that was found leads where it led. -/
structure MkdirRight (fs fs' : Fs) (path : List UInt8) (p n : UInt32) : Prop where
  fresh : fs.part.inodeBitmap.bit n.toNat = false
  found : ∃ r, searchFile fs' path = .ok r ∧ r.1 = n ∧ r.2.1.fileType = FT_DIRECTORY
  self : ∃ e, lookup fs'.disk (diskInode fs'.disk fs'.part n.toNat) dot = some e ∧ e.iNo = n ∧
    e.fType = FT_DIRECTORY
  parent : ∀ ioBuf, ∃ ioBuf', getParentDirInodeNr fs' n ioBuf = .ok (p, ioBuf', fs')
  kept : ∀ q, PathName q → components q ≠ [] →
    ∀ r, searchFile fs q = .ok r → r.1 ≠ -1 →
      ∃ r', searchFile fs' q = .ok r' ∧ r'.1 = r.1 ∧ r'.2.1.fileType = r.2.1.fileType

/-- A `sys_mkdir` that returns 0 has made the directory and changed nothing else of the tree. -/
theorem sysMkdir_right (ht : DiskTree fs dirs) (hheap : fs.heap = fun _ => true)
    (hcached : ∀ o ∈ fs.part.openInodes, fs.part.inodeBitmap.bit o.inode.iNo.toNat = true)
    (hlow : ∃ i < 256, fs.part.inodeBitmap.bit i = false)
    {path : List UInt8} (hpath : PathName path) {front : List (List UInt8)} {p : UInt32}
    (hmiss : MissingAt fs (components path) front name [] p)
    (hroom : ¬ DirectFull fs.disk (diskInode fs.disk fs.part p.toNat) 12)
    (h : sysMkdir fs path = .ok (0, fs')) : ∃ n, MkdirRight fs fs' path p n := by
  have hnames := hpath.names
  have hfront : ∀ c ∈ front, FileName c := fun c hc =>
    hnames c (hmiss.split ▸ List.mem_append_left _ hc)
  have hsome : components path ≠ [] := by
    rw [hmiss.split]
    simp
  obtain ⟨l, parent, n, lba, disk, part, de, s, hm, rfl⟩ :=
    sysMkdir_making ht hheap hlow hpath hmiss h
  have hright := hm.names hmiss.unlisted hroom
  have hsteps := hm.entered.steps rfl hm.finalSb hright
  have htree := hm.settled.treeOk hm.entered (hm.newDirs hcached) hsteps
  have hnew : (UInt32.ofNat n).toNat = n := hm.newToNat
  refine ⟨.ofNat n, ?_, ?_, ?_, ?_, ?_⟩
  · rw [hnew]
    exact hm.free
  · have hwalk := hm.settled.walk hm.entered hright hfront rfl hmiss.leads
    rw [← hmiss.split] at hwalk
    exact searchFile_walk htree hheap hpath.absolute hpath.fits hpath.short hsome hwalk
  · rw [hm.finalInode, hnew]
    exact hm.newDot
  · refine getParentDirInodeNr_eq htree hheap (.inr hnew) (ht.small _ hm.isDir) ?_ ?_
    · rw [hm.finalInode, hnew, hm.newSector, hm.finalSb]
      exact UInt32.le_iff_toNat_le.mpr hm.claimed.block.start
    · rw [secondEntry, hm.finalInode, hnew, hm.newSector]
      exact hm.newUp rfl
  · intro q hq hqsome r hr hfound
    exact hsteps.resolves ht.toTreeOk htree hheap hheap hq hqsome hr hfound

/-! ## A directory beside `/a/b` -/

theorem belowFs_blocks : ∀ n < 3, ∀ k < 140,
    (blockAt belowFs.disk (diskInode belowFs.disk belowFs.part n) k).toNat =
      if k = 0 then 612 + n else 0 := by
  decide +kernel

theorem belowFs_noTable : ∀ n < 3,
    (diskInode belowFs.disk belowFs.part n).iSectors 12 = 0 := by
  decide +kernel

theorem belowFs_entries : ∀ n < 3,
    ∀ e ∈ entries belowFs.disk (diskInode belowFs.disk belowFs.part n),
      (e.fType = FT_UNKNOWN → e.name = []) ∧ e.name.length < MAX_FILE_NAME_LEN := by
  decide +kernel

theorem belowFs_names : ∀ n < 3,
    (((entries belowFs.disk (diskInode belowFs.disk belowFs.part n)).map (·.name)).filter
      (· ≠ [])).Nodup := by
  decide +kernel

theorem belowFs_layout : DiskLayout belowFs.part :=
  ⟨rfl, rfl, by decide, by decide, by decide, by decide, by decide,
    fun i hi _ => by
      have hi : i < 4096 := hi
      have hstart : belowFs.part.sb.dataStartLba.toNat = 612 := rfl
      unfold max_lba
      omega, rfl⟩

theorem belowFs_inUse {lba : UInt32} {n : Nat} (hn : n < 3) (h : lba.toNat = 612 + n) :
    InUse belowFs.part lba := by
  have hstart : belowFs.part.sb.dataStartLba.toNat = 612 := rfl
  have hidx : blockIdx belowFs.part lba = n := by
    unfold blockIdx
    omega
  have hbit : ∀ i < 3, belowFs.part.blockBitmap.bit i = true := by decide
  refine ⟨⟨by omega, by unfold max_lba; omega, ?_⟩, hidx ▸ hbit n hn⟩
  rw [hidx]
  exact show n < 4096 by omega

theorem belowFs_own {n : Nat} (hn : n < 3) :
    OwnBlocks belowFs.disk belowFs.part (diskInode belowFs.disk belowFs.part n) := by
  have hblocks := belowFs_blocks n hn
  have hfirst : ∀ k < 140, blockAt belowFs.disk (diskInode belowFs.disk belowFs.part n) k ≠ 0 →
      k = 0 ∧ (blockAt belowFs.disk (diskInode belowFs.disk belowFs.part n) k).toNat = 612 + n := by
    intro k hk hne
    have hb := hblocks k hk
    by_cases h0 : k = 0
    · exact ⟨h0, by rw [hb, if_pos h0]⟩
    · rw [if_neg h0] at hb
      exact absurd (UInt32.toNat_inj.mp hb) hne
  constructor
  · exact fun k hk hne => belowFs_inUse hn (hfirst k hk hne).2
  · exact fun hne => absurd (belowFs_noTable n hn) hne
  · intro k hk i hi hne he
    rw [(hfirst k hk hne).1, (hfirst i hi (he ▸ hne)).1]
  · intro k hk hne
    rwa [belowFs_noTable n hn]

theorem belowFs_has {n : Nat} (hn : n < 3) {lba : UInt32}
    (h : HasBlock belowFs.disk (diskInode belowFs.disk belowFs.part n) lba) :
    lba.toNat = 612 + n := by
  obtain ⟨hne, htable | ⟨k, hk, hb⟩⟩ := h
  · rw [belowFs_noTable n hn] at htable
    exact absurd htable hne
  · have hat := belowFs_blocks n hn k hk
    rw [hb] at hat
    by_cases h0 : k = 0
    · rwa [if_pos h0] at hat
    · rw [if_neg h0] at hat
      exact absurd (UInt32.toNat_inj.mp hat) hne

theorem belowFs_disk : DiskTree belowFs fun n => n < 3 where
  toTreeOk := belowFs_ok
  layout := belowFs_layout
  low n hn := Nat.lt_trans hn (by decide)
  ok n hn :=
    { toOwnBlocks := belowFs_own hn
      unnamed := fun e he => (belowFs_entries n hn e he).1
      short := fun e he => (belowFs_entries n hn e he).2
      once := belowFs_names n hn }
  apart n m hn hm hne lba h h' := by
    have := belowFs_has hn h
    have := belowFs_has hm h'
    omega
  marked n hn := by
    have hbits : ∀ i < 3, belowFs.part.inodeBitmap.bit i = true := by decide
    exact hbits n hn

/-- `/a/c` -/
def pathAC : List UInt8 := [47, 97, 47, 99]

theorem components_pathAC : components pathAC = [[97], [99]] := by
  have hpath : pathAC = joinPath [[97], [99]] := rfl
  rw [hpath]
  exact components_joinPath (by decide)

theorem pathAC_name : PathName pathAC :=
  ⟨rfl, by decide, by decide, by rw [components_pathAC]; decide⟩

theorem belowFs_run : ∃ fs', sysMkdir belowFs pathAC = .ok (0, fs') := by
  have hcheck : (match sysMkdir belowFs pathAC with
      | .ok (r, _) => decide (r = 0)
      | .error _ => false) = true := by
    decide +kernel
  split at hcheck
  · rename_i r fs' hrun
    exact ⟨fs', (of_decide_eq_true hcheck : r = 0) ▸ hrun⟩
  · cases hcheck

theorem belowFs_missing : MissingAt belowFs (components pathAC) [[97]] [99] [] 1 where
  split := components_pathAC
  leads := belowFs_a.walk
  unlisted := by decide +kernel

theorem belowFs_cached : ∀ o ∈ belowFs.part.openInodes,
    belowFs.part.inodeBitmap.bit o.inode.iNo.toNat = true := by
  intro o ho
  rw [List.mem_singleton.mp ho]
  decide

theorem belowFs_oneBlock : (diskInode belowFs.disk belowFs.part 1).iSectors 1 = 0 := by
  decide +kernel

/-- There is room for an entry in `/a`. -/
theorem belowFs_spare : ¬ DirectFull belowFs.disk (diskInode belowFs.disk belowFs.part 1) 12 :=
  fun hfull => (hfull 1 (by decide)).1 belowFs_oneBlock

theorem sysMkdir_right_beside : ∃ fs' n, sysMkdir belowFs pathAC = .ok (0, fs') ∧
    MkdirRight belowFs fs' pathAC 1 n := by
  obtain ⟨fs', hrun⟩ := belowFs_run
  obtain ⟨n, hn⟩ := sysMkdir_right belowFs_disk rfl belowFs_cached ⟨3, by decide, by decide⟩
    pathAC_name belowFs_missing belowFs_spare hrun
  exact ⟨fs', n, hrun, hn⟩

end ZhuOS
