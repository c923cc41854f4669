import ZhuOS.DirRoom
import ZhuOS.FileRuns
import ZhuOS.Releases

/-!
# The file that `sys_open` creates

A number, an entry in the parent directory, the records of the two inodes, and a descriptor
through which the file is open.
-/

namespace ZhuOS

open ByteMem

set_option maxRecDepth 2000

variable {fs : Fs} {dirs : Nat → Prop} {dir : Dir} {parent nd : Inode} {name : List UInt8}
  {n p i fd ref : Nat} {de : DirEntry} {s : NodeState} {l l' : List OpenInode} {path : List UInt8}
  {flag : UInt8} {o : OpenInode}

/-! ## The name -/

/-- Behind the last slash of a path that does not end in one lies the last component. -/
theorem lastName_eq {front : List (List UInt8)} (hslash : path.head? = some slash)
    (hend : path.getLast? ≠ some slash) (hcomps : components path = front ++ [name]) :
    lastName path = name := by
  have hin : slash ∈ path := List.mem_of_mem_head? hslash
  have hsplit := List.takeWhile_append_dropWhile (p := fun b : UInt8 => decide (b ≠ slash))
    (l := path.reverse)
  have hword : slash ∉ lastName path := by
    rw [lastName, List.mem_reverse]
    exact slash_not_mem path.reverse
  obtain hnone | ⟨rest, hrest⟩ := dropWord path.reverse
  · rw [hnone, List.append_nil] at hsplit
    exact absurd (List.mem_reverse.mpr hin) (hsplit ▸ slash_not_mem path.reverse)
  · have hpath : path = rest.reverse ++ slash :: lastName path := by
      rw [hrest] at hsplit
      have hback := congrArg List.reverse hsplit
      rw [List.reverse_reverse, List.reverse_append, List.reverse_cons, List.append_assoc] at hback
      exact hback.symm
    have hne : lastName path ≠ [] := by
      intro hnil
      rw [hnil] at hpath
      rw [hpath, List.getLast?_append] at hend
      exact hend rfl
    have hsame : components rest.reverse ++ [lastName path] = front ++ [name] := by
      rw [← hcomps, ← components_word hword hne]
      conv_rhs => rw [hpath]
      simp only [components, List.splitOn_append_cons_self, List.filter_append]
    exact (List.cons.inj (List.append_inj_right' hsame rfl)).1

/-! ## A directory is closed while a new inode is open -/

/-- An inode at another address stays where it is. -/
theorem dirClose_cons (h : dirClose (fs.setOpenInodes l) dir = .ok (fs.setOpenInodes l'))
    (ho : o.ref ≠ dir.inode) :
    dirClose (fs.setOpenInodes (o :: l)) dir = .ok (fs.setOpenInodes (o :: l')) := by
  by_cases hroot : dir.isRoot = true
  · rw [dirClose, if_pos hroot] at h ⊢
    have hlist : l = l' := congrArg (·.part.openInodes) (Except.ok.inj h)
    exact congrArg (fun l => Except.ok (fs.setOpenInodes (o :: l))) hlist
  · rw [dirClose, if_neg hroot] at h ⊢
    obtain ⟨nd, hat, h⟩ := bind_ok.mp h
    have hat' : (fs.setOpenInodes (o :: l)).inodeAt dir.inode = .ok nd := by
      have hfind : (o :: l).find? (·.ref = dir.inode) = l.find? (·.ref = dir.inode) :=
        List.find?_cons_of_neg (by simpa using ho)
      have hopen : (fs.setOpenInodes (o :: l)).part.openInodes = o :: l := rfl
      rw [Fs.inodeAt, hopen, hfind]
      exact hat
    simp only [inodeClose, hat', ok_bind]
    by_cases hlast : nd.iOpenCnts - 1 = 0
    · rw [if_pos hlast] at h ⊢
      have hlist : l.filter (·.ref ≠ dir.inode) = l' :=
        congrArg (·.part.openInodes) (Except.ok.inj h)
      have hcons : (o :: l).filter (·.ref ≠ dir.inode) = o :: l' := by
        rw [List.filter_cons_of_pos (by simpa using ho), hlist]
      rw [← hcons]
      rfl
    · rw [if_neg hlast] at h ⊢
      have hlist : setInode dir.inode { nd with iOpenCnts := nd.iOpenCnts - 1 } l = l' :=
        congrArg (·.part.openInodes) (Except.ok.inj h)
      have hcons : setInode dir.inode { nd with iOpenCnts := nd.iOpenCnts - 1 } (o :: l) =
          o :: l' := by
        rw [← hlist, setInode, List.map_cons, if_neg ho]
        rfl
      rw [← hcons]
      rfl

/-! ## `file_create` -/

/-- The files with the new one, open at the address `ref`; the others that are open are `l`. -/
def createdFs (fs : Fs) (flag : UInt8) (l : List OpenInode) (s : NodeState) (n i fd ref : Nat) :
    Fs :=
  { fs with
    disk := recordedDisk s (inodeInit (.ofNat n)) n
    part := { s.part with
      openInodes := ⟨ref, { inodeInit (.ofNat n) with iOpenCnts := 1 }⟩ :: l }
    fileTable := Function.update fs.fileTable i ⟨0, flag.toUInt32, some ref⟩
    fdTable := Function.update fs.fdTable fd (some i) }

/-- There are a number, an entry of the file table, a descriptor and a block. -/
structure CreateRoom (fs : Fs) : Prop where
  number : ∃ i < 256, i < fs.part.inodeBitmap.size ∧ fs.part.inodeBitmap.bit i = false
  slot : ∃ i, 3 ≤ i ∧ i < MAX_FILE_OPEN ∧ (fs.fileTable i).fdInode = none
  descriptor : ∃ fd, 3 ≤ fd ∧ fd < MAX_FILES_OPEN_PER_PROC ∧ fs.fdTable fd = none
  block : 0 < fs.part.blockBitmap.free.card

theorem CreateRoom.freeSlot (h : CreateRoom fs) :
    ∃ i, getFreeSlotInGlobal fs.fileTable = some i := by
  obtain ⟨i, hlo, hhi, hfree⟩ := h.slot
  apply Option.isSome_iff_exists.mp
  apply List.find?_isSome.mpr
  exact ⟨i, List.mem_range'_1.mpr ⟨hlo, by unfold MAX_FILE_OPEN at *; omega⟩, by simpa using hfree⟩

theorem CreateRoom.installs (h : CreateRoom fs) (i : Nat) :
    ∃ fd, 3 ≤ fd ∧ fd < MAX_FILES_OPEN_PER_PROC ∧ fs.fdTable fd = none ∧
      ∀ fs' : Fs, fs'.fdTable = fs.fdTable → pcbFdInstall fs' i =
        ((fd : Int), { fs' with fdTable := Function.update fs.fdTable fd (some i) }) := by
  have hsome : ((List.range' 3 (MAX_FILES_OPEN_PER_PROC - 3)).find?
      fun fd => fs.fdTable fd = none).isSome := by
    obtain ⟨fd, hlo, hhi, hfree⟩ := h.descriptor
    apply List.find?_isSome.mpr
    exact ⟨fd, List.mem_range'_1.mpr ⟨hlo, by unfold MAX_FILES_OPEN_PER_PROC at *; omega⟩,
      by simpa using hfree⟩
  obtain ⟨fd, hfd⟩ := Option.isSome_iff_exists.mp hsome
  obtain ⟨hlo, hhi⟩ := List.mem_range'_1.mp (List.mem_of_find?_eq_some hfd)
  have hfree := List.find?_some hfd
  refine ⟨fd, hlo, hhi, of_decide_eq_true hfree, fun fs' hsame => ?_⟩
  simp only [pcbFdInstall, hsame, hfd]

theorem createBegin_made (hheap : fs.heap = fun _ => true) (hroom : CreateRoom fs) :
    ∃ n i, n < 256 ∧ n < fs.part.inodeBitmap.size ∧ fs.part.inodeBitmap.bit n = false ∧
      3 ≤ i ∧ i < MAX_FILE_OPEN ∧ (fs.fileTable i).fdInode = none ∧
      createBegin fs flag = .ok (some ⟨n, i, freshRef fs.part.openInodes⟩,
        { fs with part := fs.part.setNumber n }.setSlot i
          ⟨0, flag.toUInt32, some (freshRef fs.part.openInodes)⟩) := by
  obtain ⟨m, hm, hin, hclear⟩ := hroom.number
  obtain ⟨n, hn, halloc⟩ := inodeBitmapAlloc_total ⟨m, hin, hclear⟩
  obtain ⟨-, hfree, -⟩ := inodeBitmapAlloc_ok halloc
  have hlow : n < 256 := by
    by_contra hge
    rw [inodeBitmapAlloc_first halloc m (by omega)] at hclear
    cases hclear
  obtain ⟨i, hslot⟩ := hroom.freeSlot
  obtain ⟨hlo, hhi, hnone, -⟩ := getFreeSlot_some hslot
  have hheap' : ({ fs with part := fs.part.setNumber n } : Fs).heap = fun _ => true := hheap
  refine ⟨n, i, hlow, hn, hfree, hlo, hhi, hnone, ?_⟩
  simp only [createBegin, Fs.askMalloc_found hheap (by decide : 0 < 1024), not_true, ↓reduceIte,
    halloc, ok_bind, Fs.askMalloc_found hheap' (by decide : 0 < SIZEOF_INODE), hslot]
  rfl

/-- The entry is inserted, and the records and the bit go to the disk. -/
theorem createSync_made {c : Creating} (hl : DiskLayout fs.part)
    (hin : c.inodeNo < fs.part.inodeBitmap.size) (hat : fs.inodeAt dir.inode = .ok parent)
    (hde : createDirEntry name (.ofNat c.inodeNo) FT_REGULAR = .ok de)
    (hsync : syncDirEntry ⟨fs.disk, fs.part, parent⟩ de (fun _ => 0) = .ok (true, s))
    (hins : Inserted ⟨fs.disk, fs.part, parent⟩ de s) :
    createSync fs dir name c = .ok (true, { fs with
      disk := recordedDisk s (inodeInit (.ofNat c.inodeNo)) c.inodeNo
      part := { s.part with
        openInodes := ⟨c.ref, { inodeInit (.ofNat c.inodeNo) with iOpenCnts := 1 }⟩ ::
          setInode dir.inode s.inode fs.part.openInodes } }) := by
  have hl' : DiskLayout (fs.setNode dir.inode s).part := (hins.layout hl).relist _
  have honly : BlocksOnly fs.part s.part := hins.only
  have hmap : c.inodeNo < (fs.setNode dir.inode s).part.inodeBitmap.size := by
    change c.inodeNo < s.part.inodeBitmap.size
    rw [honly.inodeBitmap]
    exact hin
  simp only [createSync, hde, ok_bind, hat, hsync, not_true, ↓reduceIte, inodeSync_eq hl'.fits,
    bitmapSync_inode hl' hmap]
  rw [← honly.openInodes]
  rfl

/-- What `file_create` has made in a directory that is open at the inode `parent`: the number `n`
with the entry `de`, which has left `s`, the entry `i` of the file table and the descriptor `fd`. -/
structure FileMade (fs : Fs) (parent : Inode) (name : List UInt8) (n i fd : Nat) (de : DirEntry)
    (s : NodeState) : Prop where
  low : n < 256
  inMap : n < fs.part.inodeBitmap.size
  free : fs.part.inodeBitmap.bit n = false
  entry : createDirEntry name (.ofNat n) FT_REGULAR = .ok de
  inserted : Inserted ⟨fs.disk, fs.part.setNumber n, parent⟩ de s
  slotLow : 3 ≤ i
  slotIn : i < MAX_FILE_OPEN
  slotFree : (fs.fileTable i).fdInode = none
  fdLow : 3 ≤ fd
  fdIn : fd < MAX_FILES_OPEN_PER_PROC
  fdFree : fs.fdTable fd = none

/-- With the parent directory open and room for the file it is made. -/
theorem fileCreate_made (hl : DiskLayout fs.part) (hheap : fs.heap = fun _ => true)
    (hroom : CreateRoom fs) (hat : fs.inodeAt dir.inode = .ok parent)
    (hown : OwnBlocks fs.disk fs.part parent) (hsize : parent.iSize.toNat % 24 = 0)
    (hfull : ¬ DirectFull fs.disk parent 12) (hname : name.length ≤ MAX_FILE_NAME_LEN) :
    ∃ n i fd de s, FileMade fs parent name n i fd de s ∧
      fileCreate fs dir name flag = .ok ((fd : Int), createdFs fs flag
        (setInode dir.inode s.inode fs.part.openInodes) s n i fd
        (freshRef fs.part.openInodes)) := by
  obtain ⟨n, i, hlow, hin, hfree, hlo, hhi, hnone, hbegin⟩ :=
    @createBegin_made fs flag hheap hroom
  obtain ⟨fd, hfdlo, hfdhi, hfdfree, hinstall⟩ := hroom.installs i
  obtain ⟨de, hde⟩ : ∃ de, createDirEntry name (.ofNat n) FT_REGULAR = .ok de := by
    simp only [createDirEntry, ASSERT_true hname, ok_bind]
    exact ⟨_, rfl⟩
  have hl₀ : DiskLayout (NodeState.mk fs.disk (fs.part.setNumber n) parent).part := hl.setNumber n
  obtain ⟨s, hsync⟩ := @syncDirEntry_room ⟨fs.disk, fs.part.setNumber n, parent⟩ de hl₀
    hroom.block hown.readable.direct hsize hfull fun _ => 0
  have hins := syncDirEntry_inserted hl₀ hown.readable.direct hsync
  refine ⟨n, i, fd, de, s,
    ⟨hlow, hin, hfree, hde, hins, hlo, hhi, hnone, hfdlo, hfdhi, hfdfree⟩, ?_⟩
  have hsynced := @createSync_made ({ fs with part := fs.part.setNumber n }.setSlot i
    ⟨0, flag.toUInt32, some (freshRef fs.part.openInodes)⟩) dir parent name de s
    ⟨n, i, freshRef fs.part.openInodes⟩ (hl.setNumber n) hin hat hde hsync hins
  simp only [fileCreate, hbegin, ok_bind, hsynced]
  simp only [createEnd, ↓reduceIte]
  refine congrArg Except.ok ((hinstall _ ?_).trans ?_)
  · rfl
  · rfl

/-! ## `sys_open` -/

/-- Where a component is missing the search leaves no type. -/
theorem Stop.unknown {no last : UInt32} {pre : List UInt8} {comps : List (List UInt8)}
    {r : UInt32 × PathSearchRecord × Fs} (h : Stop fs no last pre comps r) (hsome : comps ≠ [])
    (hminus : r.1 = -1) : r.2.1.fileType = FT_UNKNOWN := by
  cases h with
  | missing => rfl
  | file front rest name p e dir l nd hsplit hwalk hat hlookup htype hsmall =>
    exact absurd hminus (ne_minusOne hsmall)
  | directory p parent dir l nd hwalk hsmall hat =>
    rw [if_neg hsome] at hminus
    exact absurd hminus (ne_minusOne hsmall)

/-- What was open before is open with a directory. -/
theorem DirAt.keeps (h : DirAt fs n dir l nd) (ho : o ∈ fs.part.openInodes) :
    o.ref ∈ l.map (·.ref) := by
  have hclose := h.close_same
  by_cases hroot : dir.isRoot = true
  · rw [dirClose, if_pos hroot] at hclose
    have hlist : l = fs.part.openInodes := congrArg (·.part.openInodes) (Except.ok.inj hclose)
    exact hlist ▸ List.mem_map_of_mem ho
  · rw [dirClose, if_neg hroot] at hclose
    simp only [inodeClose, h.inodeAt, ok_bind] at hclose
    by_cases hlast : nd.iOpenCnts - 1 = 0
    · rw [if_pos hlast] at hclose
      have hlist : l.filter (·.ref ≠ dir.inode) = fs.part.openInodes :=
        congrArg (·.part.openInodes) (Except.ok.inj hclose)
      rw [← hlist] at ho
      exact List.mem_map_of_mem (List.mem_filter.mp ho).1
    · rw [if_neg hlast] at hclose
      have hlist : ZhuOS.setInode dir.inode { nd with iOpenCnts := nd.iOpenCnts - 1 } l =
          fs.part.openInodes := congrArg (·.part.openInodes) (Except.ok.inj hclose)
      rw [← setInode_refs dir.inode { nd with iOpenCnts := nd.iOpenCnts - 1 } l, hlist]
      exact List.mem_map_of_mem ho

/-- With room for it a file is made whose name alone is missing. -/
theorem sysOpen_creates (ht : FileTree fs dirs) (hheap : fs.heap = fun _ => true)
    (hroom : CreateRoom fs) (hpath : PathName path) (hend : path.getLast? ≠ some slash)
    {front : List (List UInt8)} {p : UInt32}
    (hmiss : MissingAt fs (components path) front name [] p)
    (hfull : ¬ DirectFull fs.disk (diskInode fs.disk fs.part p.toNat) 12) :
    ∃ l parent n i fd de s, dirs p.toNat ∧
      Inode.SameStored parent (diskInode fs.disk fs.part p.toNat) ∧
      FileMade (fs.setOpenInodes l) parent name n i fd de s ∧
      (∀ o ∈ fs.part.openInodes, o.ref ≠ freshRef l) ∧
      sysOpen fs path (O_CREAT ||| O_RDWR) = .ok ((fd : Int),
        createdFs fs (O_CREAT ||| O_RDWR) (refresh p.toNat s.inode fs.part.openInodes) s n i fd
          (freshRef l)) := by
  have hmem : ∀ c ∈ front ++ [name], c ∈ components path := fun c hc => hmiss.split ▸ hc
  have hroot : dirs (0 : UInt32).toNat := ht.root
  have hp : dirs p.toNat := ht.leads hroot
    (fun c hc => mem_components (hmem c (List.mem_append_left _ hc))) hmiss.leads
  have hsome : components path ≠ [] := by
    rw [hmiss.split]
    simp
  obtain ⟨record, fs₁, hsearch, hstop, hstops⟩ := hmiss.searched ht.toTreeOk hheap hpath
  have htype : record.fileType = FT_UNKNOWN := hstop.unknown hsome rfl
  obtain ⟨l, parent, hfs₁, hat⟩ := hstops.parentOpen
  obtain rfl : fs₁ = fs.setOpenInodes l := hfs₁
  obtain ⟨searched, wanted, hsearched, hwanted, hdepth⟩ := hstops.depths (fs.junk 0) (fs.junk 0)
  obtain rfl := hdepth.mpr rfl
  have hmoved : Moved fs.disk (diskInode fs.disk fs.part p.toNat) fs.disk parent :=
    ⟨hat.stored.iSectors, fun _ _ _ _ _ => rfl⟩
  have hown : OwnBlocks (fs.setOpenInodes l).disk (fs.setOpenInodes l).part parent :=
    hmoved.own (fun a ha => ha.relist l) (ht.ok _ hp).toOwnBlocks
  have hroom' : CreateRoom (fs.setOpenInodes l) :=
    ⟨hroom.number, hroom.slot, hroom.descriptor, hroom.block⟩
  obtain ⟨n, i, fd, de, s, hmade, hcreate⟩ := @fileCreate_made (fs.setOpenInodes l) record.parentDir
    parent name (O_CREAT ||| O_RDWR) (ht.layout.relist l) hheap hroom' hat.inodeAt hown
    (hat.stored.iSize ▸ ht.whole _ hp)
    (fun h => hfull ((hmoved.directFull (Nat.le_refl 12)).mp h))
    (hpath.short name (hmem name (by simp))).le
  have hfresh : ∀ o ∈ l, o.ref ≠ freshRef l := fun o ho => Nat.ne_of_lt (freshRef_not_mem l o ho)
  refine ⟨l, parent, n, i, fd, de, s, hp, hat.stored, hmade, ?_, ?_⟩
  · intro o ho href
    obtain ⟨o', ho', hsame⟩ := List.mem_map.mp (hat.keeps ho)
    exact hfresh o' ho' (hsame.trans href)
  · have hname : lastName path = name := lastName_eq hpath.absolute hend hmiss.split
    obtain ⟨hno, hcnt⟩ := hmade.inserted.sameHandle
    have hclose : dirClose ((createdFs (fs.setOpenInodes l) (O_CREAT ||| O_RDWR)
        (setInode record.parentDir.inode s.inode l) s n i fd (freshRef l)).setOpenInodes
          (setInode record.parentDir.inode s.inode l)) record.parentDir = _ :=
      hat.close _ s.inode hno hcnt rfl
    have hdir : freshRef l ≠ record.parentDir.inode := by
      have hlisted := List.mem_of_find?_eq_some hat.node
      exact fun he => hfresh _ hlisted he.symm
    have hclosed := dirClose_cons (o := ⟨freshRef l,
      { inodeInit (.ofNat n) with iOpenCnts := 1 }⟩) hclose hdir
    have hnot : ¬ FT_UNKNOWN = FT_DIRECTORY := by decide
    have hflags : O_CREAT ||| O_RDWR ≤ 7 := by decide
    have hcreat : ¬ ((O_CREAT ||| O_RDWR) &&& O_CREAT = 0) := by decide
    have hjunk : (fs.setOpenInodes l).junk = fs.junk := rfl
    simp only [sysOpen, if_neg hend, ASSERT_true hflags, ok_bind, hwanted, hsearch, htype,
      if_neg hnot, hjunk, hsearched, ne_eq, not_true, ↓reduceIte, hcreat, and_false, false_and,
      not_false_eq_true, hname, hcreate]
    exact congrArg (· >>= fun fs => .ok ((fd : Int), fs)) hclosed

/-! ## The new file in its tree -/

theorem FileMade.entering {p : Nat} (h : FileMade (fs.setOpenInodes l) parent name n i fd de s)
    (ht : DiskTree fs dirs) (hp : dirs p)
    (hstored : Inode.SameStored parent (diskInode fs.disk fs.part p)) :
    Entering fs dirs p n ⟨fs.disk, (fs.setOpenInodes l).part.setNumber n, parent⟩ de s
      (inodeInit (.ofNat n)) where
  tree := ht
  isDir := hp
  inMap := h.inMap
  free := h.free
  low := h.low
  number := rfl
  startSb := rfl
  startMap := rfl
  startLayout := (ht.layout.relist l).setNumber n
  startKeeps _ ha := (ha.relist l).setNumber n
  startSame _ _ _ _ _ := rfl
  startTables _ _ _ := rfl
  stored := hstored
  inserted := h.inserted

/-- The file is empty and open. -/
theorem Entering.newFile {p : Nat} {s₀ : NodeState}
    (h : Entering fs dirs p n s₀ de s (inodeInit (.ofNat n))) (i fd ref : Nat) :
    NewFile (createdFs fs flag l s n i fd ref) ref
      { inodeInit (.ofNat n) with iOpenCnts := 1 } where
  inode := inodeAt_head (createdFs fs flag l s n i fd ref) ref _ l
  iSize := rfl
  iSectors _ _ := rfl
  record := by
    have hrecord := h.records.newRecord
    have hno : (UInt32.ofNat n).toNat % 2 ^ 8 = n := h.newNo
    change Inode.SameStored (diskInode _ _ ((UInt32.ofNat n).toNat % 2 ^ 8)) _
    rw [hno]
    exact ⟨hrecord.iNo, hrecord.iSize, hrecord.iSectors⟩

end ZhuOS
