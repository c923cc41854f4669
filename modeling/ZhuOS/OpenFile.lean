import ZhuOS.File
import ZhuOS.Search

/-!
# `fs/file.c` and `fs/fs.c`: opening, creating and closing files

A descriptor is an index of the process's `fd_table`, which holds an index of the
`file_table` all processes share; an entry of that is free while its `fd_inode` is
`NULL`.
-/

namespace ZhuOS

open ByteMem

def O_RDONLY : UInt8 := 0
def O_WRONLY : UInt8 := 1
def O_RDWR : UInt8 := 2
def O_CREAT : UInt8 := 4

/-- `get_free_slot_in_global`; the first three are the standard streams. -/
def getFreeSlotInGlobal (fileTable : Nat → File) : Option Nat :=
  (List.range' 3 (MAX_FILE_OPEN - 3)).find? fun fdIdx => (fileTable fdIdx).fdInode = none

/-- `pcb_fd_install` in the running thread's `fd_table`. -/
def pcbFdInstall (fs : Fs) (globalFdIdx : Nat) : Int × Fs :=
  match (List.range' 3 (MAX_FILES_OPEN_PER_PROC - 3)).find? fun fd => fs.fdTable fd = none with
  | some fd => (fd, { fs with fdTable := Function.update fs.fdTable fd (some globalFdIdx) })
  | none => (-1, fs)

def Fs.setSlot (fs : Fs) (fdIdx : Nat) (file : File) : Fs :=
  { fs with fileTable := Function.update fs.fileTable fdIdx file }

/-! ## `file_create` -/

/-- The end of a rollback: the number is free again. -/
def rollback (fs : Fs) (inodeNo : Nat) : Int × Fs :=
  (-1, { fs with part :=
    { fs.part with inodeBitmap := bitmapSet fs.part.inodeBitmap inodeNo false } })

/-- What `file_create` has when it has marked its entry of the file table. -/
structure Creating where
  inodeNo : Nat
  fdIdx : Nat
  /-- the address of the new inode -/
  ref : Nat

/-- Up to the entry of the file table; the state alone where it ends with -1. -/
def createBegin (fs : Fs) (flag : UInt8) : Except Fault (Option Creating × Fs) := do
  let (ioBuf, fs) := fs.askMalloc 1024
  if ¬ ioBuf then return (none, fs)
  let (inodeNo, part) ← inodeBitmapAlloc fs.part
  let fs := { fs with part }
  match inodeNo with
  | none => return (none, fs)
  | some inodeNo =>
    let (newFileInode, fs) := fs.askMalloc SIZEOF_INODE
    if ¬ newFileInode then return (none, (rollback fs inodeNo).2)
    match getFreeSlotInGlobal fs.fileTable with
    | none => return (none, (rollback fs inodeNo).2)
    | some fdIdx =>
      let ref := freshRef fs.part.openInodes
      return (some ⟨inodeNo, fdIdx, ref⟩, fs.setSlot fdIdx ⟨0, flag.toUInt32, some ref⟩)

/-- The entry in the parent directory, and what goes to the disk. -/
def createSync (fs : Fs) (parentDir : Dir) (filename : List UInt8) (c : Creating) :
    Except Fault (Bool × Fs) := do
  let newFileInode := inodeInit (.ofNat c.inodeNo)
  let newDirEntry ← createDirEntry filename (.ofNat c.inodeNo) FT_REGULAR
  let parent ← fs.inodeAt parentDir.inode
  let (synced, s) ← syncDirEntry ⟨fs.disk, fs.part, parent⟩ newDirEntry fun _ => 0
  let fs := fs.setNode parentDir.inode s
  if ¬ synced then return (false, fs)
  let disk ← inodeSync fs.disk fs.part s.inode fun _ => 0
  let disk ← inodeSync disk fs.part newFileInode fun _ => 0
  let disk ← bitmapSync disk fs.part c.inodeNo .INODE_BITMAP
  return (true, { fs with disk }.setOpenInodes
    (⟨c.ref, { newFileInode with iOpenCnts := 1 }⟩ :: fs.part.openInodes))

/-- `pcb_fd_install`, or the rollback of the entry and the number. -/
def createEnd (fs : Fs) (c : Creating) (synced : Bool) : Int × Fs :=
  if synced then pcbFdInstall fs c.fdIdx
  else rollback (fs.setSlot c.fdIdx ⟨0, 0, none⟩) c.inodeNo

/-- `file_create`: the descriptor, or -1. -/
def fileCreate (fs : Fs) (parentDir : Dir) (filename : List UInt8) (flag : UInt8) :
    Except Fault (Int × Fs) := do
  let (begun, fs) ← createBegin fs flag
  match begun with
  | none => return (-1, fs)
  | some c =>
    let (synced, fs) ← createSync fs parentDir filename c
    return createEnd fs c synced

/-! ## `file_open` and `file_close` -/

/-- A flag that lets a process write. -/
def writes (flag : UInt32) : Prop :=
  flag &&& O_WRONLY.toUInt32 ≠ 0 ∨ flag &&& O_RDWR.toUInt32 ≠ 0

instance (flag : UInt32) : Decidable (writes flag) := inferInstanceAs (Decidable (_ ∨ _))

/-- `file_open` once it has the inode. -/
def openEnd (fs : Fs) (fdIdx ref : Nat) (flag : UInt8) : Except Fault (Int × Fs) := do
  let fs := fs.setSlot fdIdx ⟨0, flag.toUInt32, some ref⟩
  let nd ← fs.inodeAt ref
  if writes flag.toUInt32 then
    if nd.writeDeny then return (-1, fs)
    else return pcbFdInstall (fs.setInode ref { nd with writeDeny := true }) fdIdx
  else return pcbFdInstall fs fdIdx

def fileOpen (fs : Fs) (inodeNo : Nat) (flag : UInt8) : Except Fault (Int × Fs) :=
  match getFreeSlotInGlobal fs.fileTable with
  | none => return (-1, fs)
  | some fdIdx => do
    let (ref, fs) ← inodeOpen fs inodeNo
    openEnd fs fdIdx ref flag

/-- `file_close` on an entry of the file table. -/
def fileClose (fs : Fs) (fdIdx : Nat) : Except Fault (Int × Fs) := do
  let file := fs.fileTable fdIdx
  match file.fdInode with
  | none => .error .badAddress
  | some ref =>
    let nd ← fs.inodeAt ref
    let fs ← inodeClose (fs.setInode ref { nd with writeDeny := false }) ref
    return (0, fs.setSlot fdIdx { file with fdInode := none })

/-! ## The calls -/

/-- The rest of `pathname` behind its last slash: `strrchr(pathname, '/') + 1`. -/
def lastName (pathname : List UInt8) : List UInt8 :=
  (pathname.reverse.takeWhile (· ≠ slash)).reverse

/-- `sys_open`: the descriptor, or -1. -/
def sysOpen (fs : Fs) (pathname : List UInt8) (flags : UInt8) : Except Fault (Int × Fs) :=
  if pathname.getLast? = some slash then return (-1, fs)
  else do
    ASSERT (flags ≤ 7)
    let pathnameDepth ← pathDepthCnt (fs.junk 0) pathname
    let (inodeNo, record, fs) ← searchFile fs pathname
    let found := inodeNo ≠ -1
    if record.fileType = FT_DIRECTORY then
      return (-1, ← dirClose fs record.parentDir)
    let pathSearchedDepth ← pathDepthCnt (fs.junk 0) record.searchedPath
    if pathnameDepth ≠ pathSearchedDepth then return (-1, fs)
    if ¬ found ∧ flags &&& O_CREAT = 0 then return (-1, ← dirClose fs record.parentDir)
    else if found ∧ flags &&& O_CREAT ≠ 0 then return (-1, ← dirClose fs record.parentDir)
    else if flags &&& O_CREAT ≠ 0 then
      let (fd, fs) ← fileCreate fs record.parentDir (lastName pathname) flags
      return (fd, ← dirClose fs record.parentDir)
    else fileOpen fs inodeNo.toNat flags

/-- `fd_local2global`. -/
def fdLocal2global (fs : Fs) (localFd : Nat) : Except Fault Nat :=
  if MAX_FILES_OPEN_PER_PROC ≤ localFd then .error .outOfBounds
  else match fs.fdTable localFd with
    | none => .error .panic
    | some globalFd => do
      ASSERT (globalFd < MAX_FILE_OPEN)
      return globalFd

/-- `sys_close`; the standard streams stay open. -/
def sysClose (fs : Fs) (fd : Nat) : Except Fault (Int × Fs) :=
  if 2 < fd then do
    let globalFd ← fdLocal2global fs fd
    let (ret, fs) ← fileClose fs globalFd
    return (ret, { fs with fdTable := Function.update fs.fdTable fd none })
  else return (-1, fs)

/-- `sys_write` to a file. -/
def sysWrite (fs : Fs) (fd : Nat) (buf : Bytes) (count : UInt32) : Except Fault (Int × Fs) := do
  let globalFd ← fdLocal2global fs fd
  if writes (fs.fileTable globalFd).fdFlag then fileWrite fs globalFd buf count
  else return (-1, fs)

/-- `sys_read` from a file. -/
def sysRead (fs : Fs) (fd : Nat) (buf : Bytes) (count : UInt32) :
    Except Fault (Int × Bytes × Fs) := do
  let globalFd ← fdLocal2global fs fd
  fileRead fs globalFd buf count

/-- Several processes; the `fd_table` of each stands in for the one in `fs`. -/
structure FdWorld (π : Type) where
  fs : Fs
  fdTables : π → Nat → Option Nat

namespace FdWorld
variable {π : Type} [DecidableEq π]

/-- The state as a process sees it. -/
def load (w : FdWorld π) (p : π) : Fs := { w.fs with fdTable := w.fdTables p }

/-- The state a process leaves. -/
def store (w : FdWorld π) (p : π) (fs : Fs) : FdWorld π where
  fs := fs
  fdTables := Function.update w.fdTables p fs.fdTable

end FdWorld

/-! ## What the functions do to the tables -/

/-- The result of `pcb_fd_install` and the table behind it. -/
inductive Installs (fdTable : Nat → Option Nat) (globalFdIdx : Nat) :
    Int → (Nat → Option Nat) → Prop
  | full (h : ∀ fd, 3 ≤ fd → fd < MAX_FILES_OPEN_PER_PROC → fdTable fd ≠ none) :
    Installs fdTable globalFdIdx (-1) fdTable
  | put {fd : Nat} (hlo : 3 ≤ fd) (hhi : fd < MAX_FILES_OPEN_PER_PROC) (h : fdTable fd = none) :
    Installs fdTable globalFdIdx fd (Function.update fdTable fd (some globalFdIdx))

section
variable {fs fs' : Fs} {fdIdx ref : Nat} {r : Int} {flag : UInt8}

/-- `get_free_slot_in_global` finds the first free entry. -/
theorem getFreeSlot_some {fileTable : Nat → File}
    (h : getFreeSlotInGlobal fileTable = some fdIdx) :
    3 ≤ fdIdx ∧ fdIdx < MAX_FILE_OPEN ∧ (fileTable fdIdx).fdInode = none ∧
      ∀ i, 3 ≤ i → i < fdIdx → (fileTable i).fdInode ≠ none := by
  obtain ⟨hfree, hm, hfirst⟩ := List.find?_range'_eq_some.mp h
  obtain ⟨hlo, hhi⟩ := List.mem_range'_1.mp hm
  refine ⟨hlo, hhi, of_decide_eq_true hfree, ?_⟩
  intro i hi hlt
  simpa using hfirst i hi hlt

theorem pcbFdInstall_ok (h : pcbFdInstall fs fdIdx = (r, fs')) :
    Installs fs.fdTable fdIdx r fs'.fdTable ∧ fs' = { fs with fdTable := fs'.fdTable } := by
  unfold pcbFdInstall at h
  split at h
  · rename_i fd hfd
    cases h
    obtain ⟨hlo, hhi⟩ := List.mem_range'_1.mp (List.mem_of_find?_eq_some hfd)
    have hfree := List.find?_some hfd
    exact ⟨.put hlo hhi (of_decide_eq_true hfree), rfl⟩
  · rename_i hnone
    cases h
    refine ⟨.full ?_, rfl⟩
    intro fd hlo hhi
    have hnot := List.find?_eq_none.mp hnone fd (List.mem_range'_1.mpr ⟨hlo, hhi⟩)
    simpa using hnot

/-- The process has a new descriptor or none. -/
theorem Installs.cases {fdTable fdTable' : Nat → Option Nat}
    (h : Installs fdTable fdIdx r fdTable') : fdTable' = fdTable ∨
      ∃ fd, 3 ≤ fd ∧ fdTable fd = none ∧ fdTable' = Function.update fdTable fd (some fdIdx) := by
  cases h with
  | full _ => exact .inl rfl
  | @put fd hlo _ hfree => exact .inr ⟨fd, hlo, hfree, rfl⟩

/-- The entry is taken, and a descriptor refers to it or none does. -/
theorem openEnd_tables (h : openEnd fs fdIdx ref flag = .ok (r, fs')) :
    fs'.fileTable = Function.update fs.fileTable fdIdx ⟨0, flag.toUInt32, some ref⟩ ∧
      (r = -1 ∧ fs'.fdTable = fs.fdTable ∨ Installs fs.fdTable fdIdx r fs'.fdTable) := by
  obtain ⟨nd, -, h⟩ := bind_ok.mp h
  by_cases hw : writes flag.toUInt32
  · rw [if_pos hw] at h
    by_cases hd : nd.writeDeny = true
    · rw [if_pos hd] at h
      cases h
      exact ⟨rfl, .inl ⟨rfl, rfl⟩⟩
    · rw [if_neg hd] at h
      obtain ⟨hi, heq⟩ := pcbFdInstall_ok (Except.ok.inj h)
      rw [heq]
      exact ⟨rfl, .inr hi⟩
  · rw [if_neg hw] at h
    obtain ⟨hi, heq⟩ := pcbFdInstall_ok (Except.ok.inj h)
    rw [heq]
    exact ⟨rfl, .inr hi⟩

/-- `inode_open` leaves the tables alone. -/
theorem inodeOpen_tables {n : Nat} (h : inodeOpen fs n = .ok (ref, fs')) :
    fs'.fileTable = fs.fileTable ∧ fs'.fdTable = fs.fdTable := by
  unfold inodeOpen at h
  cases hf : fs.part.openInodes.find? (·.inode.iNo.toNat = n) with
  | some o =>
    rw [hf] at h
    cases h
    exact ⟨rfl, rfl⟩
  | none =>
    rw [hf] at h
    obtain ⟨pos, -, h⟩ := bind_ok.mp h
    obtain ⟨-, -, h⟩ := bind_ok.mp h
    obtain ⟨buf, -, h⟩ := bind_ok.mp h
    obtain ⟨-, -, h⟩ := bind_ok.mp h
    cases h
    exact ⟨rfl, rfl⟩

theorem inodeClose_tables (h : inodeClose fs ref = .ok fs') :
    fs'.fileTable = fs.fileTable ∧ fs'.fdTable = fs.fdTable := by
  obtain ⟨nd, -, h⟩ := bind_ok.mp h
  by_cases hlast : nd.iOpenCnts - 1 = 0
  · simp only [hlast, if_true] at h
    cases h
    exact ⟨rfl, rfl⟩
  · simp only [hlast, if_false] at h
    cases h
    exact ⟨rfl, rfl⟩

/-- `file_close` frees the entry, which was taken. -/
theorem fileClose_tables (h : fileClose fs fdIdx = .ok (r, fs')) :
    (fs.fileTable fdIdx).fdInode ≠ none ∧ fs'.fileTable = Function.update fs.fileTable fdIdx
      { fs.fileTable fdIdx with fdInode := none } ∧ fs'.fdTable = fs.fdTable := by
  unfold fileClose at h
  cases hf : (fs.fileTable fdIdx).fdInode with
  | none =>
    simp only [hf] at h
    cases h
  | some ref =>
    simp only [hf] at h
    obtain ⟨nd, -, h⟩ := bind_ok.mp h
    obtain ⟨fs₁, hc, h⟩ := bind_ok.mp h
    cases h
    obtain ⟨hfile, hfd⟩ := inodeClose_tables hc
    refine ⟨Option.some_ne_none ref, ?_, hfd⟩
    change Function.update fs₁.fileTable fdIdx _ = _
    rw [hfile]
    rfl

theorem fdLocal2global_ok {fd g : Nat} (h : fdLocal2global fs fd = .ok g) :
    fd < MAX_FILES_OPEN_PER_PROC ∧ fs.fdTable fd = some g ∧ g < MAX_FILE_OPEN := by
  unfold fdLocal2global at h
  by_cases hlarge : MAX_FILES_OPEN_PER_PROC ≤ fd
  · rw [if_pos hlarge] at h
    cases h
  · rw [if_neg hlarge] at h
    cases hg : fs.fdTable fd with
    | none =>
      rw [hg] at h
      cases h
    | some g =>
      rw [hg] at h
      obtain ⟨_, hlt, h⟩ := bind_ok.mp h
      cases h
      exact ⟨Nat.not_le.mp hlarge, rfl, ASSERT_ok hlt⟩

theorem sysClose_tables {fd : Nat} (h : sysClose fs fd = .ok (r, fs')) (hfd : 2 < fd) :
    ∃ i, fd < MAX_FILES_OPEN_PER_PROC ∧ fs.fdTable fd = some i ∧
      (fs.fileTable i).fdInode ≠ none ∧ fs'.fileTable = Function.update fs.fileTable i
        { fs.fileTable i with fdInode := none } ∧
      fs'.fdTable = Function.update fs.fdTable fd none := by
  rw [sysClose, if_pos hfd] at h
  obtain ⟨i, hi, h⟩ := bind_ok.mp h
  obtain ⟨⟨ret, fs₁⟩, hc, h⟩ := bind_ok.mp h
  cases h
  obtain ⟨hhi, hentry, -⟩ := fdLocal2global_ok hi
  obtain ⟨htaken, hfile, hfdt⟩ := fileClose_tables hc
  refine ⟨i, hhi, hentry, htaken, hfile, ?_⟩
  change Function.update fs₁.fdTable fd none = _
  rw [hfdt]

/-- A bit that was clear is set and cleared again. -/
theorem bitmapSet_undo {b : Bitmap} {i : Nat} (h : b.bit i = false) :
    bitmapSet (bitmapSet b i true) i false = b := by
  have hbits : (bitmapSet (bitmapSet b i true) i false).bits = b.bits := by
    funext k
    apply PackedBits.byte_ext
    intro j _
    change (bitmapSet (bitmapSet b i true) i false).bit (k * 8 + j) = b.bit (k * 8 + j)
    rw [bitmapSet_bit, bitmapSet_bit]
    by_cases he : k * 8 + j = i
    · rw [if_pos he, he, h]
    · rw [if_neg he, if_neg he]
  exact congrArg (Bitmap.mk b.btmpBytesLen) hbits

/-- `file_create` up to its entry of the file table. -/
inductive Begins (fs : Fs) (flag : UInt8) : Option Creating → Fs → Prop
  | failed (heap : Nat → Bool) : Begins fs flag none { fs with heap }
  | marked {inodeNo fdIdx : Nat} (heap : Nat → Bool) (hin : inodeNo < fs.part.inodeBitmap.size)
      (hfree : fs.part.inodeBitmap.bit inodeNo = false)
      (hslot : getFreeSlotInGlobal fs.fileTable = some fdIdx) :
    Begins fs flag (some ⟨inodeNo, fdIdx, freshRef fs.part.openInodes⟩)
      ({ fs with heap, part := { fs.part with
        inodeBitmap := bitmapSet fs.part.inodeBitmap inodeNo true } }.setSlot fdIdx
          ⟨0, flag.toUInt32, some (freshRef fs.part.openInodes)⟩)

/-- Where it fails it has put the bit back. -/
theorem createBegin_ok {begun : Option Creating} (h : createBegin fs flag = .ok (begun, fs')) :
    Begins fs flag begun fs' := by
  have hsome : ∀ {r : Option Nat × Partition}, inodeBitmapAlloc fs.part = .ok r →
      ∃ i, r = (some i, { fs.part with inodeBitmap := bitmapSet fs.part.inodeBitmap i true }) ∧
        i < fs.part.inodeBitmap.size ∧ fs.part.inodeBitmap.bit i = false := by
    intro r hr
    obtain ⟨scanned, hscan, hr⟩ := bind_ok.mp hr
    obtain ⟨i, rfl, hin, hfree⟩ := bitmapScan_one_free hscan
    cases hr
    exact ⟨i, rfl, hin, hfree⟩
  have hundo : ∀ {i : Nat} (heap : Nat → Bool), fs.part.inodeBitmap.bit i = false →
      (rollback { fs with heap, part := { fs.part with
        inodeBitmap := bitmapSet fs.part.inodeBitmap i true } } i).2 = { fs with heap } := by
    intro i heap hfree
    change { fs with heap, part := { fs.part with
      inodeBitmap := bitmapSet (bitmapSet fs.part.inodeBitmap i true) i false } } = _
    rw [bitmapSet_undo hfree]
  unfold createBegin at h
  dsimp only at h
  by_cases hbuf : (fs.askMalloc 1024).1 = true
  · rw [if_neg (not_not.mpr hbuf)] at h
    obtain ⟨r, halloc, h⟩ := bind_ok.mp h
    obtain ⟨i, rfl, hin, hfree⟩ := hsome halloc
    simp only at h
    split at h
    · cases h
      rw [Fs.askMalloc, Fs.askMalloc, hundo _ hfree]
      exact .failed _
    · cases hslot : getFreeSlotInGlobal fs.fileTable with
      | none =>
        simp only [Fs.askMalloc, hslot] at h
        cases h
        rw [hundo _ hfree]
        exact .failed _
      | some fdIdx =>
        simp only [Fs.askMalloc, hslot] at h
        cases h
        exact .marked _ hin hfree hslot
  · rw [if_pos hbuf] at h
    cases h
    exact .failed _

/-- The rest of `file_create`. -/
theorem createEnd_tables {c : Creating} (synced : Bool) (fs : Fs) :
    (synced = true ∧ (createEnd fs c synced).2.fileTable = fs.fileTable ∧
        Installs fs.fdTable c.fdIdx (createEnd fs c synced).1 (createEnd fs c synced).2.fdTable) ∨
      ((createEnd fs c synced).1 = -1 ∧
        (createEnd fs c synced).2.fileTable = Function.update fs.fileTable c.fdIdx ⟨0, 0, none⟩ ∧
        (createEnd fs c synced).2.fdTable = fs.fdTable) := by
  cases synced with
  | true =>
    left
    rw [createEnd, if_pos rfl]
    obtain ⟨hi, heq⟩ := pcbFdInstall_ok (Prod.eta (pcbFdInstall fs c.fdIdx)).symm
    have hfile := congrArg Fs.fileTable heq
    exact ⟨rfl, hfile, hi⟩
  | false => exact .inr ⟨rfl, rfl, rfl⟩

theorem createSync_tables {parentDir : Dir} {filename : List UInt8} {c : Creating} {synced : Bool}
    (h : createSync fs parentDir filename c = .ok (synced, fs')) :
    fs'.fileTable = fs.fileTable ∧ fs'.fdTable = fs.fdTable := by
  obtain ⟨de, -, h⟩ := bind_ok.mp h
  obtain ⟨parent, -, h⟩ := bind_ok.mp h
  obtain ⟨⟨done, s⟩, -, h⟩ := bind_ok.mp h
  cases done with
  | false =>
    cases h
    exact ⟨rfl, rfl⟩
  | true =>
    obtain ⟨disk, -, h⟩ := bind_ok.mp h
    obtain ⟨disk', -, h⟩ := bind_ok.mp h
    obtain ⟨disk'', -, h⟩ := bind_ok.mp h
    cases h
    exact ⟨rfl, rfl⟩

end

end ZhuOS
