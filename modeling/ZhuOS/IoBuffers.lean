import ZhuOS.DirCalls
import ZhuOS.InodeDelete
import ZhuOS.Positions

/-!
# The buffers of `inode_sync` and `inode_delete`

Both transfer the one or two sectors of a record through a buffer their caller has
asked for, and neither is told how long it is. Here the callers say it, and the transfer
can be one that checks: nothing changes in a call whose buffers are long enough.
-/

namespace ZhuOS

open ByteMem

/-- `inode_sync`, with whatever it knows of the buffer. -/
abbrev SyncFn := Bytes → Partition → Inode → Bytes → Except Fault Bytes

/-- `inode_sync` and `inode_delete` on a buffer of so many bytes. -/
structure RecordIo where
  sync : (bufLen : Nat) → SyncFn
  delete : (bufLen : Nat) → Bytes → Partition → Nat → Bytes → Except Fault Bytes

/-- What the kernel does: nobody looks at the length. -/
def unchecked : RecordIo where
  sync _ := inodeSync
  delete _ := inodeDelete

/-- The sectors of the record must go into the buffer. -/
def checkLen (bufLen : Nat) (part : Partition) (inodeNo : Nat) : Except Fault Unit := do
  let pos ← inodeLocate part inodeNo
  if bufLen < pos.secs * 512 then .error .outOfBounds else return ()

def checked : RecordIo where
  sync bufLen disk part nd ioBuf := do
    checkLen bufLen part (nd.iNo.toNat % 2 ^ 8)
    inodeSync disk part nd ioBuf
  delete bufLen disk part inodeNo ioBuf := do
    checkLen bufLen part inodeNo
    inodeDelete disk part inodeNo ioBuf

/-! ## The callers -/

/-- `file_write`: the buffer for the data serves for the record, too. -/
def writeNodeWith (sync : SyncFn) (s : NodeState) (src : Bytes) (count : UInt32) :
    Except Fault (Option WriteLoop × NodeState) := do
  let (found, s) ← firstBlock s
  if ¬ found then return (none, s)
  let fileHasUsedBlocks := s.inode.iSize.toNat / 512 + 1
  let fileWillUseBlocks := (s.inode.iSize + count).toNat / 512 + 1
  ASSERT (fileWillUseBlocks ≤ 140)
  let (found, w) ← writeBlocks s fileHasUsedBlocks fileWillUseBlocks
  if ¬ found then return (none, w.toNodeState)
  let l ← writeLoop w.allBlocks src count.toNat (count.toNat + 1) {
    disk := w.disk
    iSize := w.inode.iSize.toNat
    fdPos := (w.inode.iSize - 1).toNat
    bytesWritten := 0
    sizeLeft := count.toNat
    firstWriteBlock := true
    ioBuf := fun _ => 0 }
  let inode := { w.inode with iSize := .ofNat l.iSize }
  let disk ← sync l.disk w.part inode l.ioBuf
  return (some l, { disk, part := w.part, inode })

def fileWriteWith (io : RecordIo) (fs : Fs) (fd : Nat) (buf : Bytes) (count : UInt32) :
    Except Fault (Int × Fs) := do
  match (fs.fileTable fd).fdInode with
  | none => .error .badAddress
  | some ref =>
    let nd ← fs.inodeAt ref
    if 512 * 140 < nd.iSize + count then return (-1, fs)
    let (ioBufFound, fs) := fs.askMalloc 512
    if ¬ ioBufFound then return (-1, fs)
    let (blocksFound, fs) := fs.askMalloc (512 + 48)
    if ¬ blocksFound then return (-1, fs)
    match ← writeNodeWith (io.sync 512) ⟨fs.disk, fs.part, nd⟩ buf count with
    | (none, s) => return (-1, fs.setNode ref s)
    | (some l, s) => return (l.bytesWritten, (fs.setNode ref s).setPos fd (.ofNat l.fdPos))

def createSyncWith (sync : SyncFn) (fs : Fs) (parentDir : Dir) (filename : List UInt8)
    (c : Creating) : Except Fault (Bool × Fs) := do
  let newFileInode := inodeInit (.ofNat c.inodeNo)
  let newDirEntry ← createDirEntry filename (.ofNat c.inodeNo) FT_REGULAR
  let parent ← fs.inodeAt parentDir.inode
  let (synced, s) ← syncDirEntry ⟨fs.disk, fs.part, parent⟩ newDirEntry fun _ => 0
  let fs := fs.setNode parentDir.inode s
  if ¬ synced then return (false, fs)
  let disk ← sync fs.disk fs.part s.inode fun _ => 0
  let disk ← sync disk fs.part newFileInode fun _ => 0
  let disk ← bitmapSync disk fs.part c.inodeNo .INODE_BITMAP
  return (true, { fs with disk }.setOpenInodes
    (⟨c.ref, { newFileInode with iOpenCnts := 1 }⟩ :: fs.part.openInodes))

/-- `file_create`; `createBegin` asks for the 1024 bytes. -/
def fileCreateWith (io : RecordIo) (fs : Fs) (parentDir : Dir) (filename : List UInt8)
    (flag : UInt8) : Except Fault (Int × Fs) := do
  let (begun, fs) ← createBegin fs flag
  match begun with
  | none => return (-1, fs)
  | some c =>
    let (synced, fs) ← createSyncWith (io.sync 1024) fs parentDir filename c
    return createEnd fs c synced

def mkdirSyncWith (sync : SyncFn) (fs : Fs) (parentDir : Dir) (dirname : List UInt8)
    (inodeNo : Nat) (newDirInode : Inode) : Except Fault (Bool × Fs) := do
  let newDirEntry ← createDirEntry dirname (.ofNat inodeNo) FT_DIRECTORY
  let parent ← fs.inodeAt parentDir.inode
  let (synced, s) ← syncDirEntry ⟨fs.disk, fs.part, parent⟩ newDirEntry fun _ => 0
  let fs := fs.setNode parentDir.inode s
  if ¬ synced then return (false, fs)
  else
    let disk ← sync fs.disk fs.part s.inode fun _ => 0
    let disk ← sync disk fs.part newDirInode fun _ => 0
    let disk ← bitmapSync disk fs.part inodeNo .INODE_BITMAP
    return (true, { fs with disk })

/-- `sys_mkdir` with its buffer of `SECTOR_SIZE * 2` bytes, in the directory it has found. -/
def mkdirInWith (io : RecordIo) (fs : Fs) (parentDir : Dir) (searchedPath : List UInt8) :
    Except Fault (Int × Fs) := do
  orNull (decide (slash ∈ searchedPath))
  let (inodeNo, part) ← inodeBitmapAlloc fs.part
  let fs := { fs with part }
  match inodeNo with
  | none => return (-1, fs)
  | some inodeNo =>
    let parent ← fs.inodeAt parentDir.inode
    let (newDirInode, fs) ← mkdirBlock fs inodeNo parent.iNo
    match newDirInode with
    | none => return rollback fs inodeNo
    | some newDirInode =>
      let (synced, fs) ←
        mkdirSyncWith (io.sync 1024) fs parentDir (lastName searchedPath) inodeNo newDirInode
      if ¬ synced then return rollback fs inodeNo else return (0, fs)

def removeEntryWith (sync : SyncFn) (s : NodeState) (blocks : Nat → UInt32) (k j : Nat)
    (scan : SectorScan) (ioBuf : Bytes) : Except Fault NodeState := do
  let size := s.part.sb.dirEntrySize
  ASSERT (1 ≤ scan.dirEntryCnt)
  let s ←
    if scan.dirEntryCnt = 1 ∧ scan.isDirFirstBlock = false then do
      let (disk, part) ← freeBlock s.disk s.part (blocks k)
      if k < 12 then pure { s with disk, part, inode := s.inode.setSector k 0 }
      else .error .stuck
    else do
      let disk ← ideWrite s.disk (blocks k).toNat
        (fill ioBuf (SIZEOF_DIR_ENTRY * j) size.toNat 0) 1
      pure { s with disk }
  ASSERT (size ≤ s.inode.iSize)
  let inode := { s.inode with iSize := s.inode.iSize - size }
  let disk ← sync s.disk s.part inode (fun _ => 0)
  return { s with disk, inode }

def deleteBlocksWith (sync : SyncFn) (s : NodeState) (blocks : Nat → UInt32)
    (inodeNo perSec : Nat) : (left blockIdx : Nat) → Bytes → Except Fault (Bool × NodeState)
  | 0, _, _ => return (false, s)
  | left + 1, k, ioBuf =>
    if blocks k = 0 then deleteBlocksWith sync s blocks inodeNo perSec left (k + 1) ioBuf
    else do
      let ioBuf ← ideRead s.disk (blocks k).toNat (fill ioBuf 0 512 0) 1
      let scan ← scanSector ioBuf inodeNo perSec 0 ⟨false, 0, none⟩
      match scan.dirEntryFound with
      | none => deleteBlocksWith sync s blocks inodeNo perSec left (k + 1) ioBuf
      | some j => return (true, ← removeEntryWith sync s blocks k j scan ioBuf)

/-- `delete_dir_entry` in an open directory, with the caller's buffer. -/
def deleteEntryWith (sync : SyncFn) (fs : Fs) (dir : Dir) (inodeNo : Nat) : Except Fault Fs := do
  let nd ← fs.inodeAt dir.inode
  let s : NodeState := ⟨fs.disk, fs.part, nd⟩
  let blocks ← allBlocks s.disk s.inode
  let perSec ← dirEntrysPerSec s.part.sb
  let (_, s) ← deleteBlocksWith sync s blocks inodeNo perSec 140 0 fun _ => 0
  return fs.setNode dir.inode s

/-- `inode_release` with a buffer of its own. -/
def inodeReleaseWith (io : RecordIo) (fs : Fs) (inodeNo : Nat) : Except Fault Fs := do
  let (ref, fs) ← inodeOpen fs inodeNo
  let inodeToDel ← fs.inodeAt ref
  ASSERT (inodeToDel.iNo.toNat = inodeNo)
  let (disk, part) ← releaseNode fs.disk fs.part inodeToDel
  let part := { part with inodeBitmap := bitmapSet part.inodeBitmap inodeNo false }
  let disk ← bitmapSync disk part inodeNo .INODE_BITMAP
  let (ioBuf, fs) := { fs with disk, part }.askMalloc 1024
  orNull ioBuf
  let disk ← io.delete 1024 fs.disk fs.part inodeNo fun _ => 0
  inodeClose { fs with disk } ref

/-- `dir_remove`, which `sys_rmdir` calls. -/
def dirRemoveWith (io : RecordIo) (fs : Fs) (parentDir childDir : Dir) :
    Except Fault (Int × Fs) := do
  let child ← fs.inodeAt childDir.inode
  ASSERT (∀ blockIdx ∈ List.range' 1 12, child.iSectors blockIdx = 0)
  let (ioBuf, fs) := fs.askMalloc 1024
  if ¬ ioBuf then return (-1, fs)
  else
    let fs ← deleteEntryWith (io.sync 1024) fs parentDir child.iNo.toNat
    let fs ← inodeReleaseWith io fs child.iNo.toNat
    return (0, fs)

/-- `sys_unlink` in the directory it has found. -/
def unlinkInWith (io : RecordIo) (fs : Fs) (inodeNo : UInt32) (record : PathSearchRecord) :
    Except Fault (Int × Fs) :=
  if inodeNo = -1 ∨ record.fileType = FT_DIRECTORY then return (-1, fs)
  else do
    let inUse ← fileInUse fs inodeNo MAX_FILE_OPEN 0
    if inUse then return (-1, fs)
    else
      let (ioBuf, fs) := fs.askMalloc 1024
      if ¬ ioBuf then return (-1, fs)
      else
        let fs ← deleteEntryWith (io.sync 1024) fs record.parentDir inodeNo.toNat
        let fs ← inodeReleaseWith io fs inodeNo.toNat
        return (0, fs)

/-- The call paths that reach the two functions. -/
inductive RecordCall
  | fileWrite (fd : Nat) (buf : Bytes) (count : UInt32)
  | fileCreate (parentDir : Dir) (filename : List UInt8) (flag : UInt8)
  | mkdirIn (parentDir : Dir) (searchedPath : List UInt8)
  | unlinkIn (inodeNo : UInt32) (record : PathSearchRecord)
  | dirRemove (parentDir childDir : Dir)

def RecordCall.run (fs : Fs) : RecordCall → Except Fault (Int × Fs)
  | .fileWrite fd buf count => ZhuOS.fileWrite fs fd buf count
  | .fileCreate parentDir filename flag => ZhuOS.fileCreate fs parentDir filename flag
  | .mkdirIn parentDir searchedPath => ZhuOS.mkdirIn fs parentDir searchedPath
  | .unlinkIn inodeNo record => ZhuOS.unlinkIn fs inodeNo record
  | .dirRemove parentDir childDir => ZhuOS.dirRemove fs parentDir childDir

def RecordCall.runWith (io : RecordIo) (fs : Fs) : RecordCall → Except Fault (Int × Fs)
  | .fileWrite fd buf count => fileWriteWith io fs fd buf count
  | .fileCreate parentDir filename flag => fileCreateWith io fs parentDir filename flag
  | .mkdirIn parentDir searchedPath => mkdirInWith io fs parentDir searchedPath
  | .unlinkIn inodeNo record => unlinkInWith io fs inodeNo record
  | .dirRemove parentDir childDir => dirRemoveWith io fs parentDir childDir

/-- No transfer of the call goes past its buffer. -/
def BuffersHold (c : RecordCall) (fs : Fs) : Prop := c.runWith checked fs = c.run fs

/-- The record lies within one sector of the table. -/
def OneSector (inodeNo : Nat) : Prop := inodeNo * SIZEOF_INODE % 512 + SIZEOF_INODE ≤ 512

instance (inodeNo : Nat) : Decidable (OneSector inodeNo) := inferInstanceAs (Decidable (_ ≤ _))

/-- The buffer of `file_write` has one sector; the others have two. -/
def WritesOneSector (fs : Fs) : RecordCall → Prop
  | .fileWrite fd _ _ => ∀ ref nd, (fs.fileTable fd).fdInode = some ref → fs.inodeAt ref = .ok nd →
      OneSector (nd.iNo.toNat % 2 ^ 8)
  | _ => True

/-! ## The check -/

theorem inodeLocate_secs {part : Partition} {pos : InodePosition} {n : Nat} (hn : n < 4096)
    (h : inodeLocate part n = .ok pos) : pos.secs = if OneSector n then 1 else 2 := by
  rw [inodeLocate_eq hn] at h
  cases h
  have htwo : 512 - n * SIZEOF_INODE % 512 < SIZEOF_INODE ↔ ¬ OneSector n := by
    unfold OneSector SIZEOF_INODE
    omega
  by_cases hone : OneSector n <;> simp [InodePosition.secs, htwo, hone]

theorem checkLen_eq {part : Partition} {bufLen n : Nat} (hn : n < 4096) :
    checkLen bufLen part n =
      if bufLen < (if OneSector n then 1 else 2) * 512 then .error .outOfBounds else .ok () := by
  rw [← inodeLocate_secs hn (@inodeLocate_eq part n hn)]
  unfold checkLen
  rw [inodeLocate_eq hn]
  rfl

/-- Two sectors are enough for any record. -/
theorem checkLen_wide {part : Partition} {n : Nat} (hn : n < 4096) :
    checkLen 1024 part n = .ok () := by
  rw [checkLen_eq hn, if_neg (by split <;> omega)]

theorem checkLen_one {part : Partition} {n : Nat} (hn : n < 4096) :
    checkLen 512 part n = if OneSector n then .ok () else .error .outOfBounds := by
  rw [checkLen_eq hn]
  by_cases h : OneSector n <;> simp [h]

theorem lowByte_lt (nd : Inode) : nd.iNo.toNat % 2 ^ 8 < 4096 := by omega

theorem checked_sync_wide : checked.sync 1024 = inodeSync := by
  funext disk part nd ioBuf
  simp only [checked, checkLen_wide (lowByte_lt nd), ok_bind]

theorem checked_delete_wide : checked.delete 1024 = inodeDelete := by
  funext disk part inodeNo ioBuf
  by_cases hn : inodeNo < 4096
  · simp [checked, checkLen_wide hn]
  · simp [checked, checkLen, inodeLocate, inodeDelete, hn]

/-- Through one sector the records that fit go as ever, and the others do not go. -/
theorem checked_sync_one (disk : Bytes) (part : Partition) (nd : Inode) (ioBuf : Bytes) :
    checked.sync 512 disk part nd ioBuf =
      if OneSector (nd.iNo.toNat % 2 ^ 8) then inodeSync disk part nd ioBuf
      else .error .outOfBounds := by
  simp only [checked, checkLen_one (lowByte_lt nd)]
  split <;> rfl

/-! ## The calls with two sectors -/

theorem deleteBlocksWith_inodeSync (s : NodeState) (blocks : Nat → UInt32)
    (inodeNo perSec left k : Nat) (ioBuf : Bytes) :
    deleteBlocksWith inodeSync s blocks inodeNo perSec left k ioBuf =
      deleteBlocks s blocks inodeNo perSec left k ioBuf := by
  induction left generalizing k ioBuf with
  | zero => rfl
  | succ left ih =>
    simp only [deleteBlocksWith, deleteBlocks, ih]
    rfl

theorem deleteEntryWith_inodeSync : deleteEntryWith inodeSync = deleteEntry := by
  funext fs dir inodeNo
  simp [deleteEntryWith, deleteEntry, deleteDirEntry, deleteBlocksWith_inodeSync]

theorem inodeReleaseWith_checked : inodeReleaseWith checked = inodeRelease := by
  funext fs inodeNo
  unfold inodeReleaseWith
  rw [checked_delete_wide]
  rfl

section
variable {fs : Fs} {parentDir : Dir}

theorem fileCreateWith_checked (filename : List UInt8) (flag : UInt8) :
    fileCreateWith checked fs parentDir filename flag = fileCreate fs parentDir filename flag := by
  unfold fileCreateWith
  rw [checked_sync_wide]
  rfl

theorem mkdirInWith_checked (searchedPath : List UInt8) :
    mkdirInWith checked fs parentDir searchedPath = mkdirIn fs parentDir searchedPath := by
  unfold mkdirInWith
  rw [checked_sync_wide]
  rfl

theorem unlinkInWith_checked (inodeNo : UInt32) (record : PathSearchRecord) :
    unlinkInWith checked fs inodeNo record = unlinkIn fs inodeNo record := by
  unfold unlinkInWith
  rw [checked_sync_wide, deleteEntryWith_inodeSync, inodeReleaseWith_checked]
  rfl

theorem dirRemoveWith_checked (childDir : Dir) :
    dirRemoveWith checked fs parentDir childDir = dirRemove fs parentDir childDir := by
  unfold dirRemoveWith
  rw [checked_sync_wide, deleteEntryWith_inodeSync, inodeReleaseWith_checked]
  rfl

end

/-! ## `file_write` -/

theorem bind_congr_ok {α β : Type} {x : Except Fault α} {f g : α → Except Fault β}
    (h : ∀ a, x = .ok a → f a = g a) : x >>= f = x >>= g := by
  cases x with
  | error e => rfl
  | ok a => exact h a rfl

section
variable {fs fs' : Fs} {fd : Nat} {buf : Bytes} {count : UInt32} {r : Int}

/-- A write stores the record of the inode it has been given. -/
theorem writeNodeWith_congr {s : NodeState} {sync sync' : SyncFn}
    (h : ∀ disk part nd ioBuf, nd.iNo = s.inode.iNo →
      sync disk part nd ioBuf = sync' disk part nd ioBuf) :
    writeNodeWith sync s buf count = writeNodeWith sync' s buf count := by
  refine bind_congr_ok fun ⟨first, s₁⟩ hf => ?_
  obtain ⟨rfl, hfirst⟩ := firstBlock_sectors hf
  refine bind_congr_ok fun _ _ => bind_congr_ok fun ⟨found, w⟩ hw => ?_
  obtain ⟨rfl, hblocks⟩ := writeBlocks_sectors hw
  refine bind_congr_ok fun l _ => ?_
  simp only [h l.disk w.part { w.inode with iSize := .ofNat l.iSize } l.ioBuf
    (hfirst.trans hblocks).iNo]

theorem writeNodeWith_ok {s s' : NodeState} {sync : SyncFn} {l : WriteLoop}
    (h : writeNodeWith sync s buf count = .ok (some l, s')) : ∃ disk part nd ioBuf disk',
      sync disk part nd ioBuf = .ok disk' ∧ nd.iNo = s.inode.iNo := by
  obtain ⟨⟨first, s₁⟩, hf, h⟩ := bind_ok.mp h
  obtain ⟨rfl, hfirst⟩ := firstBlock_sectors hf
  obtain ⟨-, -, h⟩ := bind_ok.mp h
  obtain ⟨⟨found, w⟩, hw, h⟩ := bind_ok.mp h
  obtain ⟨rfl, hblocks⟩ := writeBlocks_sectors hw
  obtain ⟨l, -, h⟩ := bind_ok.mp h
  obtain ⟨disk', hsync, -⟩ := bind_ok.mp h
  exact ⟨_, _, _, _, disk', hsync, (hfirst.trans hblocks).iNo⟩

theorem fileWriteWith_checked (h : ∀ ref nd, (fs.fileTable fd).fdInode = some ref →
      fs.inodeAt ref = .ok nd → OneSector (nd.iNo.toNat % 2 ^ 8)) :
    fileWriteWith checked fs fd buf count = fileWrite fs fd buf count := by
  change _ = fileWriteWith unchecked fs fd buf count
  unfold fileWriteWith
  split
  · rfl
  next ref hfd =>
    refine bind_congr_ok fun nd hnd => ?_
    have hsync := @writeNodeWith_congr buf count ⟨fs.disk, fs.part, nd⟩ (checked.sync 512) inodeSync
      fun disk part nd' ioBuf hno => by rw [checked_sync_one, if_pos (hno ▸ h ref nd hfd hnd)]
    simp only [Fs.askMalloc, hsync]
    rfl

/-- With the check only the records that lie in one sector are written. -/
theorem fileWriteWith_ok (h : fileWriteWith checked fs fd buf count = .ok (r, fs')) (hr : r ≠ -1)
    {ref : Nat} {nd : Inode} (hfd : (fs.fileTable fd).fdInode = some ref)
    (hnd : fs.inodeAt ref = .ok nd) : OneSector (nd.iNo.toNat % 2 ^ 8) := by
  simp only [fileWriteWith, hfd, hnd, ok_bind] at h
  split at h
  · cases h
    exact absurd rfl hr
  rcases hm : fs.askMalloc 512 with ⟨ioBufFound, fs₁⟩
  rw [hm] at h
  cases ioBufFound with
  | false =>
    cases h
    exact absurd rfl hr
  | true =>
    rcases hm : fs₁.askMalloc (512 + 48) with ⟨blocksFound, fs₂⟩
    simp only [hm] at h
    cases blocksFound with
    | false =>
      cases h
      exact absurd rfl hr
    | true =>
      obtain ⟨⟨l, s⟩, hw, h⟩ := bind_ok.mp h
      cases l with
      | none =>
        cases h
        exact absurd rfl hr
      | some l =>
        obtain ⟨disk, part, nd', ioBuf, disk', hsync, hno⟩ := writeNodeWith_ok hw
        rw [checked_sync_one] at hsync
        split at hsync
        next hone => exact hno ▸ hone
        next => cases hsync

end

/-! ## The buffers -/

theorem BuffersHold.of_one {c : RecordCall} {fs : Fs} (h : WritesOneSector fs c) :
    BuffersHold c fs := by
  cases c with
  | fileWrite fd buf count => exact fileWriteWith_checked h
  | fileCreate parentDir filename flag => exact fileCreateWith_checked filename flag
  | mkdirIn parentDir searchedPath => exact mkdirInWith_checked searchedPath
  | unlinkIn inodeNo record => exact unlinkInWith_checked inodeNo record
  | dirRemove parentDir childDir => exact dirRemoveWith_checked childDir

/-- The buffers are long enough unless `file_write` is called on an inode whose record lies
in two sectors; and there a write that gets anywhere has gone past its buffer. -/
theorem buffersHold_iff (c : RecordCall) (fs : Fs) :
    (WritesOneSector fs c → BuffersHold c fs) ∧
      ∀ r fs', c.run fs = .ok (r, fs') → r ≠ -1 → (BuffersHold c fs ↔ WritesOneSector fs c) := by
  refine ⟨.of_one, fun r fs' h hr => ⟨fun hhold => ?_, .of_one⟩⟩
  cases c with
  | fileWrite fd buf count =>
    intro ref nd hfd hnd
    exact fileWriteWith_ok (hhold.trans h) hr hfd hnd
  | fileCreate | mkdirIn | unlinkIn | dirRemove => trivial

/-- The empty file of inode 6, the first whose record lies in two sectors. -/
def sixthFs : Fs := emptyFileFs.setOpenInodes [⟨1, inodeInit 6⟩]

theorem sixthFs_writes :
    ∃ fs', (RecordCall.fileWrite 3 (fun _ => 0) 1).run sixthFs = .ok (1, fs') := by
  have hrun : (fileWrite sixthFs 3 (fun _ => 0) 1).map (·.1) = .ok 1 := by decide +kernel
  cases h : fileWrite sixthFs 3 (fun _ => 0) 1 with
  | error e =>
    rw [h] at hrun
    cases hrun
  | ok p =>
    obtain ⟨r, fs'⟩ := p
    rw [h] at hrun
    obtain rfl : r = 1 := by simpa [Except.map] using hrun
    exact ⟨fs', h⟩

theorem buffersHold_iff_sixth : ∃ fs', (RecordCall.fileWrite 3 (fun _ => 0) 1).run sixthFs =
    .ok (1, fs') ∧ (BuffersHold (.fileWrite 3 (fun _ => 0) 1) sixthFs ↔
      WritesOneSector sixthFs (.fileWrite 3 (fun _ => 0) 1)) := by
  obtain ⟨fs', h⟩ := sixthFs_writes
  exact ⟨fs', h, (buffersHold_iff _ _).2 1 fs' h (by decide)⟩

/-- One byte is written to the file, and the two sectors of its record go through a buffer
of one. -/
theorem sixthFs_overrun : ∃ fs', (RecordCall.fileWrite 3 (fun _ => 0) 1).run sixthFs =
    .ok (1, fs') ∧ ¬ BuffersHold (.fileWrite 3 (fun _ => 0) 1) sixthFs := by
  obtain ⟨fs', h⟩ := sixthFs_writes
  refine ⟨fs', h, fun hhold => ?_⟩
  have hrun : fileWriteWith checked sixthFs 3 (fun _ => 0) 1 = .ok (1, fs') := hhold.trans h
  have hone := fileWriteWith_ok hrun (by decide) rfl rfl
  revert hone
  decide

end ZhuOS
