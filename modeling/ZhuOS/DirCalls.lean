import ZhuOS.OpenCounts

/-!
# `fs/fs.c`: the calls that take a path

Each of them holds the directory `search_file` has left open, and closes it at its end.
What they do in between, `inode_release` and `dir_remove`, opens an inode and closes it.
-/

namespace ZhuOS

open ByteMem

/-! ## `inode_release` -/

/-- Each block is given up. -/
def releaseBlocks (blocks : Nat → UInt32) :
    (left blockIdx : Nat) → Bytes → Partition → Except Fault (Bytes × Partition)
  | 0, _, disk, part => return (disk, part)
  | left + 1, k, disk, part =>
    if blocks k = 0 then releaseBlocks blocks left (k + 1) disk part
    else do
      ASSERT (0 < (blocks k - part.sb.dataStartLba).toNat)
      let (disk, part) ← freeBlock disk part (blocks k)
      releaseBlocks blocks left (k + 1) disk part

/-- The blocks of the inode; the indirect table goes first. -/
def releaseNode (disk : Bytes) (part : Partition) (inodeToDel : Inode) :
    Except Fault (Bytes × Partition) := do
  let blocks ← allBlocks disk inodeToDel
  if inodeToDel.iSectors 12 ≠ 0 then
    ASSERT (0 < (inodeToDel.iSectors 12 - part.sb.dataStartLba).toNat)
    let (disk, part) ← freeBlock disk part (inodeToDel.iSectors 12)
    releaseBlocks blocks 140 0 disk part
  else releaseBlocks blocks 12 0 disk part

/-- `inode_release`: blocks, number and record of the inode. -/
def inodeRelease (fs : Fs) (inodeNo : Nat) : Except Fault Fs := do
  let (ref, fs) ← inodeOpen fs inodeNo
  let inodeToDel ← fs.inodeAt ref
  ASSERT (inodeToDel.iNo.toNat = inodeNo)
  let (disk, part) ← releaseNode fs.disk fs.part inodeToDel
  let part := { part with inodeBitmap := bitmapSet part.inodeBitmap inodeNo false }
  let disk ← bitmapSync disk part inodeNo .INODE_BITMAP
  let (ioBuf, fs) := { fs with disk, part }.askMalloc 1024
  orNull ioBuf
  let disk ← inodeDelete fs.disk fs.part inodeNo fun _ => 0
  inodeClose { fs with disk } ref

/-! ## `dir_remove` -/

/-- `delete_dir_entry` in an open directory; whether there was an entry is not asked. -/
def deleteEntry (fs : Fs) (dir : Dir) (inodeNo : Nat) : Except Fault Fs := do
  let nd ← fs.inodeAt dir.inode
  let (_, s) ← deleteDirEntry ⟨fs.disk, fs.part, nd⟩ inodeNo fun _ => 0
  return fs.setNode dir.inode s

/-- `dir_is_empty`. -/
def dirIsEmpty (fs : Fs) (dir : Dir) : Except Fault Bool := do
  let nd ← fs.inodeAt dir.inode
  return decide (nd.iSize = fs.part.sb.dirEntrySize)

def dirRemove (fs : Fs) (parentDir childDir : Dir) : Except Fault (Int × Fs) := do
  let child ← fs.inodeAt childDir.inode
  ASSERT (∀ blockIdx ∈ List.range' 1 12, child.iSectors blockIdx = 0)
  let (ioBuf, fs) := fs.askMalloc 1024
  if ¬ ioBuf then return (-1, fs)
  else
    let fs ← deleteEntry fs parentDir child.iNo.toNat
    let fs ← inodeRelease fs child.iNo.toNat
    return (0, fs)

/-! ## Removing a file or a directory -/

/-- The search of the file table for the inode. -/
def fileInUse (fs : Fs) (inodeNo : UInt32) : (left fileIdx : Nat) → Except Fault Bool
  | 0, _ => return false
  | left + 1, fileIdx =>
    match (fs.fileTable fileIdx).fdInode with
    | none => fileInUse fs inodeNo left (fileIdx + 1)
    | some ref => do
      let nd ← fs.inodeAt ref
      if nd.iNo = inodeNo then return true else fileInUse fs inodeNo left (fileIdx + 1)

/-- `sys_unlink` in the directory it has found. -/
def unlinkIn (fs : Fs) (inodeNo : UInt32) (record : PathSearchRecord) :
    Except Fault (Int × Fs) :=
  if inodeNo = -1 ∨ record.fileType = FT_DIRECTORY then return (-1, fs)
  else do
    let inUse ← fileInUse fs inodeNo MAX_FILE_OPEN 0
    if inUse then return (-1, fs)
    else
      let (ioBuf, fs) := fs.askMalloc 1024
      if ¬ ioBuf then return (-1, fs)
      else
        let fs ← deleteEntry fs record.parentDir inodeNo.toNat
        let fs ← inodeRelease fs inodeNo.toNat
        return (0, fs)

def sysUnlink (fs : Fs) (pathname : List UInt8) : Except Fault (Int × Fs) := do
  ASSERT (pathname.length < MAX_PATH_LEN)
  let (inodeNo, record, fs) ← searchFile fs pathname
  ASSERT (inodeNo ≠ 0)
  let (ret, fs) ← unlinkIn fs inodeNo record
  return (ret, ← dirClose fs record.parentDir)

/-- `sys_rmdir` in the directory it has found. -/
def rmdirIn (fs : Fs) (inodeNo : UInt32) (record : PathSearchRecord) : Except Fault (Int × Fs) :=
  if inodeNo = -1 ∨ record.fileType = FT_REGULAR then return (-1, fs)
  else do
    let (dir, fs) ← dirOpen fs inodeNo.toNat
    let empty ← dirIsEmpty fs dir
    if ¬ empty then return (-1, ← dirClose fs dir)
    else
      let (retval, fs) ← dirRemove fs record.parentDir dir
      return (retval, ← dirClose fs dir)

def sysRmdir (fs : Fs) (pathname : List UInt8) : Except Fault (Int × Fs) := do
  let (inodeNo, record, fs) ← searchFile fs pathname
  ASSERT (inodeNo ≠ 0)
  let (retval, fs) ← rmdirIn fs inodeNo record
  return (retval, ← dirClose fs record.parentDir)

/-! ## `sys_mkdir` -/

/-- An entry `.` or `..`. -/
def dirDotEntry (filename : List UInt8) (inodeNo : UInt32) : DirEntry where
  filename := fun i => filename.getD i 0
  iNo := inodeNo
  fType := FT_DIRECTORY

/-- The first block of a new directory. -/
def dotSector (inodeNo parentNo : UInt32) : Bytes :=
  blit (blit (fun _ => 0) 0 (dirDotEntry dot inodeNo).toBytes 0 SIZEOF_DIR_ENTRY) SIZEOF_DIR_ENTRY
    (dirDotEntry dotDot parentNo).toBytes 0 SIZEOF_DIR_ENTRY

/-- The new directory with its first block; `none` when there is no block. -/
def mkdirBlock (fs : Fs) (inodeNo : Nat) (parentNo : UInt32) :
    Except Fault (Option Inode × Fs) := do
  let newDirInode := inodeInit (.ofNat inodeNo)
  let (blockLba, part) ← blockBitmapAlloc fs.part
  match blockLba with
  | none => return (none, { fs with part })
  | some blockLba =>
    let blockBitmapIdx := (blockLba - part.sb.dataStartLba).toNat
    ASSERT (blockBitmapIdx ≠ 0)
    let disk ← bitmapSync fs.disk part blockBitmapIdx .BLOCK_BITMAP
    let disk ← ideWrite disk blockLba.toNat (dotSector (.ofNat inodeNo) parentNo) 1
    return (some { newDirInode.setSector 0 blockLba with iSize := 2 * part.sb.dirEntrySize },
      { fs with disk, part })

/-- The entry in the parent directory, and what goes to the disk. -/
def mkdirSync (fs : Fs) (parentDir : Dir) (dirname : List UInt8) (inodeNo : Nat)
    (newDirInode : Inode) : Except Fault (Bool × Fs) := do
  let newDirEntry ← createDirEntry dirname (.ofNat inodeNo) FT_DIRECTORY
  let parent ← fs.inodeAt parentDir.inode
  let (synced, s) ← syncDirEntry ⟨fs.disk, fs.part, parent⟩ newDirEntry fun _ => 0
  let fs := fs.setNode parentDir.inode s
  if ¬ synced then return (false, fs)
  else
    let disk ← inodeSync fs.disk fs.part s.inode fun _ => 0
    let disk ← inodeSync disk fs.part newDirInode fun _ => 0
    let disk ← bitmapSync disk fs.part inodeNo .INODE_BITMAP
    return (true, { fs with disk })

/-- `sys_mkdir` in the directory it has found. -/
def mkdirIn (fs : Fs) (parentDir : Dir) (searchedPath : List UInt8) : Except Fault (Int × Fs) := do
  orNull (decide (slash ∈ searchedPath))
  let (inodeNo, part) ← inodeBitmapAlloc fs.part
  let fs := { fs with part }
  match inodeNo with
  | none => return (-1, fs)
  | some inodeNo =>
    let parent ← fs.inodeAt parentDir.inode
    let (newDirInode, fs) ← mkdirBlock fs inodeNo parent.iNo
    match newDirInode with
    | none => return rollback fs inodeNo
    | some newDirInode =>
      let (synced, fs) ← mkdirSync fs parentDir (lastName searchedPath) inodeNo newDirInode
      if ¬ synced then return rollback fs inodeNo else return (0, fs)

def sysMkdir (fs : Fs) (pathname : List UInt8) : Except Fault (Int × Fs) := do
  let (ioBuf, fs) := fs.askMalloc 1024
  if ¬ ioBuf then return (-1, fs)
  else
    let (inodeNo, record, fs) ← searchFile fs pathname
    if inodeNo ≠ -1 then return (-1, ← dirClose fs record.parentDir)
    else
      let pathnameDepth ← pathDepthCnt (fs.junk 0) pathname
      let pathSearchedDepth ← pathDepthCnt (fs.junk 0) record.searchedPath
      if pathnameDepth ≠ pathSearchedDepth then return (-1, ← dirClose fs record.parentDir)
      else
        let (ret, fs) ← mkdirIn fs record.parentDir record.searchedPath
        return (ret, ← dirClose fs record.parentDir)

/-! ## The calls that only look -/

/-- `sys_opendir`: the handle, or `NULL`. -/
def sysOpendir (fs : Fs) (name : List UInt8) : Except Fault (Option Dir × Fs) := do
  ASSERT (name.length < MAX_PATH_LEN)
  -- the second test is of the first character, which is the slash
  if name[0]? = some slash ∧ (name[1]? = none ∨ name[0]? = some 46) then
    return (some fs.root, fs)
  else
    let (inodeNo, record, fs) ← searchFile fs name
    if inodeNo = -1 ∨ record.fileType ≠ FT_DIRECTORY then
      return (none, ← dirClose fs record.parentDir)
    else
      let (ret, fs) ← dirOpen fs inodeNo.toNat
      return (some ret, ← dirClose fs record.parentDir)

/-- `sys_closedir`; `none` is `NULL`. -/
def sysClosedir (fs : Fs) (dir : Option Dir) : Except Fault (Int × Fs) :=
  match dir with
  | none => return (-1, fs)
  | some dir => return (0, ← dirClose fs dir)

/-- `sys_chdir`, with the thread's `cwd_inode_nr`. -/
def sysChdir (fs : Fs) (cwdInodeNr : UInt32) (path : List UInt8) :
    Except Fault (Int × UInt32 × Fs) := do
  let (inodeNo, record, fs) ← searchFile fs path
  let fs ← dirClose fs record.parentDir
  if inodeNo ≠ -1 ∧ record.fileType = FT_DIRECTORY then return (0, inodeNo, fs)
  else return (-1, cwdInodeNr, fs)

structure Stat where
  stIno : UInt32
  stSize : UInt32
  stFiletype : UInt32

/-- `sys_stat` of a file it has found. -/
def statNode (fs : Fs) (inodeNo : UInt32) (record : PathSearchRecord) (buf : Stat) :
    Except Fault (Int × Stat × Fs) :=
  if inodeNo = -1 then return (-1, buf, fs)
  else do
    let (ref, fs) ← inodeOpen fs inodeNo.toNat
    let objInode ← fs.inodeAt ref
    let fs ← inodeClose fs ref
    return (0, ⟨inodeNo, objInode.iSize, record.fileType⟩, fs)

def sysStat (fs : Fs) (path : List UInt8) (buf : Stat) : Except Fault (Int × Stat × Fs) :=
  if path = rootPath ∨ path = rootDotPath ∨ path = rootDotDotPath then do
    let root ← fs.inodeAt fs.rootDir
    return (0, ⟨0, root.iSize, FT_DIRECTORY⟩, fs)
  else do
    let (inodeNo, record, fs) ← searchFile fs path
    let (ret, buf, fs) ← statNode fs inodeNo record buf
    return (ret, buf, ← dirClose fs record.parentDir)

end ZhuOS
