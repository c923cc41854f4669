import ZhuOS.Blocks

/-!
# `fs/file.c`: `file_write` and `file_read`

Both collect the addresses of the blocks they touch in `all_blocks` and then go from
sector to sector. A write leaves the file with the block its end lies in, so that a
file of a whole number of sectors has one block more.
-/

namespace ZhuOS

open ByteMem

/-! ## The blocks of a write -/

/-- The inode with `all_blocks` beside it. -/
structure Writer extends NodeState where
  allBlocks : Nat → UInt32

/-- `all_blocks` as `sys_malloc` leaves it, but for one address. -/
def oneBlock (nd : Inode) (blockIdx : Nat) : Nat → UInt32 :=
  Function.update (fun _ => 0) blockIdx (nd.iSectors blockIdx)

/-- The table, read into `all_blocks + 12`. -/
def readTable (disk : Bytes) (indirectBlockTable : UInt32) (blocks : Nat → UInt32) :
    Except Fault (Nat → UInt32) := do
  let table ← ideRead disk indirectBlockTable.toNat (fun _ => 0) 1
  return withTable blocks table

/-- The block of a file that has none; `false` when no block is free. -/
def firstBlock (s : NodeState) : Except Fault (Bool × NodeState) :=
  if s.inode.iSectors 0 = 0 then do
    let (blockLba, disk, part) ← claimBlock s.disk s.part
    match blockLba with
    | none => return (false, { s with disk, part })
    | some blockLba =>
      ASSERT (blockLba - part.sb.dataStartLba ≠ 0)
      return (true, { disk, part, inode := s.inode.setSector 0 blockLba })
  else return (true, s)

/-- The loops that claim blocks up to the last. The address of a direct one goes into
the inode too; behind the table, into `all_blocks` alone. -/
def claimBlocks : (left blockIdx : Nat) → Writer → Except Fault (Bool × Writer)
  | 0, _, w => return (true, w)
  | left + 1, blockIdx, w => do
    let (blockLba, disk, part) ← claimBlock w.disk w.part
    match blockLba with
    | none => return (false, { w with disk, part })
    | some blockLba =>
      let allBlocks := Function.update w.allBlocks blockIdx blockLba
      if blockIdx < 12 then
        ASSERT (w.inode.iSectors blockIdx = 0)
        claimBlocks left (blockIdx + 1)
          { disk, part, inode := w.inode.setSector blockIdx blockLba, allBlocks }
      else claimBlocks left (blockIdx + 1) { w with disk, part, allBlocks }

/-- The blocks behind the table are claimed, and the table is written at once. -/
def claimBehindTable (w : Writer) (indirectBlockTable : UInt32) (has will : Nat) :
    Except Fault (Bool × Writer) := do
  let (found, w) ← claimBlocks (will - has) has w
  if found then
    let disk ← ideWrite w.disk indirectBlockTable.toNat (tableBytes w.allBlocks) 1
    return (true, { w with disk })
  else return (false, w)

/-- `all_blocks` for a write to a file of `has` blocks that will use `will`. -/
def writeBlocks (s : NodeState) (has will : Nat) : Except Fault (Bool × Writer) :=
  if will = has then
    if will ≤ 12 then return (true, ⟨s, oneBlock s.inode (has - 1)⟩)
    else do
      ASSERT (s.inode.iSectors 12 ≠ 0)
      return (true, ⟨s, ← readTable s.disk (s.inode.iSectors 12) fun _ => 0⟩)
  else if will ≤ 12 then
    if 13 < has then .error .outOfBounds
    else do
      ASSERT (s.inode.iSectors (has - 1) ≠ 0)
      claimBlocks (will - has) has ⟨s, oneBlock s.inode (has - 1)⟩
  else if has ≤ 12 then do
    let (blockLba, disk, part) ← claimBlock s.disk s.part
    match blockLba with
    | none => return (false, ⟨{ s with disk, part }, oneBlock s.inode (has - 1)⟩)
    | some blockLba =>
      ASSERT (s.inode.iSectors 12 = 0)
      claimBehindTable
        ⟨{ disk, part, inode := s.inode.setSector 12 blockLba }, oneBlock s.inode (has - 1)⟩
        blockLba has will
  else do
    ASSERT (s.inode.iSectors 12 ≠ 0)
    let allBlocks ← readTable s.disk (s.inode.iSectors 12) fun _ => 0
    claimBehindTable ⟨s, allBlocks⟩ (s.inode.iSectors 12) has will

/-! ## The data of a write -/

/-- What the loop of `file_write` changes. -/
structure WriteLoop where
  disk : Bytes
  iSize : Nat
  fdPos : Nat
  bytesWritten : Nat
  sizeLeft : Nat
  firstWriteBlock : Bool
  ioBuf : Bytes

/-- The part of a sector a round transfers. -/
def chunkSize (sizeLeft secOffBytes : Nat) : Nat :=
  let secLeftBytes := 512 - secOffBytes
  if sizeLeft < secLeftBytes then sizeLeft else secLeftBytes

def writeLoop (allBlocks : Nat → UInt32) (src : Bytes) (count : Nat) :
    (fuel : Nat) → WriteLoop → Except Fault WriteLoop
  | 0, _ => .error .stuck
  | fuel + 1, l =>
    if l.bytesWritten < count then
      if 140 ≤ l.iSize / 512 then .error .outOfBounds
      else do
        let ioBuf := fill l.ioBuf 0 512 0
        let secLba := allBlocks (l.iSize / 512)
        let chunk := chunkSize l.sizeLeft (l.iSize % 512)
        let ioBuf ← if l.firstWriteBlock then ideRead l.disk secLba.toNat ioBuf 1 else pure ioBuf
        let ioBuf := blit ioBuf (l.iSize % 512) src l.bytesWritten chunk
        let disk ← ideWrite l.disk secLba.toNat ioBuf 1
        writeLoop allBlocks src count fuel {
          disk, ioBuf
          iSize := u32 (l.iSize + chunk)
          fdPos := u32 (l.fdPos + chunk)
          bytesWritten := l.bytesWritten + chunk
          sizeLeft := l.sizeLeft - chunk
          firstWriteBlock := false }
    else return l

/-- The inode at `ref` with its disk and partition put back. -/
def Fs.setNode (fs : Fs) (ref : Nat) (s : NodeState) : Fs :=
  { fs with
    disk := s.disk
    part := { s.part with openInodes := ZhuOS.setInode ref s.inode s.part.openInodes } }

def Fs.setPos (fs : Fs) (fd : Nat) (fdPos : UInt32) : Fs :=
  { fs with fileTable := Function.update fs.fileTable fd { fs.fileTable fd with fdPos } }

/-- `file_write` once it has its buffers: how the loop ended, unless there was no block. -/
def writeNode (s : NodeState) (src : Bytes) (count : UInt32) :
    Except Fault (Option WriteLoop × NodeState) := do
  let (found, s) ← firstBlock s
  if ¬ found then return (none, s)
  let fileHasUsedBlocks := s.inode.iSize.toNat / 512 + 1
  let fileWillUseBlocks := (s.inode.iSize + count).toNat / 512 + 1
  ASSERT (fileWillUseBlocks ≤ 140)
  let (found, w) ← writeBlocks s fileHasUsedBlocks fileWillUseBlocks
  if ¬ found then return (none, w.toNodeState)
  let l ← writeLoop w.allBlocks src count.toNat (count.toNat + 1) {
    disk := w.disk
    iSize := w.inode.iSize.toNat
    fdPos := (w.inode.iSize - 1).toNat
    bytesWritten := 0
    sizeLeft := count.toNat
    firstWriteBlock := true
    ioBuf := fun _ => 0 }
  let inode := { w.inode with iSize := .ofNat l.iSize }
  let disk ← inodeSync l.disk w.part inode l.ioBuf
  return (some l, { disk, part := w.part, inode })

/-- `file_write` on an entry of the file table: the bytes written, or -1. -/
def fileWrite (fs : Fs) (fd : Nat) (buf : Bytes) (count : UInt32) : Except Fault (Int × Fs) := do
  match (fs.fileTable fd).fdInode with
  | none => .error .badAddress
  | some ref =>
    let nd ← fs.inodeAt ref
    if 512 * 140 < nd.iSize + count then return (-1, fs)
    let (ioBufFound, fs) := fs.askMalloc 512
    if ¬ ioBufFound then return (-1, fs)
    let (blocksFound, fs) := fs.askMalloc (512 + 48)
    if ¬ blocksFound then return (-1, fs)
    match ← writeNode ⟨fs.disk, fs.part, nd⟩ buf count with
    | (none, s) => return (-1, fs.setNode ref s)
    | (some l, s) => return (l.bytesWritten, (fs.setNode ref s).setPos fd (.ofNat l.fdPos))

/-! ## Reading -/

/-- The direct addresses from `blockIdx` on. -/
def copySectors (nd : Inode) : (left blockIdx : Nat) → (Nat → UInt32) → Nat → UInt32
  | 0, _, blocks => blocks
  | left + 1, blockIdx, blocks =>
    copySectors nd left (blockIdx + 1) (Function.update blocks blockIdx (nd.iSectors blockIdx))

/-- `all_blocks` for a read from block `startIdx` to block `endIdx`. -/
def readBlocks (disk : Bytes) (nd : Inode) (startIdx endIdx : Nat) :
    Except Fault (Nat → UInt32) :=
  if startIdx = endIdx then
    if endIdx < 12 then return oneBlock nd endIdx
    else readTable disk (nd.iSectors 12) fun _ => 0
  else if endIdx < 12 then return copySectors nd (endIdx + 1 - startIdx) startIdx fun _ => 0
  else if startIdx < 12 then do
    ASSERT (nd.iSectors 12 ≠ 0)
    readTable disk (nd.iSectors 12) (copySectors nd (12 - startIdx) startIdx fun _ => 0)
  else do
    ASSERT (nd.iSectors 12 ≠ 0)
    readTable disk (nd.iSectors 12) fun _ => 0

/-- What the loop of `file_read` changes. -/
structure ReadLoop where
  buf : Bytes
  fdPos : Nat
  bytesRead : Nat
  sizeLeft : Nat

def readLoop (disk : Bytes) (allBlocks : Nat → UInt32) (size : Nat) :
    (fuel : Nat) → ReadLoop → Except Fault ReadLoop
  | 0, _ => .error .stuck
  | fuel + 1, l =>
    if l.bytesRead < size then
      if 140 ≤ l.fdPos / 512 then .error .outOfBounds
      else do
        let secLba := allBlocks (l.fdPos / 512)
        let chunk := chunkSize l.sizeLeft (l.fdPos % 512)
        let ioBuf ← ideRead disk secLba.toNat (fun _ => 0) 1
        readLoop disk allBlocks size fuel {
          buf := blit l.buf l.bytesRead ioBuf (l.fdPos % 512) chunk
          fdPos := u32 (l.fdPos + chunk)
          bytesRead := l.bytesRead + chunk
          sizeLeft := l.sizeLeft - chunk }
    else return l

/-- `file_read` on an entry of the file table: the bytes read, or -1, and the buffer. -/
def fileRead (fs : Fs) (fd : Nat) (buf : Bytes) (count : UInt32) :
    Except Fault (Int × Bytes × Fs) := do
  let file := fs.fileTable fd
  match file.fdInode with
  | none => .error .badAddress
  | some ref =>
    let nd ← fs.inodeAt ref
    let past := nd.iSize < file.fdPos + count
    let size := if past then nd.iSize - file.fdPos else count
    if past ∧ size = 0 then return (-1, buf, fs)
    let (ioBufFound, fs) := fs.askMalloc 512
    if ¬ ioBufFound then return (-1, buf, fs)
    let (blocksFound, fs) := fs.askMalloc (512 + 48)
    if ¬ blocksFound then return (-1, buf, fs)
    let blockReadStartIdx := file.fdPos.toNat / 512
    let blockReadEndIdx := (file.fdPos + size).toNat / 512
    ASSERT (blockReadStartIdx < 139 ∧ blockReadEndIdx < 139)
    let allBlocks ← readBlocks fs.disk nd blockReadStartIdx blockReadEndIdx
    let l ← readLoop fs.disk allBlocks size.toNat (size.toNat + 1)
      ⟨buf, file.fdPos.toNat, 0, size.toNat⟩
    return (l.bytesRead, l.buf, fs.setPos fd (.ofNat l.fdPos))

end ZhuOS
