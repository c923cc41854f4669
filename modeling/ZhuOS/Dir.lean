import ZhuOS.Blocks

/-!
# `fs/dir.c`: directories

A directory's entries lie in its blocks, `512 / dir_entry_size` of them in each.
The lookup collects the direct blocks and those of the indirect table; the
insertion collects the direct ones alone.
-/

namespace ZhuOS

open ByteMem

/-- `512 / dir_entry_size`. -/
def dirEntrysPerSec (sb : SuperBlock) : Except Fault Nat :=
  if sb.dirEntrySize = 0 then .error .divideError else .ok (512 / sb.dirEntrySize.toNat)

/-- The entry `j` of a sector. -/
def entryAt (buf : Bytes) (j : Nat) : DirEntry := .ofBytes (shift buf (SIZEOF_DIR_ENTRY * j))

/-! ## `search_dir_entry` -/

/-- The first entry of the sector with this name. -/
def scanName (buf : Bytes) (name : List UInt8) : (left dirEntryIdx : Nat) → Option Nat
  | 0, _ => none
  | left + 1, j => if (entryAt buf j).name = name then some j else scanName buf name left (j + 1)

/-- The loop over the blocks; an address of zero is passed over. -/
def searchBlocks (disk : Bytes) (blocks : Nat → UInt32) (name : List UInt8) (bufFound : Bool)
    (dirEntryCnt : Nat) : (left blockIdx : Nat) → Bytes → Except Fault (Option DirEntry)
  | 0, _, _ => return none
  | left + 1, k, buf =>
    if blocks k = 0 then searchBlocks disk blocks name bufFound dirEntryCnt left (k + 1) buf
    else do
      orNull bufFound
      let buf ← ideRead disk (blocks k).toNat buf 1
      match scanName buf name dirEntryCnt 0 with
      | some j => return some (entryAt buf j)
      | none =>
        searchBlocks disk blocks name bufFound dirEntryCnt left (k + 1) (fill buf 0 512 0)

/-- `search_dir_entry`: the entry with this name. -/
def searchDirEntry (fs : Fs) (dir : Inode) (name : List UInt8) :
    Except Fault (Option DirEntry × Fs) := do
  let (blocksFound, fs) := fs.askMalloc (48 + 512)
  if ¬ blocksFound then return (none, fs)
  let blocks ← allBlocks fs.disk dir
  let (bufFound, fs) := fs.askMalloc 512
  let dirEntryCnt ← dirEntrysPerSec fs.part.sb
  let found ← searchBlocks fs.disk blocks name bufFound dirEntryCnt 140 0 (fun _ => 0)
  return (found, fs)

/-! ## `sync_dir_entry` -/

def createDirEntry (filename : List UInt8) (inodeNo : UInt32) (fileType : UInt32) :
    Except Fault DirEntry := do
  ASSERT (filename.length ≤ MAX_FILE_NAME_LEN)
  return { filename := fun i => filename.getD i 0, iNo := inodeNo, fType := fileType }

/-- The first unused entry of the sector. -/
def scanFree (buf : Bytes) : (left dirEntryIdx : Nat) → Option Nat
  | 0, _ => none
  | left + 1, j => if (entryAt buf j).fType = FT_UNKNOWN then some j else scanFree buf left (j + 1)

/-- The entry goes into a new sector of its own. -/
def writeFirstEntry (s : NodeState) (lba : UInt32) (de : DirEntry) (ioBuf : Bytes) :
    Except Fault (Bool × NodeState) := do
  let size := s.part.sb.dirEntrySize
  let ioBuf := blit (fill ioBuf 0 512 0) 0 de.toBytes 0 size.toNat
  let disk ← ideWrite s.disk lba.toNat ioBuf 1
  return (true, { s with disk, inode := { s.inode with iSize := s.inode.iSize + size } })

/-- `all_blocks[block_idx]` is zero: a block is claimed for it. At index 12 the
first becomes the indirect table, whatever table there was. -/
def syncNewBlock (s : NodeState) (blocks : Nat → UInt32) (k : Nat) (de : DirEntry) (ioBuf : Bytes) :
    Except Fault (Bool × NodeState) := do
  let (blockLba, disk, part) ← claimBlock s.disk s.part
  match blockLba with
  | none => return (false, { s with disk, part })
  | some blockLba =>
    if k < 12 then
      writeFirstEntry { disk, part, inode := s.inode.setSector k blockLba } blockLba de ioBuf
    else if k = 12 then
      let inode := s.inode.setSector 12 blockLba
      let (first, disk, part) ← claimBlock disk part
      match first with
      | none =>
        let blockBitmapIdx := (blockLba - part.sb.dataStartLba).toNat
        let part := { part with
          blockBitmap := bitmapSet part.blockBitmap blockBitmapIdx false }
        return (false, { disk, part, inode := inode.setSector 12 0 })
      | some first =>
        let disk ← ideWrite disk blockLba.toNat (tableBytes (Function.update blocks 12 first)) 1
        writeFirstEntry { disk, part, inode } first de ioBuf
    else
      let disk ← ideWrite disk (s.inode.iSectors 12).toNat
        (tableBytes (Function.update blocks k blockLba)) 1
      writeFirstEntry { disk, part, inode := s.inode } blockLba de ioBuf

/-- The loop over the blocks, up to the first with room. -/
def syncBlocks (s : NodeState) (blocks : Nat → UInt32) (de : DirEntry) (perSec : Nat) :
    (left blockIdx : Nat) → Bytes → Except Fault (Bool × NodeState)
  | 0, _, _ => return (false, s)
  | left + 1, k, ioBuf =>
    if blocks k = 0 then syncNewBlock s blocks k de ioBuf
    else do
      let ioBuf ← ideRead s.disk (blocks k).toNat ioBuf 1
      match scanFree ioBuf perSec 0 with
      | some j =>
        let size := s.part.sb.dirEntrySize
        let ioBuf := blit ioBuf (SIZEOF_DIR_ENTRY * j) de.toBytes 0 size.toNat
        let disk ← ideWrite s.disk (blocks k).toNat ioBuf 1
        return (true, { s with disk, inode := { s.inode with iSize := s.inode.iSize + size } })
      | none => syncBlocks s blocks de perSec left (k + 1) ioBuf

/-- `sync_dir_entry`: `false` when there is no room. -/
def syncDirEntry (s : NodeState) (de : DirEntry) (ioBuf : Bytes) :
    Except Fault (Bool × NodeState) := do
  let perSec ← dirEntrysPerSec s.part.sb
  ASSERT (s.inode.iSize.toNat % s.part.sb.dirEntrySize.toNat = 0)
  syncBlocks s (directBlocks s.inode) de perSec 140 0 ioBuf

/-! ## `delete_dir_entry` -/

def dot : List UInt8 := [46]
def dotDot : List UInt8 := [46, 46]

/-- What the walk over a sector has seen: `.`, the entries but `.` and `..`, and the
one to delete. -/
structure SectorScan where
  isDirFirstBlock : Bool
  dirEntryCnt : Nat
  dirEntryFound : Option Nat

def scanSector (buf : Bytes) (inodeNo : Nat) :
    (left dirEntryIdx : Nat) → SectorScan → Except Fault SectorScan
  | 0, _, acc => return acc
  | left + 1, j, acc =>
    let de := entryAt buf j
    if de.fType = FT_UNKNOWN then scanSector buf inodeNo left (j + 1) acc
    else if de.name = dot then
      scanSector buf inodeNo left (j + 1) { acc with isDirFirstBlock := true }
    else if de.name = dotDot then scanSector buf inodeNo left (j + 1) acc
    else do
      let acc := { acc with dirEntryCnt := acc.dirEntryCnt + 1 }
      if de.iNo.toNat = inodeNo then
        ASSERT (acc.dirEntryFound = none)
        scanSector buf inodeNo left (j + 1) { acc with dirEntryFound := some j }
      else scanSector buf inodeNo left (j + 1) acc

/-- The sector with the entry: it is given up with its only entry, or the entry is
cleared in it. -/
def removeEntry (s : NodeState) (blocks : Nat → UInt32) (k j : Nat) (scan : SectorScan)
    (ioBuf : Bytes) : Except Fault NodeState := do
  let size := s.part.sb.dirEntrySize
  ASSERT (1 ≤ scan.dirEntryCnt)
  let s ←
    if scan.dirEntryCnt = 1 ∧ scan.isDirFirstBlock = false then do
      let (disk, part) ← freeBlock s.disk s.part (blocks k)
      if k < 12 then pure { s with disk, part, inode := s.inode.setSector k 0 }
      else .error .stuck -- the loop that counts the table's blocks does not advance
    else do
      let disk ← ideWrite s.disk (blocks k).toNat
        (fill ioBuf (SIZEOF_DIR_ENTRY * j) size.toNat 0) 1
      pure { s with disk }
  ASSERT (size ≤ s.inode.iSize)
  let inode := { s.inode with iSize := s.inode.iSize - size }
  let disk ← inodeSync s.disk s.part inode (fun _ => 0)
  return { s with disk, inode }

def deleteBlocks (s : NodeState) (blocks : Nat → UInt32) (inodeNo perSec : Nat) :
    (left blockIdx : Nat) → Bytes → Except Fault (Bool × NodeState)
  | 0, _, _ => return (false, s)
  | left + 1, k, ioBuf =>
    if blocks k = 0 then deleteBlocks s blocks inodeNo perSec left (k + 1) ioBuf
    else do
      let ioBuf ← ideRead s.disk (blocks k).toNat (fill ioBuf 0 512 0) 1
      let scan ← scanSector ioBuf inodeNo perSec 0 ⟨false, 0, none⟩
      match scan.dirEntryFound with
      | none => deleteBlocks s blocks inodeNo perSec left (k + 1) ioBuf
      | some j => return (true, ← removeEntry s blocks k j scan ioBuf)

/-- `delete_dir_entry`: `false` when no entry has the number. -/
def deleteDirEntry (s : NodeState) (inodeNo : Nat) (ioBuf : Bytes) :
    Except Fault (Bool × NodeState) := do
  let blocks ← allBlocks s.disk s.inode
  let perSec ← dirEntrysPerSec s.part.sb
  deleteBlocks s blocks inodeNo perSec 140 0 ioBuf

end ZhuOS
