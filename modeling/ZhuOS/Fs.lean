import ZhuOS.Bitmap
import ZhuOS.Ide

/-!
# The file system's records

The records as they lie on disk, byte for byte, and the state the functions of
`fs/` share. Fields the source declares `uint32_t` are `UInt32`; their values
are taken as `Nat` where they index an array or address a sector.
-/

namespace ZhuOS

open ByteMem

def MAX_FILES_PER_PART : UInt32 := 4096
def BITS_PER_SECTOR : UInt32 := 4096
def SECTOR_SIZE : UInt32 := 512
def MAX_FILE_NAME_LEN : Nat := 16
def MAX_PATH_LEN : Nat := 512
def MAX_FILE_OPEN : Nat := 32
def MAX_FILES_OPEN_PER_PROC : Nat := 8

def FT_UNKNOWN : UInt32 := 0
def FT_REGULAR : UInt32 := 1
def FT_DIRECTORY : UInt32 := 2

/-- `struct super_block`, one sector. -/
structure SuperBlock where
  magic : UInt32
  secCnt : UInt32
  inodeCnt : UInt32
  partLbaBase : UInt32
  blockBitmapLba : UInt32
  blockBitmapSects : UInt32
  inodeBitmapLba : UInt32
  inodeBitmapSects : UInt32
  inodeTableLba : UInt32
  inodeTableSects : UInt32
  dataStartLba : UInt32
  rootInodeNo : UInt32
  dirEntrySize : UInt32
  pad : Bytes

def SuperBlock.word (sb : SuperBlock) : Nat → UInt32
  | 0 => sb.magic
  | 1 => sb.secCnt
  | 2 => sb.inodeCnt
  | 3 => sb.partLbaBase
  | 4 => sb.blockBitmapLba
  | 5 => sb.blockBitmapSects
  | 6 => sb.inodeBitmapLba
  | 7 => sb.inodeBitmapSects
  | 8 => sb.inodeTableLba
  | 9 => sb.inodeTableSects
  | 10 => sb.dataStartLba
  | 11 => sb.rootInodeNo
  | _ => sb.dirEntrySize

def SuperBlock.toBytes (sb : SuperBlock) : Bytes :=
  fun i => if i < 52 then packWords sb.word i else sb.pad (i - 52)

def SuperBlock.ofBytes (b : Bytes) : SuperBlock where
  magic := getWord b 0
  secCnt := getWord b 4
  inodeCnt := getWord b 8
  partLbaBase := getWord b 12
  blockBitmapLba := getWord b 16
  blockBitmapSects := getWord b 20
  inodeBitmapLba := getWord b 24
  inodeBitmapSects := getWord b 28
  inodeTableLba := getWord b 32
  inodeTableSects := getWord b 36
  dataStartLba := getWord b 40
  rootInodeNo := getWord b 44
  dirEntrySize := getWord b 48
  pad := fun i => b (52 + i)

/-- `sizeof(struct inode)`. -/
def SIZEOF_INODE : Nat := 76

/-- `struct inode` but for `inode_tag`, which is the list it is in. -/
structure Inode where
  iNo : UInt32
  iSize : UInt32
  iOpenCnts : UInt32
  writeDeny : Bool
  /-- 13 addresses; the last is the indirect table's -/
  iSectors : Nat → UInt32

namespace Inode

/-- The record on disk as words: the tag is `NULL`, and the bytes after
`write_deny` are padding. -/
def word (nd : Inode) : Nat → UInt32
  | 0 => nd.iNo
  | 1 => nd.iSize
  | 2 => nd.iOpenCnts
  | 3 => if nd.writeDeny then 1 else 0
  | k + 4 => if k < 13 then nd.iSectors k else 0

def toBytes (nd : Inode) : Bytes := packWords nd.word

def ofBytes (b : Bytes) : Inode where
  iNo := getWord b 0
  iSize := getWord b 4
  iOpenCnts := getWord b 8
  writeDeny := b 12 != 0
  iSectors := fun k => if k < 13 then getWord b (16 + 4 * k) else 0

/-- What of an inode is kept on disk. -/
structure SameStored (a b : Inode) : Prop where
  iNo : a.iNo = b.iNo
  iSize : a.iSize = b.iSize
  iSectors : ∀ k < 13, a.iSectors k = b.iSectors k

theorem ofBytes_congr {a b : Bytes} (h : ∀ i < SIZEOF_INODE, a i = b i) :
    ofBytes a = ofBytes b := by
  unfold SIZEOF_INODE at h
  have hw : ∀ off, off + 4 ≤ 76 → getWord a off = getWord b off :=
    fun off ho => getWord_congr fun i hi => h _ (by omega)
  simp only [ofBytes, hw 0 (by decide), hw 4 (by decide), hw 8 (by decide), h 12 (by decide),
    mk.injEq, true_and]
  funext k
  split
  · exact hw _ (by omega)
  · rfl

theorem ofBytes_toBytes (nd : Inode) : SameStored (ofBytes nd.toBytes) nd := by
  refine ⟨getWord_packWords nd.word 0, getWord_packWords nd.word 1, fun k hk => ?_⟩
  have := getWord_packWords nd.word (k + 4)
  rw [show 4 * (k + 4) = 16 + 4 * k by omega] at this
  simp only [ofBytes, toBytes, if_pos hk, this, word]

theorem SameStored.symm {a b : Inode} (h : SameStored a b) : SameStored b a :=
  ⟨h.iNo.symm, h.iSize.symm, fun k hk => (h.iSectors k hk).symm⟩

theorem SameStored.trans {a b c : Inode} (h : SameStored a b) (h' : SameStored b c) :
    SameStored a c :=
  ⟨h.iNo.trans h'.iNo, h.iSize.trans h'.iSize,
    fun k hk => (h.iSectors k hk).trans (h'.iSectors k hk)⟩

end Inode

/-- `sizeof(struct dir_entry)`. -/
def SIZEOF_DIR_ENTRY : Nat := 24

structure DirEntry where
  filename : Bytes
  iNo : UInt32
  fType : UInt32

namespace DirEntry

def word (de : DirEntry) : Nat → UInt32
  | 0 => de.iNo
  | _ => de.fType

def toBytes (de : DirEntry) : Bytes :=
  fun i => if i < 16 then de.filename i else packWords de.word (i - 16)

def ofBytes (b : Bytes) : DirEntry where
  filename := fun i => if i < 16 then b i else 0
  iNo := getWord b 16
  fType := getWord b 20

/-- The file name as a C string; 16 bytes without a zero are no name that fits. -/
def name (de : DirEntry) : List UInt8 :=
  ((List.range MAX_FILE_NAME_LEN).map de.filename).takeWhile (· ≠ 0)

theorem ofBytes_congr {a b : Bytes} (h : ∀ i < SIZEOF_DIR_ENTRY, a i = b i) :
    ofBytes a = ofBytes b := by
  unfold SIZEOF_DIR_ENTRY at h
  have hw : ∀ off, off + 4 ≤ 24 → getWord a off = getWord b off :=
    fun off ho => getWord_congr fun i hi => h _ (by omega)
  simp only [ofBytes, hw 16 (by decide), hw 20 (by decide), mk.injEq, and_true]
  funext i
  split
  · exact h i (by omega)
  · rfl

theorem ofBytes_toBytes (de : DirEntry) : (ofBytes de.toBytes).name = de.name ∧
    (ofBytes de.toBytes).iNo = de.iNo ∧ (ofBytes de.toBytes).fType = de.fType := by
  have hword : ∀ k, getWord de.toBytes (16 + 4 * k) = de.word k := by
    intro k
    rw [← getWord_packWords de.word k]
    apply getWord_congr
    intro i _
    simp only [toBytes]
    rw [if_neg (by omega), show 16 + 4 * k + i - 16 = 4 * k + i by omega]
  have hname : ∀ i ∈ List.range MAX_FILE_NAME_LEN, (ofBytes de.toBytes).filename i =
      de.filename i := by
    intro i hi
    have hi : i < 16 := List.mem_range.mp hi
    simp only [ofBytes, toBytes, if_pos hi]
  exact ⟨by rw [name, name, List.map_congr_left hname], hword 0, hword 1⟩

end DirEntry

/-- An inode on the list `open_inodes`, with the address it has in memory. -/
structure OpenInode where
  ref : Nat
  inode : Inode

/-- `struct partition`; the disk is a parameter of its own. -/
structure Partition where
  startLba : UInt32
  secCnt : UInt32
  name : List UInt8
  sb : SuperBlock
  blockBitmap : Bitmap
  inodeBitmap : Bitmap
  openInodes : List OpenInode

structure File where
  fdPos : UInt32
  fdFlag : UInt32
  /-- the address of the inode -/
  fdInode : Option Nat

/-- The state the functions of `fs/` share, seen from the running thread. -/
structure Fs where
  disk : Bytes
  /-- `cur_part` -/
  part : Partition
  /-- the inode of `root_dir` -/
  rootDir : Nat
  fileTable : Nat → File
  /-- the thread's `fd_table`; `none` is -1 -/
  fdTable : Nat → Option Nat
  /-- which of the coming `sys_malloc` calls find memory -/
  heap : Nat → Bool
  /-- what a local holds that nobody has set -/
  junk : Bytes

/-- One answer of `sys_malloc`: whether there is memory. No bytes are never found. -/
def askMalloc (heap : Nat → Bool) (size : Nat) : Bool × (Nat → Bool) :=
  (heap 0 && decide (0 < size), fun k => heap (k + 1))

/-- `PANIC` unless `c`. -/
def orPanic (c : Bool) : Except Fault Unit := if c then .ok () else .error .panic

/-- A use of a pointer that must not be `NULL`. -/
def orNull (c : Bool) : Except Fault Unit := if c then .ok () else .error .badAddress

@[simp] theorem orPanic_true : orPanic true = .ok () := rfl

@[simp] theorem orNull_true : orNull true = .ok () := rfl

end ZhuOS
