import ZhuOS.KernelPages
import ZhuOS.Lib.Slab

/-!
# `sys_malloc` and `sys_free`

Small blocks are cut from one-page arenas and kept on a free list for each size
class, larger requests get an arena of whole pages. The header of a block's
arena is found by masking the block's address. `Block` and the list of live
blocks are the callers' side; the free lists and counters are the code's.
-/

namespace ZhuOS

open PackedBits Slab

def DESC_CNT : Nat := 7

/-- `sizeof(struct arena)`. -/
def SIZEOF_ARENA : Nat := 12

def DIV_ROUND_UP (x step : Nat) : Nat := u32 (x + step - 1) / step

/-- A pointer into `k_block_descs`, or into the `u_block_desc` of the process with this page
directory. -/
structure DescPtr where
  pgdir : Option Nat
  idx : Nat
  deriving DecidableEq, Repr

/-- `struct arena`; `desc` is `none` where the source has `NULL`. -/
structure Arena where
  desc : Option DescPtr
  cnt : Nat
  large : Bool
  deriving DecidableEq, Repr

structure MemBlockDesc where
  blockSize : Nat
  blocksPerArena : Nat
  /-- the addresses of the blocks -/
  freeList : List Nat

structure Heap where
  mem : Memory
  /-- the `struct arena` at the start of each page -/
  arenaAt : Nat → Arena
  descs : DescPtr → MemBlockDesc

def blockDescInit (descIdx : Nat) : MemBlockDesc :=
  let blockSize := 16 * 2 ^ descIdx
  { blockSize, blocksPerArena := (PG_SIZE - SIZEOF_ARENA) / blockSize, freeList := [] }

/-- `arena2block`, given the block size of the arena's class. -/
def arena2block (blockSize a idx : Nat) : Nat := a + SIZEOF_ARENA + idx * blockSize

def block2arena (b : Nat) : Nat := b &&& 0xfffff000

namespace Heap

def setArena (h : Heap) (a : Nat) (hd : Arena) : Heap :=
  { h with arenaAt := Function.update h.arenaAt a hd }

def setFreeList (h : Heap) (d : DescPtr) (l : List Nat) : Heap :=
  { h with descs := Function.update h.descs d { h.descs d with freeList := l } }

@[simp] theorem setArena_mem (h : Heap) (a : Nat) (hd : Arena) :
    (h.setArena a hd).mem = h.mem := rfl

@[simp] theorem setArena_descs (h : Heap) (a : Nat) (hd : Arena) :
    (h.setArena a hd).descs = h.descs := rfl

@[simp] theorem setFreeList_mem (h : Heap) (d : DescPtr) (l : List Nat) :
    (h.setFreeList d l).mem = h.mem := rfl

@[simp] theorem setFreeList_arenaAt (h : Heap) (d : DescPtr) (l : List Nat) :
    (h.setFreeList d l).arenaAt = h.arenaAt := rfl

@[simp] theorem setFreeList_self (h : Heap) (d : DescPtr) (l : List Nat) :
    (h.setFreeList d l).descs d = { h.descs d with freeList := l } :=
  Function.update_self ..

/-- Reading a header through the page tables. -/
def readArena (h : Heap) (a : Nat) : Except Fault Arena := do
  let _ ← h.mem.mmu.walk a
  return h.arenaAt a

/-- Which pool the running thread allocates from. -/
def poolFlags (h : Heap) : PoolFlags :=
  if h.mem.running.pgdir = none then .PF_KERNEL else .PF_USER

end Heap

/-- `lock_acquire` by the thread that runs, which no other keeps waiting. -/
def lockAcquire (m : Memory) (pf : PoolFlags) : Memory :=
  m.setPool { m.pool pf with lockDepth := (m.pool pf).lockDepth + 1 } pf

def lockRelease (m : Memory) (pf : PoolFlags) : Except Fault Memory := do
  ASSERT (0 < (m.pool pf).lockDepth)
  return m.setPool { m.pool pf with lockDepth := (m.pool pf).lockDepth - 1 } pf

/-- The first size class, from `descIdx` on, that `size` fits in. -/
def findDesc (descs : Nat → MemBlockDesc) (size : Nat) : (left descIdx : Nat) → Nat
  | 0, descIdx => descIdx
  | left + 1, descIdx =>
    if size ≤ (descs descIdx).blockSize then descIdx else findDesc descs size left (descIdx + 1)

/-- `memset(a, 0, page_cnt * PG_SIZE)`, as far as headers are concerned. -/
def clearArenas (a pageCnt : Nat) (arenaAt : Nat → Arena) : Nat → Arena :=
  fun x => if a ≤ x ∧ x < a + pageCnt * PG_SIZE then ⟨none, 0, false⟩ else arenaAt x

/-- The blocks of a new arena are put on the free list. -/
def appendBlocks (blockSize a : Nat) : (left blockIdx : Nat) → List Nat → Except Fault (List Nat)
  | 0, _, l => return l
  | left + 1, blockIdx, l => do
    let b := arena2block blockSize a blockIdx
    ASSERT (b ∉ l)
    appendBlocks blockSize a left (blockIdx + 1) (l ++ [b])

/-- The blocks of an arena that leaves are taken off it. -/
def removeBlocks (blockSize a : Nat) : (left blockIdx : Nat) → List Nat → Except Fault (List Nat)
  | 0, _, l => return l
  | left + 1, blockIdx, l => do
    let b := arena2block blockSize a blockIdx
    ASSERT (b ∈ l)
    removeBlocks blockSize a left (blockIdx + 1) (l.erase b)

/-- `sys_malloc` above 1024 bytes, with the lock held. -/
def mallocLarge (h : Heap) (pf : PoolFlags) (size : Nat) : Except Fault (Option Nat × Heap) := do
  let pageCnt := DIV_ROUND_UP (size + SIZEOF_ARENA) PG_SIZE
  let (a, mem) ← mallocPage h.mem pf pageCnt
  match a with
  | none => return (none, { h with mem := ← lockRelease mem pf })
  | some a =>
    let h := { h with mem, arenaAt := clearArenas a pageCnt h.arenaAt }
    let h := h.setArena a { desc := none, cnt := pageCnt, large := true }
    return (some (a + SIZEOF_ARENA), { h with mem := ← lockRelease mem pf })

/-- A new arena for a size class whose free list is empty. -/
def newArena (h : Heap) (pf : PoolFlags) (d : DescPtr) : Except Fault (Option Nat × Heap) := do
  let (a, mem) ← mallocPage h.mem pf 1
  match a with
  | none => return (none, { h with mem })
  | some a =>
    let cnt := (h.descs d).blocksPerArena
    let h := { h with mem, arenaAt := clearArenas a 1 h.arenaAt }
    let h := h.setArena a { desc := some d, cnt, large := false }
    let l ← appendBlocks (h.descs d).blockSize a cnt 0 (h.descs d).freeList
    return (some a, h.setFreeList d l)

/-- The first block of a free list is taken; an empty list has no block. -/
def takeBlock (h : Heap) (pf : PoolFlags) (d : DescPtr) : Except Fault (Option Nat × Heap) := do
  match (h.descs d).freeList with
  | [] => throw .badAddress
  | b :: l =>
    let h := h.setFreeList d l
    let a := block2arena b
    let hd ← h.readArena a
    let h := h.setArena a { hd with cnt := sub32 hd.cnt 1 }
    return (some b, { h with mem := ← lockRelease h.mem pf })

/-- `sys_malloc` up to 1024 bytes, with the lock held. -/
def mallocSmall (h : Heap) (pf : PoolFlags) (size : Nat) : Except Fault (Option Nat × Heap) := do
  let owner := h.mem.running.pgdir
  let descIdx := findDesc (fun i => h.descs ⟨owner, i⟩) size DESC_CNT 0
  if DESC_CNT ≤ descIdx then throw .outOfBounds
  let d : DescPtr := ⟨owner, descIdx⟩
  if (h.descs d).freeList = [] then
    let (a, h) ← newArena h pf d
    match a with
    | none => return (none, { h with mem := ← lockRelease h.mem pf })
    | some _ => takeBlock h pf d
  else takeBlock h pf d

def sysMalloc (h : Heap) (size : Nat) : Except Fault (Option Nat × Heap) := do
  let pf := h.poolFlags
  if ¬ (0 < size ∧ size < (h.mem.pool pf).poolSize) then return (none, h)
  let h := { h with mem := lockAcquire h.mem pf }
  if 1024 < size then mallocLarge h pf size else mallocSmall h pf size

/-- A block of a size class goes back, and with the last one the arena. -/
def freeSmall (h : Heap) (pf : PoolFlags) (ptr : Nat) (hd : Arena) : Except Fault Heap := do
  let a := block2arena ptr
  match hd.desc with
  | none => throw .badAddress
  | some d =>
    let h := h.setFreeList d ((h.descs d).freeList ++ [ptr])
    let h := h.setArena a { hd with cnt := u32 (hd.cnt + 1) }
    let desc := h.descs d
    if u32 (hd.cnt + 1) = desc.blocksPerArena then
      let l ← removeBlocks desc.blockSize a desc.blocksPerArena 0 desc.freeList
      return { h.setFreeList d l with mem := ← mfreePage h.mem pf a 1 }
    else return h

def sysFree (h : Heap) (ptr : Nat) : Except Fault Heap := do
  ASSERT (ptr ≠ 0)
  let pf := h.poolFlags
  if pf = .PF_KERNEL then ASSERT (K_HEAP_START ≤ ptr)
  let h := { h with mem := lockAcquire h.mem pf }
  let a := block2arena ptr
  let hd ← h.readArena a
  let h ←
    if hd.desc = none ∧ hd.large = true then
      (do return { h with mem := ← mfreePage h.mem pf a hd.cnt })
    else freeSmall h pf ptr hd
  return { h with mem := ← lockRelease h.mem pf }

/-- The heap as `mem_init` leaves it; `arenaAt` is whatever the pages hold. -/
def Heap.init (mem : Memory) (arenaAt : Nat → Arena) : Heap :=
  { mem, arenaAt
    descs := fun d => blockDescInit d.idx }

end ZhuOS
