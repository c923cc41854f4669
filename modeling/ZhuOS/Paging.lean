import ZhuOS.KernelPages
import ZhuOS.OutOfPages
import ZhuOS.PageTables

/-!
# Address spaces: `setup_page`, `userprog/process.c` and the copying of `userprog/fork.c`

The loader's page tables, the page directory of a process, and the copying of a
process's pages into another's. Everything goes through the tables that are active when
it runs. The copies are of whole words, at addresses that are multiples of four.
-/

namespace ZhuOS

def USER_VADDR_START : Nat := 0x8048000

/-! ## `boot/loader.S` -/

def PAGE_DIR_TABLE_POS : Nat := 0x100000

def writeWord (phys : PhysMem) (addr value : Nat) : PhysMem :=
  fun f w => if f = addr / 4096 ∧ w = addr % 4096 / 4 then value else phys f w

/-- `.clear_page_dir` -/
def clearPageDir (phys : PhysMem) : PhysMem :=
  fun f w => if f = PAGE_DIR_TABLE_POS / 4096 ∧ w < 1024 then 0 else phys f w

/-- `.create_pte`, the loop: `ecx` entries from `esi` on. -/
def createPte (ebx : Nat) : (ecx esi edx : Nat) → PhysMem → PhysMem
  | 0, _, _, phys => phys
  | ecx + 1, esi, edx, phys =>
    createPte ebx ecx (esi + 1) (edx + 4096) (writeWord phys (ebx + esi * 4) edx)

/-- `.create_kernel_pde`, the loop. -/
def createKernelPde (ebx : Nat) : (ecx esi eax : Nat) → PhysMem → PhysMem
  | 0, _, _, phys => phys
  | ecx + 1, esi, eax, phys =>
    createKernelPde ebx ecx (esi + 1) (eax + 0x1000) (writeWord phys (ebx + esi * 4) eax)

def setupPage (phys : PhysMem) : PhysMem :=
  let phys := clearPageDir phys
  let table := PAGE_DIR_TABLE_POS + 0x1000
  let eax := table ||| PG_US_U ||| PG_RW_W ||| PG_P_1
  let phys := writeWord phys PAGE_DIR_TABLE_POS eax
  let phys := writeWord phys (PAGE_DIR_TABLE_POS + 0xc00) eax
  let phys := writeWord phys (PAGE_DIR_TABLE_POS + 4092) (eax - 0x1000)
  let phys := createPte table 256 0 (PG_US_U ||| PG_RW_W ||| PG_P_1) phys
  let eax := (PAGE_DIR_TABLE_POS + 0x2000) ||| PG_US_U ||| PG_RW_W ||| PG_P_1
  createKernelPde PAGE_DIR_TABLE_POS 254 769 eax phys

/-! ## Pages through the tables -/

/-- `memcpy` of `cnt` words. -/
def Mmu.copyWords : (cnt dst src : Nat) → Mmu → Except Fault Mmu
  | 0, _, _, m => return m
  | cnt + 1, dst, src, m => do
    let m ← m.store dst (← m.load src)
    copyWords cnt (u32 (dst + 4)) (u32 (src + 4)) m

/-- `memset` of `cnt` pages. -/
def Mmu.clearPages : (cnt a : Nat) → Mmu → Except Fault Mmu
  | 0, _, m => return m
  | cnt + 1, a, m => do clearPages cnt (u32 (a + PG_SIZE)) (← m.clearPage a)

def getKernelPages (m : Memory) (pgCnt : Nat) : Except Fault (Option Nat × Memory) := do
  let (vaddr, m) ← mallocPage m .PF_KERNEL pgCnt
  match vaddr with
  | none => return (none, m)
  | some a => return (some a, { m with mmu := ← Mmu.clearPages pgCnt a m.mmu })

/-! ## `userprog/process.c` -/

/-- The directory of a thread: the kernel's own for a kernel thread. -/
def pagedirPhyAddr (m : Memory) : Option Nat → Except Fault Nat
  | none => return 0x100000
  | some pgdir => addrV2p m pgdir

def pageDirActivate (m : Memory) (pgdir : Option Nat) : Except Fault Memory := do
  let pagedirPhyAddr ← pagedirPhyAddr m pgdir
  return { m with mmu := { m.mmu with cr3 := pagedirPhyAddr } }

/-- `create_page_dir` on its new page: the kernel's entries are copied, and the last one
leads to the directory itself. -/
def fillPageDir (m : Memory) (pageDirVaddr : Nat) : Except Fault Memory := do
  let mmu ← Mmu.copyWords 256 (pageDirVaddr + 0x300 * 4) (0xfffff000 + 0x300 * 4) m.mmu
  let newPageDirPhyAddr ← addrV2p { m with mmu } pageDirVaddr
  let entry := newPageDirPhyAddr ||| PG_US_U ||| PG_RW_W ||| PG_P_1
  return { m with mmu := ← mmu.store (pageDirVaddr + 1023 * 4) entry }

def createPageDir (m : Memory) : Except Fault (Option Nat × Memory) := do
  let (pageDirVaddr, m) ← getKernelPages m 1
  match pageDirVaddr with
  | none => return (none, m)
  | some a => return (some a, ← fillPageDir m a)

/-- The pages `create_user_vaddr_bitmap` gives a process, with any of them marked. -/
def userRange (bits : Nat → UInt8) : VirtualAddr :=
  ⟨⟨(0xc0000000 - USER_VADDR_START) / PG_SIZE / 8, bits⟩, USER_VADDR_START⟩

/-! ## `userprog/fork.c` -/

/-- One page of the parent, by way of `bufPage`. -/
def copyPage (child parent : Option Nat) (bufPage progVaddr : Nat) (m : Memory) :
    Except Fault Memory := do
  let mmu ← Mmu.copyWords 1024 bufPage progVaddr m.mmu
  let m ← pageDirActivate { m with mmu } child
  let (_, m) ← getAPageWithoutOpvaddrbitmap true m .PF_USER progVaddr
  let mmu ← Mmu.copyWords 1024 progVaddr bufPage m.mmu
  pageDirActivate { m with mmu } parent

/-- The inner loop of `copy_body_stack3`, over the bits of a byte. -/
def copyByte (copy : Nat → Memory → Except Fault Memory) (byte : UInt8) (idxByte : Nat) :
    (left idxBit : Nat) → Memory → Except Fault Memory
  | 0, _, m => return m
  | left + 1, idxBit, m => do
    let m ← if PackedBits.mask idxBit &&& byte ≠ 0 then copy (idxByte * 8 + idxBit) m
      else pure m
    copyByte copy byte idxByte left (idxBit + 1) m

/-- The outer one. -/
def copyBytes (copy : Nat → Memory → Except Fault Memory) (vaddrBtmp : Nat → UInt8) :
    (left idxByte : Nat) → Memory → Except Fault Memory
  | 0, _, m => return m
  | left + 1, idxByte, m => do
    let m ← if vaddrBtmp idxByte ≠ 0 then copyByte copy (vaddrBtmp idxByte) idxByte 8 0 m
      else pure m
    copyBytes copy vaddrBtmp left (idxByte + 1) m

/-- `copy_body_stack3`; the parent is the running process. -/
def copyBodyStack3 (m : Memory) (child : Option Nat) (bufPage : Nat) : Except Fault Memory :=
  let range := m.running.userprogVaddr
  let copy (idx : Nat) :=
    copyPage child m.running.pgdir bufPage (u32 (idx * PG_SIZE + range.vaddrStart))
  copyBytes copy range.vaddrBitmap.bits range.vaddrBitmap.btmpBytesLen 0 m

/-! ## Processes -/

/-- The memory and the processes: the page of each one's directory and the pages it has
marked while it does not run. `live` are the ranges of kernel pages that are in use. -/
structure Processes where
  mem : Memory
  pgdir : Nat → Option Nat
  userprogVaddr : Nat → VirtualAddr
  current : Option Nat
  next : Nat
  live : List PageRange

inductive PagingCall
  /-- `process_activate` of a process, or of a kernel thread -/
  | switch (next : Option Nat)
  /-- `create_page_dir` for a new process with these pages marked -/
  | createPageDir (bits : Nat → UInt8)
  | getAPage (pf : PoolFlags) (vaddr : Nat)
  | mallocPage (pf : PoolFlags) (pgCnt : Nat)
  | copyBodyStack3 (child bufPage : Nat)
  | mfreePage (r : PageRange)
  /-- a word is written: by the process to its own half, by the kernel to its heap -/
  | write (vaddr value : Nat)

namespace Processes

def kernelTask : Task := ⟨none, ⟨⟨0, fun _ => 0⟩, 0⟩⟩

/-- The running process's range is kept, and the next one's is taken up. -/
def switch (w : Processes) (next : Option Nat) : Except Fault Processes := do
  let mem ← pageDirActivate w.mem (next.bind w.pgdir)
  let userprogVaddr d :=
    if w.current = some d then w.mem.running.userprogVaddr else w.userprogVaddr d
  let running := match next with
    | none => kernelTask
    | some d => ⟨w.pgdir d, userprogVaddr d⟩
  return { w with mem := { mem with running }, userprogVaddr, current := next }

/-- A page of the heap that is in use and is no directory. -/
def Writable (w : Processes) (page : Nat) : Prop :=
  (∃ r ∈ w.live, r.Covers page) ∧ ∀ d, w.pgdir d ≠ some page

/-- A process asks for pages of its own and a kernel thread for pages of the heap. What is
released is in use, and no directory that is active; the process of a released directory
is over. -/
def guard (w : Processes) : PagingCall → Prop
  | .switch next => ∀ d, next = some d → w.pgdir d ≠ none
  | .createPageDir _ => True
  | .getAPage .PF_KERNEL vaddr => K_HEAP_START ≤ vaddr ∧
      (vaddr - K_HEAP_START) / PG_SIZE < w.mem.kernelVaddr.vaddrBitmap.size
  | .getAPage .PF_USER vaddr => USER_VADDR_START ≤ vaddr ∧ vaddr < 0xc0000000
  | .mallocPage _ _ => True
  | .copyBodyStack3 child bufPage => w.current ≠ none ∧ w.current ≠ some child ∧
      w.pgdir child ≠ none ∧ bufPage % PG_SIZE = 0 ∧ w.Writable bufPage
  | .mfreePage r => r ∈ w.live ∧ ∀ a, w.mem.running.pgdir = some a → ¬ r.Covers a
  | .write vaddr value => value < 2 ^ 32 ∧
      (vaddr < 0xc0000000 ∧ w.current ≠ none ∨ w.Writable (vaddr / PG_SIZE * PG_SIZE))

def exec (w : Processes) : PagingCall → Except Fault Processes
  | .switch next => w.switch next
  | .createPageDir bits => do
    let (a, mem) ← ZhuOS.createPageDir w.mem
    match a with
    | none => return { w with mem }
    | some a => return { w with
        mem
        pgdir := fun d => if d = w.next then some a else w.pgdir d
        userprogVaddr := fun d => if d = w.next then userRange bits else w.userprogVaddr d
        next := w.next + 1
        live := ⟨a, 1⟩ :: w.live }
  | .getAPage pf vaddr => do
    let (a, mem) ← ZhuOS.getAPage true w.mem pf vaddr
    match a, pf with
    | some a, .PF_KERNEL => return { w with mem, live := ⟨a / PG_SIZE * PG_SIZE, 1⟩ :: w.live }
    | _, _ => return { w with mem }
  | .mallocPage pf pgCnt => do
    let (a, mem) ← ZhuOS.mallocPage w.mem pf pgCnt
    match a, pf with
    | some a, .PF_KERNEL => return { w with mem, live := ⟨a, pgCnt⟩ :: w.live }
    | _, _ => return { w with mem }
  | .copyBodyStack3 child bufPage => do
    return { w with mem := ← ZhuOS.copyBodyStack3 w.mem (w.pgdir child) bufPage }
  | .mfreePage r => do
    let mem ← ZhuOS.mfreePage w.mem .PF_KERNEL r.vaddr r.pgCnt
    return { w with
      mem
      pgdir := fun d => (w.pgdir d).filter fun a =>
        decide ¬ (r.vaddr ≤ a ∧ a < r.vaddr + PG_SIZE * r.pgCnt)
      live := w.live.erase r }
  | .write vaddr value => do
    return { w with mem := { w.mem with mmu := ← w.mem.mmu.store vaddr value } }

def system : Guarded.System Processes PagingCall Fault := ⟨guard, exec⟩

/-- The kernel's first thread, after `mem_pool_init`, over whatever memory held at boot. -/
def boot (phys : PhysMem) (byteAt : Nat → UInt8) (allMem : Nat) : Processes where
  mem := memPoolInit ⟨setupPage phys, PAGE_DIR_TABLE_POS⟩ kernelTask byteAt allMem
  pgdir := fun _ => none
  userprogVaddr := fun _ => userRange fun _ => 0
  current := none
  next := 0
  live := []

/-- The tables of a process, or the kernel's own. -/
def space (w : Processes) (d : Option Nat) : Except Fault Mmu := do
  return { w.mem.mmu with cr3 := ← pagedirPhyAddr w.mem (d.bind w.pgdir) }

end Processes

end ZhuOS
