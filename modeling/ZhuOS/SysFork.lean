import ZhuOS.ForkFiles
import ZhuOS.ForkHeap
import ZhuOS.Strings
import ZhuOS.Threads

/-!
# `userprog/fork.c`: `sys_fork`

The call as a whole: four requests for kernel pages, the copy of the PCB with a longer
name, the copy of the pages, the counts of the open inodes and the two lists. A request
that is refused leaves what the ones before it have got.
-/

namespace ZhuOS

open ByteMem

/-! ## The state -/

/-- `char name[16]`. -/
def TASK_NAME_LEN : Nat := 16

/-- What a PCB holds that `fork` copies or changes, besides what the scheduler keeps. -/
structure Pcb where
  selfKstack : Nat
  pid : Int16
  /-- the bytes from `name` on -/
  name : Bytes
  /-- `pgdir` and `userprog_vaddr` of a thread that does not run -/
  task : Task
  uBlockDesc : Nat → MemBlockDesc
  /-- of a thread that does not run -/
  fdTable : Nat → Option Nat
  cwdInodeNr : UInt32
  parentPid : Int16
  /-- `eax` of the `intr_stack` at the end of the page -/
  eax : UInt32

/-- `mem.running` and `fs.fdTable` are the running thread's. -/
structure ForkState where
  mem : Memory
  sched : Threads
  pcb : Nat → Pcb
  fs : Fs
  nextPid : Int16

namespace ForkState

def setPcb (s : ForkState) (t : Nat) (k : Pcb) : ForkState :=
  { s with pcb := Function.update s.pcb t k }

/-- The PCB of the running thread. -/
def parent (s : ForkState) : Pcb := s.pcb s.sched.running

end ForkState

/-! ## The call -/

/-- Step a of `copy_pcb_vaddrbitmap_stack0`: the PCB is copied and some of it changed.
`fork_pid` counts up. -/
def copyPcb (s : ForkState) (child : Nat) : ForkState :=
  let k := s.sched.task s.sched.running
  let pid := s.nextPid + 1
  let sched := s.sched.setTask child
    { k with elapsedTicks := 0, status := .TASK_READY, ticks := k.priority }
  { s with sched, nextPid := pid }.setPcb child { s.parent with
    pid
    parentPid := s.parent.pid
    task := s.mem.running
    fdTable := s.fs.fdTable
    uBlockDesc := blockDescInit }

/-- `DIV_ROUND_UP((0xc0000000 - USER_VADDR_START) / PG_SIZE / 8, PG_SIZE)`. -/
def bitmapPgCnt : Nat := DIV_ROUND_UP ((0xc0000000 - USER_VADDR_START) / PG_SIZE / 8) PG_SIZE

/-- `"_fork"`. -/
def forkSuffix : List UInt8 := [95, 102, 111, 114, 107]

/-- `copy_pcb_vaddrbitmap_stack0`; `false` is its -1. The child's range is the parent's
until the copy has its pages. -/
def copyPcbVaddrbitmapStack0 (s : ForkState) (child : Nat) : Except Fault (Bool × ForkState) := do
  let s := copyPcb s child
  let (vaddrBtmp, mem) ← getKernelPages s.mem bitmapPgCnt
  let s := { s with mem }
  match vaddrBtmp with
  | none => return (false, s)
  | some _ =>
    -- the copied bits are those of `task.userprogVaddr`
    let len := strlenIn (s.pcb child).name TASK_NAME_LEN 0
    ASSERT (len < 11)
    return (true, s.setPcb child { s.pcb child with
      name := strcatAt (s.pcb child).name len forkSuffix })

def SIZEOF_INTR_STACK : Nat := 76

/-- `build_child_stack`: the child returns 0 from its interrupt, with interrupts on. -/
def buildChildStack (s : ForkState) (child : Nat) : ForkState :=
  let intr0Stack := child + PG_SIZE - SIZEOF_INTR_STACK
  { s with sched := s.sched.setTask child { s.sched.task child with resumes := .INTR_ON } }.setPcb
    child { s.pcb child with eax := 0, selfKstack := intr0Stack - 5 * 4 }

/-- `copy_process`. -/
def copyProcess (s : ForkState) (child : Nat) : Except Fault (Bool × ForkState) := do
  let (bufPage, mem) ← getKernelPages s.mem 1
  let s := { s with mem }
  match bufPage with
  | none => return (false, s)
  | some bufPage =>
    match ← copyPcbVaddrbitmapStack0 s child with
    | (false, s) => return (false, s)
    | (true, s) =>
      let (pgdir, mem) ← createPageDir s.mem
      let k := s.pcb child
      let s := { s with mem }.setPcb child { k with task := { k.task with pgdir } }
      match pgdir with
      | none => return (false, s)
      | some _ =>
        let mem ← copyBodyStack3 s.mem pgdir bufPage
        let s := buildChildStack { s with mem } child
        let fs ← updateInodeOpenCnts (MAX_FILES_OPEN_PER_PROC - 3) 3 s.fs
        let mem ← mfreePage s.mem .PF_KERNEL bufPage 1
        return (true, { s with mem, fs })

/-- `sys_fork`: the number of the child; `none` is its -1. -/
def sysFork (s : ForkState) : Except Fault (Option Int16 × ForkState) := do
  let (childThread, mem) ← getKernelPages s.mem 1
  let s := { s with mem }
  match childThread with
  | none => return (none, s)
  | some child =>
    ASSERT (s.sched.intr = .INTR_OFF ∧ s.mem.running.pgdir ≠ none)
    match ← copyProcess s child with
    | (false, s) => return (none, s)
    | (true, s) =>
      ASSERT (child ∉ s.sched.threadReadyList)
      ASSERT (child ∉ s.sched.threadAllList)
      let sched := { s.sched with
        threadReadyList := s.sched.threadReadyList ++ [child]
        threadAllList := s.sched.threadAllList ++ [child] }
      return (some (s.pcb child).pid, { s with sched })

/-! ## What a request for kernel pages takes -/

/-- Pages are only taken, and the running thread is the same. -/
structure TakesPages (m m' : Memory) : Prop where
  size : m'.kernelVaddr.vaddrBitmap.size = m.kernelVaddr.vaddrBitmap.size
  marked : ∀ i, m.kernelVaddr.vaddrBitmap.bit i = true → m'.kernelVaddr.vaddrBitmap.bit i = true
  running : m'.running = m.running

theorem TakesPages.trans {m m' m'' : Memory} (h : TakesPages m m') (h' : TakesPages m' m'') :
    TakesPages m m'' where
  size := h'.size.trans h.size
  marked i hi := h'.marked i (h.marked i hi)
  running := h'.running.trans h.running

/-- A page of the heap that was free is not any more. -/
def TookPage (m m' : Memory) : Prop :=
  ∃ i < m.kernelVaddr.vaddrBitmap.size, m.kernelVaddr.vaddrBitmap.bit i = false ∧
    m'.kernelVaddr.vaddrBitmap.bit i = true

theorem TookPage.trans {m m' m'' : Memory} (h : TookPage m m') (h' : TakesPages m' m'') :
    TookPage m m'' := by
  obtain ⟨i, hi, hfree, htaken⟩ := h
  exact ⟨i, hi, hfree, h'.marked i htaken⟩

theorem pageTableAdd_running {m m' : Memory} {v f : Nat} (h : pageTableAdd m v f = .ok m') :
    m'.running = m.running := by
  obtain ⟨pde, -, h⟩ := bind_ok.mp h
  split at h
  · obtain ⟨_, -, h⟩ := bind_ok.mp h
    obtain ⟨_, -, h⟩ := bind_ok.mp h
    obtain ⟨_, -, h⟩ := bind_ok.mp h
    cases h
    rfl
  · obtain ⟨_, -, h⟩ := bind_ok.mp h
    obtain ⟨_, -, h⟩ := bind_ok.mp h
    obtain ⟨_, -, h⟩ := bind_ok.mp h
    obtain ⟨_, -, h⟩ := bind_ok.mp h
    obtain ⟨_, -, h⟩ := bind_ok.mp h
    obtain ⟨_, -, h⟩ := bind_ok.mp h
    cases h
    rfl

/-- The mapping loop takes frames and leaves the marks; with the `ASSERT` of a scan it
never runs out half way. -/
theorem mapPages_kernel {cnt v : Nat} {m m' : Memory} {r : Bool}
    (h : mapPages .PF_KERNEL cnt v m = .ok (r, m')) :
    r = true ∧ m'.kernelVaddr = m.kernelVaddr ∧ m'.running = m.running := by
  induction cnt generalizing v m with
  | zero =>
    cases h
    exact ⟨rfl, rfl, rfl⟩
  | succ cnt ih =>
    obtain ⟨⟨page, p⟩, hp, h⟩ := bind_ok.mp h
    obtain ⟨_, hscan, hp⟩ := bind_ok.mp hp
    obtain ⟨i, rfl, -, -⟩ := bitmapScan_one_free hscan
    cases hp
    obtain ⟨m₁, hadd, h⟩ := bind_ok.mp h
    obtain ⟨hr, hva, hrun⟩ := ih h
    have hva₁ := pageTableAddIf_vaddr (pageTableAddIf_debug _ _ _ ▸ hadd) .PF_KERNEL
    have hrun₁ := pageTableAdd_running hadd
    exact ⟨hr, hva.trans hva₁, hrun.trans hrun₁⟩

/-- A request marks the run the scan has found, or changes nothing. -/
theorem getKernelPages_ok {m m' : Memory} {n : Nat} {r : Option Nat}
    (h : getKernelPages m n = .ok (r, m')) : m'.running = m.running ∧
      ((bitmapScan m.kernelVaddr.vaddrBitmap n = .ok none ∧ r = none ∧ m' = m) ∨
        ∃ s, bitmapScan m.kernelVaddr.vaddrBitmap n = .ok (some s) ∧ r ≠ none ∧
          m'.kernelVaddr.vaddrBitmap = bitmapSetRun true n s m.kernelVaddr.vaddrBitmap) := by
  obtain ⟨⟨v, m₁⟩, hm, h⟩ := bind_ok.mp h
  obtain ⟨_, -, hm⟩ := bind_ok.mp hm
  obtain ⟨⟨start, m₂⟩, hva, hm⟩ := bind_ok.mp hm
  obtain ⟨found, hscan, hva⟩ := bind_ok.mp hva
  cases found with
  | none =>
    cases hva
    cases hm
    cases h
    exact ⟨rfl, .inl ⟨hscan, rfl, rfl⟩⟩
  | some s =>
    cases hva
    obtain ⟨⟨mapped, m₃⟩, hmap, hm⟩ := bind_ok.mp hm
    obtain ⟨rfl, hvaddr, hrun⟩ := mapPages_kernel hmap
    cases hm
    obtain ⟨mmu, -, h⟩ := bind_ok.mp h
    cases h
    refine ⟨hrun, .inr ⟨s, hscan, nofun, ?_⟩⟩
    exact congrArg VirtualAddr.vaddrBitmap hvaddr

theorem getKernelPages_takes {m m' : Memory} {n : Nat} {r : Option Nat}
    (h : getKernelPages m n = .ok (r, m')) : TakesPages m m' := by
  obtain ⟨hrun, ⟨-, -, rfl⟩ | ⟨s, -, -, hb⟩⟩ := getKernelPages_ok h
  · exact ⟨rfl, fun _ hi => hi, rfl⟩
  · refine ⟨by rw [hb, bitmapSetRun_size], fun i hi => ?_, hrun⟩
    rw [hb, bitmapSetRun_bit, hi, ite_self]

/-- A request for one page is met or fails an `ASSERT`. -/
theorem getKernelPages_one {m m' : Memory} {r : Option Nat}
    (h : getKernelPages m 1 = .ok (r, m')) : r ≠ none ∧ TookPage m m' := by
  obtain ⟨-, ⟨hscan, -, -⟩ | ⟨s, hscan, hr, hb⟩⟩ := getKernelPages_ok h
  · obtain ⟨i, hi, -, -⟩ := bitmapScan_one_free hscan
    cases hi
  · obtain ⟨i, hi, hlt, hfree⟩ := bitmapScan_one_free hscan
    cases hi
    refine ⟨hr, s, hlt, hfree, ?_⟩
    rw [hb, bitmapSetRun_bit, if_pos ⟨Nat.le_refl _, Nat.lt_succ_self _⟩]

theorem createPageDir_some {m m' : Memory} {r : Option Nat} (h : createPageDir m = .ok (r, m')) :
    r ≠ none := by
  obtain ⟨⟨a, m₁⟩, hget, h⟩ := bind_ok.mp h
  have hr := (getKernelPages_one hget).1
  cases a with
  | none => exact absurd rfl hr
  | some a =>
    obtain ⟨_, -, h⟩ := bind_ok.mp h
    cases h
    exact hr

/-! ## A fork that is refused -/

/-- What -1 should leave as it was: the frames and pages of the kernel, the lists and
the counts of the open inodes. -/
structure ForkUndone (s s' : ForkState) : Prop where
  frames : ∀ i < s.mem.kernelPool.poolBitmap.size,
    s'.mem.kernelPool.poolBitmap.bit i = s.mem.kernelPool.poolBitmap.bit i
  pages : ∀ i < s.mem.kernelVaddr.vaddrBitmap.size,
    s'.mem.kernelVaddr.vaddrBitmap.bit i = s.mem.kernelVaddr.vaddrBitmap.bit i
  threadReadyList : s'.sched.threadReadyList = s.sched.threadReadyList
  threadAllList : s'.sched.threadAllList = s.sched.threadAllList
  openCnts : s'.fs.part.openInodes = s.fs.part.openInodes

theorem ForkUndone.not_took {s s' : ForkState} (h : ForkUndone s s') :
    ¬ TookPage s.mem s'.mem := by
  rintro ⟨i, hi, hfree, htaken⟩
  rw [h.pages i hi, hfree] at htaken
  cases htaken

/-- Only the bitmap's request can be refused, and then the transfer page is lost. -/
theorem copyProcess_refused {s s' : ForkState} {child : Nat}
    (h : copyProcess s child = .ok (false, s')) : TakesPages s.mem s'.mem ∧
      s'.sched.threadReadyList = s.sched.threadReadyList ∧
      s'.sched.threadAllList = s.sched.threadAllList ∧ s'.fs = s.fs := by
  obtain ⟨⟨bufPage, m₁⟩, hbuf, h⟩ := bind_ok.mp h
  have hsome := (getKernelPages_one hbuf).1
  have htake := getKernelPages_takes hbuf
  cases bufPage with
  | none => exact absurd rfl hsome
  | some bufPage =>
    obtain ⟨⟨copied, s₂⟩, hpcb, h⟩ := bind_ok.mp h
    cases copied with
    | true =>
      obtain ⟨⟨pgdir, m₃⟩, hdir, h⟩ := bind_ok.mp h
      have hsome := createPageDir_some hdir
      cases pgdir with
      | none => exact absurd rfl hsome
      | some a =>
        obtain ⟨_, -, h⟩ := bind_ok.mp h
        obtain ⟨_, -, h⟩ := bind_ok.mp h
        obtain ⟨_, -, h⟩ := bind_ok.mp h
        cases h
    | false =>
      cases h
      obtain ⟨⟨vaddrBtmp, m₂⟩, hget, hpcb⟩ := bind_ok.mp hpcb
      cases vaddrBtmp with
      | none =>
        cases hpcb
        exact ⟨htake.trans (getKernelPages_takes hget), rfl, rfl, rfl⟩
      | some a =>
        obtain ⟨_, -, hpcb⟩ := bind_ok.mp hpcb
        cases hpcb

/-- A `sys_fork` that returns -1 has lost the page of the child's PCB at the least. -/
theorem sysFork_leaks {s s' : ForkState} (h : sysFork s = .ok (none, s')) :
    ¬ ForkUndone s s' := by
  intro hundone
  obtain ⟨⟨childThread, m₁⟩, hchild, h⟩ := bind_ok.mp h
  obtain ⟨hsome, htook⟩ := getKernelPages_one hchild
  cases childThread with
  | none => exact hsome rfl
  | some child =>
    obtain ⟨_, -, h⟩ := bind_ok.mp h
    obtain ⟨⟨copied, s₂⟩, hcopy, h⟩ := bind_ok.mp h
    cases copied with
    | true =>
      obtain ⟨_, -, h⟩ := bind_ok.mp h
      obtain ⟨_, -, h⟩ := bind_ok.mp h
      cases h
    | false =>
      cases h
      exact hundone.not_took (htook.trans (copyProcess_refused hcopy).1)

/-- No file is open. -/
def noFiles : Fs where
  disk := fun _ => 0
  part := tablePartition
  rootDir := 0
  fileTable := fun _ => ⟨0, 0, none⟩
  fdTable := fun _ => none
  heap := fun _ => true
  junk := fun _ => 0

/-- A process on the PCB page of the main thread, with the name `name`. -/
def forkingProcess (mem : Memory) (name : List UInt8) : ForkState where
  mem
  sched := bootThreads
  pcb := fun _ =>
    ⟨0, 1, fun i => name.getD i 0, mem.running, blockDescInit, fun _ => none, 0, -1, 0⟩
  fs := noFiles
  nextPid := 1

/-- Five pages are left, and the bitmap of the child needs 23. -/
def fivePagesLeft : ForkState := forkingProcess oneParentMemory [105, 110, 105, 116]

theorem fivePagesLeft_refused : ∃ s', sysFork fivePagesLeft = .ok (none, s') ∧
    fivePagesLeft.mem.kernelVaddr.vaddrBitmap.bit 3 = false ∧
    s'.mem.kernelVaddr.vaddrBitmap.bit 3 = true := by
  have h : (match sysFork fivePagesLeft with
      | .ok (none, s') => s'.mem.kernelVaddr.vaddrBitmap.bit 3
      | _ => false) = true := by decide +kernel
  generalize sysFork fivePagesLeft = r at h
  match r, h with
  | .ok (none, s'), h => exact ⟨s', rfl, by decide, h⟩

theorem sysFork_leaks_five : ∃ s', sysFork fivePagesLeft = .ok (none, s') ∧
    ¬ ForkUndone fivePagesLeft s' := by
  obtain ⟨s', h, -⟩ := fivePagesLeft_refused
  exact ⟨s', h, sysFork_leaks h⟩

/-- Page 3 of the heap is lost. -/
theorem fivePagesLeft_lost : ∃ s', sysFork fivePagesLeft = .ok (none, s') ∧
    ¬ ForkUndone fivePagesLeft s' := by
  obtain ⟨s', h, hfree, htaken⟩ := fivePagesLeft_refused
  exact ⟨s', h, fun hundone => hundone.not_took ⟨3, by decide, hfree, htaken⟩⟩

end ZhuOS
