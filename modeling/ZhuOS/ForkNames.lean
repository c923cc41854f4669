import ZhuOS.SysFork

/-!
# The names along a chain of forks

Every generation appends `_fork` to the name it inherits, and a fork takes names of
fewer than 11 bytes. How far a chain gets depends on the name it starts from.
-/

namespace ZhuOS

open ByteMem

/-! ## One fork -/

@[simp] theorem ForkState.setPcb_self (s : ForkState) (t : Nat) (k : Pcb) :
    (s.setPcb t k).pcb t = k := Function.update_self ..

/-- The name the child of `s` gets. -/
def childName (s : ForkState) : Bytes :=
  strcatAt s.parent.name (strlenIn s.parent.name TASK_NAME_LEN 0) forkSuffix

theorem copyProcess_name {s s' : ForkState} {child : Nat}
    (h : copyProcess s child = .ok (true, s')) :
    s'.sched.threadAllList = s.sched.threadAllList ∧
      strlenIn s.parent.name TASK_NAME_LEN 0 < 11 ∧ (s'.pcb child).name = childName s := by
  obtain ⟨⟨bufPage, m₁⟩, -, h⟩ := bind_ok.mp h
  cases bufPage with
  | none => cases h
  | some bufPage =>
    obtain ⟨⟨copied, s₂⟩, hpcb, h⟩ := bind_ok.mp h
    cases copied with
    | false => cases h
    | true =>
      obtain ⟨⟨vaddrBtmp, m₂⟩, -, hpcb⟩ := bind_ok.mp hpcb
      cases vaddrBtmp with
      | none => cases hpcb
      | some a =>
        obtain ⟨_, hlen, hpcb⟩ := bind_ok.mp hpcb
        cases hpcb
        obtain ⟨⟨pgdir, m₃⟩, -, h⟩ := bind_ok.mp h
        cases pgdir with
        | none => cases h
        | some d =>
          obtain ⟨m₄, -, h⟩ := bind_ok.mp h
          obtain ⟨fs, -, h⟩ := bind_ok.mp h
          obtain ⟨m₅, -, h⟩ := bind_ok.mp h
          cases h
          have hlen := ASSERT_ok hlen
          simp only [copyPcb, ForkState.setPcb_self] at hlen
          refine ⟨rfl, hlen, ?_⟩
          simp only [buildChildStack, copyPcb, ForkState.setPcb_self]
          rfl

/-- What a fork that returns a number has made of the name. -/
theorem sysFork_name {s s' : ForkState} {pid : Int16} (h : sysFork s = .ok (some pid, s')) :
    ∃ child, s'.sched.threadAllList = s.sched.threadAllList ++ [child] ∧
      strlenIn s.parent.name TASK_NAME_LEN 0 < 11 ∧ (s'.pcb child).name = childName s := by
  obtain ⟨⟨childThread, m₁⟩, -, h⟩ := bind_ok.mp h
  cases childThread with
  | none => cases h
  | some child =>
    obtain ⟨_, -, h⟩ := bind_ok.mp h
    obtain ⟨⟨copied, s₂⟩, hcopy, h⟩ := bind_ok.mp h
    cases copied with
    | false => cases h
    | true =>
      obtain ⟨hall, hlen, hname⟩ := copyProcess_name hcopy
      obtain ⟨_, -, h⟩ := bind_ok.mp h
      obtain ⟨_, -, h⟩ := bind_ok.mp h
      cases h
      exact ⟨child, congrArg (· ++ [child]) hall, hlen, hname⟩

/-- Each request of a fork for memory is met, and its copies and its release go through. -/
def MemoryAvailable (m : Memory) (child : Nat) : Prop :=
  ∃ m₁ bufPage m₂ vaddrBtmp m₃ pgdir m₄ m₅ m₆, getKernelPages m 1 = .ok (some child, m₁) ∧
    getKernelPages m₁ 1 = .ok (some bufPage, m₂) ∧
    getKernelPages m₂ bitmapPgCnt = .ok (some vaddrBtmp, m₃) ∧
    createPageDir m₃ = .ok (some pgdir, m₄) ∧ copyBodyStack3 m₄ (some pgdir) bufPage = .ok m₅ ∧
    mfreePage m₅ .PF_KERNEL bufPage 1 = .ok m₆

/-- A process in a system call whose files are open; there is memory, and the page of
the child's PCB is no thread's. -/
structure CanFork (s : ForkState) (child : Nat) : Prop where
  intr : s.sched.intr = .INTR_OFF
  process : s.mem.running.pgdir ≠ none
  memory : MemoryAvailable s.mem child
  ready : child ∉ s.sched.threadReadyList
  all : child ∉ s.sched.threadAllList
  files : ∃ fs, updateInodeOpenCnts (MAX_FILES_OPEN_PER_PROC - 3) 3 s.fs = .ok fs

/-- The part of `copy_process` before the `ASSERT` on the name. -/
theorem copyPcbVaddrbitmapStack0_can {s : ForkState} {child a len : Nat} {m : Memory}
    (h : getKernelPages s.mem bitmapPgCnt = .ok (some a, m))
    (hlen : strlenIn s.parent.name TASK_NAME_LEN 0 = len) :
    if len < 11 then
      ∃ s', copyPcbVaddrbitmapStack0 s child = .ok (true, s') ∧ s'.mem = m ∧ s'.fs = s.fs ∧
        s'.sched.threadReadyList = s.sched.threadReadyList ∧
        s'.sched.threadAllList = s.sched.threadAllList
    else copyPcbVaddrbitmapStack0 s child = .error .panic := by
  have hmem : (copyPcb s child).mem = s.mem := rfl
  have hname : ((copyPcb s child).pcb child).name = s.parent.name := by
    simp only [copyPcb, ForkState.setPcb_self]
  simp only [copyPcbVaddrbitmapStack0, hmem, h, ok_bind, hname, hlen]
  split
  · rename_i hshort
    rw [ASSERT_true hshort]
    exact ⟨_, rfl, rfl, rfl, rfl, rfl⟩
  · rename_i hlong
    rw [ASSERT_false hlong]
    rfl

/-- With memory available the length of the name decides. -/
theorem sysFork_can {s : ForkState} {child : Nat} (h : CanFork s child) :
    if strlenIn s.parent.name TASK_NAME_LEN 0 < 11 then ∃ pid s', sysFork s = .ok (some pid, s')
    else sysFork s = .error .panic := by
  obtain ⟨m₁, bufPage, m₂, vaddrBtmp, m₃, pgdir, m₄, m₅, m₆, h₁, h₂, h₃, h₄, h₅, h₆⟩ := h.memory
  obtain ⟨fs, hfs⟩ := h.files
  have hrun := (getKernelPages_takes h₁).running
  have hintr : s.sched.intr = .INTR_OFF ∧ m₁.running.pgdir ≠ none :=
    ⟨h.intr, by rw [hrun]; exact h.process⟩
  generalize hlen : strlenIn s.parent.name TASK_NAME_LEN 0 = len
  have hpcb : if len < 11 then _ else _ :=
    @copyPcbVaddrbitmapStack0_can { s with mem := m₂ } child _ _ _ h₃ hlen
  split
  · rename_i hshort
    rw [if_pos hshort] at hpcb
    obtain ⟨s₃, hpcb, hmem, hsfs, hready, hall⟩ := hpcb
    have hcopy : ∃ s', copyProcess { s with mem := m₁ } child = .ok (true, s') ∧
        s'.sched.threadReadyList = s₃.sched.threadReadyList ∧
        s'.sched.threadAllList = s₃.sched.threadAllList := by
      have hfs' : updateInodeOpenCnts (MAX_FILES_OPEN_PER_PROC - 3) 3 s₃.fs = .ok fs := hsfs ▸ hfs
      simp only [copyProcess, h₂, ok_bind, hpcb, hmem, h₄]
      change ∃ s', (copyBodyStack3 m₄ (some pgdir) bufPage >>= _) = _ ∧ _
      rw [h₅, ok_bind]
      change ∃ s', (updateInodeOpenCnts (MAX_FILES_OPEN_PER_PROC - 3) 3 s₃.fs >>= _) = _ ∧ _
      rw [hfs', ok_bind]
      change ∃ s', (mfreePage m₅ .PF_KERNEL bufPage 1 >>= _) = _ ∧ _
      rw [h₆, ok_bind]
      exact ⟨_, rfl, rfl, rfl⟩
    obtain ⟨s', hcopy, hready', hall'⟩ := hcopy
    have hnr : child ∉ s'.sched.threadReadyList := by rw [hready', hready]; exact h.ready
    have hna : child ∉ s'.sched.threadAllList := by rw [hall', hall]; exact h.all
    simp only [sysFork, h₁, ok_bind, ASSERT_true hintr, hcopy, ASSERT_true hnr, ASSERT_true hna]
    exact ⟨_, _, rfl⟩
  · rename_i hlong
    rw [if_neg hlong] at hpcb
    simp only [sysFork, h₁, ok_bind, ASSERT_true hintr, copyProcess, h₂, hpcb, error_bind]

/-! ## The chain -/

/-- The process of a chain after `n` forks: each is the child of the one before, with
the name that fork gave it. -/
inductive ForkChain (start : ForkState) : Nat → ForkState → Prop
  | start : ForkChain start 0 start
  | fork {n : Nat} {s s' t : ForkState} {pid : Int16} {child : Nat} : ForkChain start n s →
    sysFork s = .ok (some pid, s') →
    s'.sched.threadAllList = s.sched.threadAllList ++ [child] →
    t.sched.running = child → t.parent.name = (s'.pcb child).name → ForkChain start (n + 1) t

/-- The fork succeeds, and the name of the child ends in its 16 bytes: those behind are
the parent's. -/
def ForkNamed (s : ForkState) : Prop :=
  ∃ pid s' child, sysFork s = .ok (some pid, s') ∧
    s'.sched.threadAllList = s.sched.threadAllList ++ [child] ∧
    (∃ k < TASK_NAME_LEN, StrLen (s'.pcb child).name k) ∧
    ∀ k, TASK_NAME_LEN ≤ k → (s'.pcb child).name k = s.parent.name k

/-- The name after `n` forks. -/
theorem ForkChain.strLen {start s : ForkState} {n len : Nat} (hname : StrLen start.parent.name len)
    (hlen : len < 11) (h : ForkChain start n s) :
    StrLen s.parent.name (len + 5 * n) ∧ len + 5 * n < TASK_NAME_LEN := by
  induction h with
  | start => exact ⟨hname, Nat.lt_trans hlen (by decide)⟩
  | fork hchain hfork hall hrun hsame ih =>
    obtain ⟨hstr, hin⟩ := ih
    obtain ⟨c, hc, hshort, hchild⟩ := sysFork_name hfork
    rw [hall] at hc
    cases List.append_cancel_left hc
    rw [hstr.strlenIn _ 0 (Nat.zero_le _) (by omega)] at hshort
    have hnext := hstr.strcatAt (by decide : (0 : UInt8) ∉ forkSuffix)
    rw [hsame, hchild, childName, hstr.strlenIn _ 0 (Nat.zero_le _) (by omega)]
    refine ⟨hnext, ?_⟩
    unfold TASK_NAME_LEN
    omega

/-- The fork of generation `n` succeeds when the name it starts from leaves room. -/
theorem forkChain_iff {start s : ForkState} {n len child : Nat}
    (hname : StrLen start.parent.name len) (hlen : len < 11) (hchain : ForkChain start n s)
    (hcan : CanFork s child) : ForkNamed s ↔ len + 5 * n < 11 := by
  obtain ⟨hstr, hin⟩ := hchain.strLen hname hlen
  have hlenIn := hstr.strlenIn TASK_NAME_LEN 0 (Nat.zero_le _) (by omega)
  constructor
  · rintro ⟨pid, s', _, hfork, -⟩
    obtain ⟨_, -, hshort, -⟩ := sysFork_name hfork
    rwa [hlenIn] at hshort
  · intro hshort
    have hfork := sysFork_can hcan
    rw [hlenIn, if_pos hshort] at hfork
    obtain ⟨pid, s', hfork⟩ := hfork
    obtain ⟨c, hall, -, hchild⟩ := sysFork_name hfork
    rw [childName, hlenIn] at hchild
    have hsuffix : forkSuffix.length = 5 := rfl
    refine ⟨pid, s', c, hfork, hall, ⟨len + 5 * n + 5, ?_, ?_⟩, fun k hk => ?_⟩
    · unfold TASK_NAME_LEN
      omega
    · rw [hchild]
      exact hstr.strcatAt (by decide)
    · rw [hchild]
      refine strcatAt_behind _ ?_
      unfold TASK_NAME_LEN at hk
      omega

/-! ## A process with room for a child -/

/-- The directory of the process is on the first page of the heap, in frame 0x200; 39
pages and frames are left, and no page of the process is marked yet. -/
def roomyMemory : Memory where
  mmu :=
    { cr3 := 0x200 * 4096
      phys := fun f w =>
        if f = 0x100 ∨ f = 0x200 then
          if w = 1023 then f * 4096 + 7
          else if 768 ≤ w then (0x101 + (w - 768)) * 4096 + 7 else 0
        else if f = 0x101 ∧ w = 256 then 0x200 * 4096 + 7 else 0 }
  kernelPool := ⟨⟨5, fun i => if i = 0 then 0x01 else 0⟩, USED_MEM, 40 * PG_SIZE, 0⟩
  userPool := ⟨⟨1, fun _ => 0⟩, USED_MEM + 40 * PG_SIZE, 0x8000, 0⟩
  kernelVaddr := ⟨⟨5, fun i => if i = 0 then 0x01 else 0⟩, K_HEAP_START⟩
  running := ⟨some K_HEAP_START, userRange fun _ => 0⟩

/-- `create_page_dir` on its new page, with the kernel's entries copied at once. The new
frame is none that the tables lead by. -/
def fillPageDirAtOnce (m : Memory) (pageDirVaddr : Nat) : Except Fault Memory := do
  let entry (a : Nat) := m.mmu.phys (m.mmu.cr3 / 4096) (a / 2 ^ 22)
  let f ← m.mmu.walk (pageDirVaddr + 0x300 * 4)
  let g ← m.mmu.walk (0xfffff000 + 0x300 * 4)
  if pageDirVaddr % 4096 = 0 ∧ pageDirVaddr + 4096 ≤ 2 ^ 32 ∧ g ≠ f ∧ m.mmu.cr3 / 4096 ≠ f ∧
      entry (pageDirVaddr + 0x300 * 4) / 4096 ≠ f ∧ entry (0xfffff000 + 0x300 * 4) / 4096 ≠ f then
    let mmu := m.mmu.blit f 768 g 768 256
    let newPageDirPhyAddr ← addrV2p { m with mmu } pageDirVaddr
    let entry := newPageDirPhyAddr ||| PG_US_U ||| PG_RW_W ||| PG_P_1
    return { m with mmu := ← mmu.store (pageDirVaddr + 1023 * 4) entry }
  else .error .badAddress

theorem fillPageDirAtOnce_ok {m m' : Memory} {a : Nat} (h : fillPageDirAtOnce m a = .ok m') :
    fillPageDir m a = .ok m' := by
  obtain ⟨f, hf, h⟩ := bind_ok.mp h
  obtain ⟨g, hg, h⟩ := bind_ok.mp h
  split at h
  · rename_i hapart
    obtain ⟨hmod, hlt, hne, hdir, hdst, hsrc⟩ := hapart
    have hword : (a + 0x300 * 4) % 4096 / 4 = 768 := by omega
    have hcopy := Mmu.copyWords_ok 256 (.of_walk hf hdir hdst) (.of_walk hg hdir hsrc) hne
      ⟨by omega, by omega⟩ (by decide) (by omega) (by decide)
    rw [hword] at hcopy
    unfold fillPageDir
    rw [hcopy]
    exact h
  · cases h

/-- The requests of a fork, without the copies of its pages. -/
def forkRequests (m : Memory) : Except Fault Memory := do
  let (_, m) ← getKernelPages m 1
  let (bufPage, m) ← getKernelPages m 1
  let (vaddrBtmp, m) ← getKernelPages m bitmapPgCnt
  orNull vaddrBtmp.isSome
  let (pageDirVaddr, m) ← getKernelPages m 1
  let m ← fillPageDirAtOnce m (pageDirVaddr.getD 0)
  mfreePage m .PF_KERNEL (bufPage.getD 0) 1

theorem createPageDir_running {m m' : Memory} {r : Option Nat}
    (h : createPageDir m = .ok (r, m')) : m'.running = m.running := by
  obtain ⟨⟨a, m₁⟩, hget, h⟩ := bind_ok.mp h
  have hrun := (getKernelPages_takes hget).running
  cases a with
  | none =>
    cases h
    exact hrun
  | some a =>
    obtain ⟨m₂, hfill, h⟩ := bind_ok.mp h
    cases h
    obtain ⟨_, -, hfill⟩ := bind_ok.mp hfill
    obtain ⟨_, -, hfill⟩ := bind_ok.mp hfill
    obtain ⟨_, -, hfill⟩ := bind_ok.mp hfill
    cases hfill
    exact hrun

/-- Without pages to copy the requests are all there is. -/
theorem memoryAvailable_of_requests {m m' : Memory} (hnone : m.running.userprogVaddr.marked = [])
    (h : forkRequests m = .ok m') : ∃ child, MemoryAvailable m child := by
  obtain ⟨⟨child, m₁⟩, h₁, h⟩ := bind_ok.mp h
  obtain ⟨⟨bufPage, m₂⟩, h₂, h⟩ := bind_ok.mp h
  obtain ⟨⟨vaddrBtmp, m₃⟩, h₃, h⟩ := bind_ok.mp h
  obtain ⟨_, hbtmp, h⟩ := bind_ok.mp h
  obtain ⟨⟨pgdir, m₄⟩, h₄, h⟩ := bind_ok.mp h
  obtain ⟨m₅, hfill, h₆⟩ := bind_ok.mp h
  obtain ⟨child, rfl⟩ := Option.ne_none_iff_exists'.mp (getKernelPages_one h₁).1
  obtain ⟨bufPage, rfl⟩ := Option.ne_none_iff_exists'.mp (getKernelPages_one h₂).1
  obtain ⟨pgdir, rfl⟩ := Option.ne_none_iff_exists'.mp (getKernelPages_one h₄).1
  have hdir : createPageDir m₃ = .ok (some pgdir, m₅) := by
    have hfill : fillPageDir m₄ pgdir = .ok m₅ := fillPageDirAtOnce_ok hfill
    simp only [createPageDir, h₄, ok_bind, hfill]
    rfl
  have hrun : m₅.running = m.running := (createPageDir_running hdir).trans
    (((getKernelPages_takes h₁).trans (getKernelPages_takes h₂)).trans
      (getKernelPages_takes h₃)).running
  cases vaddrBtmp with
  | none => cases hbtmp
  | some a =>
    refine ⟨child, m₁, bufPage, m₂, a, m₃, pgdir, m₅, m₅, m', h₁, h₂, h₃, hdir, ?_, h₆⟩
    rw [copyBodyStack3_eq, hrun, hnone]
    rfl

theorem roomyMemory_available : ∃ child, MemoryAvailable roomyMemory child := by
  have hok : (forkRequests roomyMemory).isOk = true := by decide +kernel
  have hnone : roomyMemory.running.userprogVaddr.marked = [] := by
    refine List.eq_nil_iff_forall_not_mem.mpr fun i hi => ?_
    have hbit := (VirtualAddr.mem_marked.mp hi).2
    have hzero : roomyMemory.running.userprogVaddr.vaddrBitmap.bit i = false := by
      change (0 : UInt8).toBitVec.getLsbD (i % 8) = false
      simp
    rw [hzero] at hbit
    cases hbit
  cases hreq : forkRequests roomyMemory with
  | error e =>
    rw [hreq] at hok
    cases hok
  | ok m' => exact memoryAvailable_of_requests hnone hreq

/-- A thread of that memory, whatever the PCBs hold. -/
def roomyProcess (running : Nat) (pcb : Nat → Pcb) : ForkState where
  mem := roomyMemory
  sched := { bootThreads with running }
  pcb
  fs := noFiles
  nextPid := 1

theorem roomyProcess_can (running : Nat) (pcb : Nat → Pcb) :
    ∃ child, CanFork (roomyProcess running pcb) child := by
  obtain ⟨child, h⟩ := roomyMemory_available
  exact ⟨child, rfl, nofun, h, List.not_mem_nil, List.not_mem_nil, ⟨_, rfl⟩⟩

/-- Its child, in a memory as roomy. -/
theorem roomyProcess_forks {running len : Nat} {pcb : Nat → Pcb} (hlen : len < 11)
    (hname : StrLen (pcb running).name len) : ∃ child pcb',
      ForkChain (roomyProcess running pcb) 1 (roomyProcess child pcb') := by
  obtain ⟨c, hcan⟩ := roomyProcess_can running pcb
  have hfork := sysFork_can hcan
  have hin : strlenIn (roomyProcess running pcb).parent.name TASK_NAME_LEN 0 = len :=
    hname.strlenIn _ 0 (Nat.zero_le _) (by unfold TASK_NAME_LEN; omega)
  rw [hin, if_pos hlen] at hfork
  obtain ⟨pid, s', hfork⟩ := hfork
  obtain ⟨child, hall, -, -⟩ := sysFork_name hfork
  exact ⟨child, s'.pcb, .fork .start hfork hall rfl rfl⟩

/-- A PCB with a name. -/
def namedPcb (name : List UInt8) : Pcb :=
  ⟨0, 1, fun i => name.getD i 0, roomyMemory.running, blockDescInit, fun _ => none, 0, -1, 0⟩

/-- `init` has a grandchild. -/
theorem forkChain_init :
    let start := roomyProcess 0xc009e000 fun _ => namedPcb [105, 110, 105, 116]
    ∃ s, ForkChain start 1 s ∧ ForkNamed s := by
  intro start
  have hname : StrLen start.parent.name 4 := ⟨rfl, by decide⟩
  obtain ⟨child, pcb', hchain⟩ := roomyProcess_forks (by decide) hname
  obtain ⟨c, hcan⟩ := roomyProcess_can child pcb'
  exact ⟨_, hchain, (forkChain_iff hname (by decide) hchain hcan).mpr (by decide)⟩

/-- The child of `worker` cannot fork, though there is memory. -/
theorem forkChain_worker_fails :
    let start := roomyProcess 0xc009e000 fun _ => namedPcb [119, 111, 114, 107, 101, 114]
    StrLen start.parent.name 6 ∧ ∃ s child, ForkChain start 1 s ∧ CanFork s child ∧
      sysFork s = .error .panic ∧ ¬ ForkNamed s := by
  intro start
  have hname : StrLen start.parent.name 6 := ⟨rfl, by decide⟩
  obtain ⟨child, pcb', hchain⟩ := roomyProcess_forks (by decide) hname
  obtain ⟨c, hcan⟩ := roomyProcess_can child pcb'
  obtain ⟨hstr, hin⟩ := hchain.strLen hname (by decide)
  have hfork := sysFork_can hcan
  rw [hstr.strlenIn TASK_NAME_LEN 0 (Nat.zero_le _) (by omega), if_neg (by decide)] at hfork
  refine ⟨hname, _, c, hchain, hcan, hfork, ?_⟩
  rintro ⟨pid, s', _, hok, -⟩
  rw [hfork] at hok
  cases hok

end ZhuOS
