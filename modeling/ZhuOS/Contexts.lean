import ZhuOS.Cpu
import ZhuOS.Lib.Guarded

/-!
# Threads on one processor

A thread has a page, with the PCB at its start and the stack of the kernel at its end. The memory
is the kernel's part, which all page directories share. Of the PCB it holds what the switches read,
`self_kstack` and `pgdir`. Between the entries and the switches code does what it likes as long as
it keeps to its own stack.
-/

namespace ZhuOS

open WordStack Guarded

namespace Context

structure Machine where
  cpu : Cpu
  /-- `tss.esp0` -/
  esp0 : Nat
  /-- The page directory in `cr3`, 0 for the kernel's own. -/
  dir : Nat
  /-- The PCB of the thread whose code runs. -/
  running : Nat
  threads : List Nat

/-- Where the code lies. -/
structure Labels where
  kernelThread : Nat
  intrExit : Nat
  syscallHandler : Nat
  intrEntryTable : Nat → Nat

def SELECTOR_U_CODE : Nat := 43
def SELECTOR_U_DATA : Nat := 51

/-- The vectors with `ERROR_CODE` in `kernel.S`. `0x0c` is not one of them, though the processor
pushes an error code there. -/
def errorVectors : List Nat :=
  [0x08, 0x0a, 0x0b, 0x0d, 0x0e, 0x11, 0x18, 0x1a, 0x1b, 0x1d, 0x1e]

/-- `pgdir` in the PCB -/
def pgdir (m : Nat → Nat) (t : Nat) : Nat := m (t + 48)

/-- The stack between the PCB and the end of the page. -/
def InStack (t a : Nat) : Prop := t + 276 ≤ a ∧ a < t + 4096 ∧ a % 4 = 0

/-- The words that no other thread's code writes. -/
def Own (t a : Nat) : Prop := a = t ∨ a = t + 48 ∨ t + 276 ≤ a ∧ a < t + 4096

def runningThread (c : Cpu) : Nat := c.esp / 4096 * 4096

/-- `init_thread` and `thread_create`; `process_execute` sets `pgdir` afterwards. -/
def threadCreate (L : Labels) (m : Nat → Nat) (page function arg dir : Nat) : Nat → Nat :=
  let kstack := page + 4096 - 76 - 32
  let m := Function.update (Function.update m page kstack) (page + 48) dir
  let m := place m kstack [0, 0, 0, 0, L.kernelThread]
  -- `unused_retaddr` keeps what was there
  place m (kstack + 24) [function, arg]

/-- `copy_process`: the page of the parent is copied, and `build_child_stack` changes the copy. -/
def copyProcess (L : Labels) (m : Nat → Nat) (parent child dir : Nat) : Nat → Nat :=
  let m := fun a => if child ≤ a ∧ a < child + 4096 then m (a - child + parent) else m a
  let m := Function.update m (child + 48) dir
  let frame := child + 4096 - 76
  let m := Function.update m (frame + 32) 0
  let m := place m (frame - 20) [0, 0, 0, 0, L.intrExit]
  Function.update m child (frame - 20)

/-- From `edi` to `ds`. -/
def userRegs : List Nat :=
  [0, 0, 0, 0, 0, 0, 0, 0, 0, SELECTOR_U_DATA, SELECTOR_U_DATA, SELECTOR_U_DATA]

/-- From `eip` to `ss`. -/
def userReturn (filename stack : Nat) : List Nat :=
  [filename, SELECTOR_U_CODE, 0x202, stack, SELECTOR_U_DATA]

/-- `start_process`, when `get_a_page` has given the page below `stack`. -/
def startProcess (c : Cpu) (filename stack : Nat) : Cpu :=
  let cur := runningThread c
  let frame := c.mem cur + 32
  let m := Function.update c.mem cur frame
  -- `vec_no` and `err_code` keep what was there
  let m := place m (frame + 4) userRegs
  let m := place m (frame + 56) (userReturn filename stack)
  run { c with esp := frame, mem := m } intrExitCode

inductive Event
  /-- The code of the thread goes on to this state of the processor. -/
  | code (c : Cpu)
  | interrupt (vec : Nat) (err : Option Nat)
  | syscall
  /-- `jmp intr_exit` -/
  | intrExit
  /-- What follows the call in `syscall_handler`. -/
  | syscallReturn
  /-- The end of `schedule`; `ret` is where it goes on. -/
  | switch (next ret : Nat)
  | threadCreate (page function arg dir : Nat)
  | fork (child dir : Nat)
  | startProcess (filename stack : Nat)

namespace Machine

def processActivate (s : Machine) (next : Nat) : Machine :=
  { s with
    dir := pgdir s.cpu.mem next
    esp0 := if pgdir s.cpu.mem next = 0 then s.esp0 else next + 4096 }

def step (L : Labels) (s : Machine) : Event → Machine
  | .code c => { s with cpu := c }
  | .interrupt vec err =>
    { s with
      cpu := run (interrupt s.esp0 (L.intrEntryTable vec) err s.cpu)
        (vectorCode (!errorVectors.contains vec) vec) }
  | .syscall =>
    { s with cpu := run (interrupt s.esp0 L.syscallHandler none s.cpu) syscallCode }
  | .intrExit => { s with cpu := run s.cpu intrExitCode }
  | .syscallReturn => { s with cpu := run s.cpu syscallReturnCode }
  | .switch next ret =>
    { s.processActivate next with
      cpu := switchTo s.cpu (runningThread s.cpu) next ret, running := next }
  | .threadCreate page function arg dir =>
    { s with
      cpu := { s.cpu with mem := Context.threadCreate L s.cpu.mem page function arg dir }
      threads := page :: s.threads }
  | .fork child dir =>
    { s with
      cpu := { s.cpu with mem := copyProcess L s.cpu.mem (runningThread s.cpu) child dir }
      threads := child :: s.threads }
  | .startProcess filename stack =>
    { s with cpu := Context.startProcess s.cpu filename stack }

theorem step_intrExit (L : Labels) (s : Machine) :
    (s.step L .intrExit).cpu = run s.cpu intrExitCode := by
  rw [step]

theorem step_syscallReturn (L : Labels) (s : Machine) :
    (s.step L .syscallReturn).cpu = run s.cpu syscallReturnCode := by
  rw [step]

theorem step_startProcess (L : Labels) (s : Machine) (filename stack : Nat) :
    (s.step L (.startProcess filename stack)).cpu =
      Context.startProcess s.cpu filename stack := by
  rw [step]

/-- The code of the thread that runs keeps the level. In the kernel it keeps to its stack and off
the others' pages and page directories; outside it does not reach the kernel's memory. -/
def OwnCode (s : Machine) (c : Cpu) : Prop :=
  c.cpl = s.cpu.cpl ∧
    if s.cpu.cpl = 0 then
      InStack s.running c.esp ∧ c.seg .ss = s.cpu.seg .ss ∧
        pgdir c.mem s.running = pgdir s.cpu.mem s.running ∧
        ∀ u ∈ s.threads, u ≠ s.running → ∀ a, Own u a → c.mem a = s.cpu.mem a
    else c.mem = s.cpu.mem

/-- Where `intr_exit` may lead: only a process has code outside the kernel. -/
def Exits (s : Machine) (c : Cpu) : Prop :=
  s.cpu.cpl = 0 ∧ (c.cpl = 0 → InStack s.running c.esp) ∧
    (c.cpl ≠ 0 → pgdir s.cpu.mem s.running ≠ 0)

/-- A page that `get_kernel_pages` has given. -/
def Fresh (s : Machine) (page : Nat) : Prop := page ∉ s.threads ∧ page % 4096 = 0

def guard (s : Machine) : Event → Prop
  | .code c => s.OwnCode c
  | .interrupt vec err =>
    err.isNone = !errorVectors.contains vec ∧ s.running + 276 + 76 ≤ stackFrom s.esp0 s.cpu
  | .syscall => s.running + 276 + 88 ≤ stackFrom s.esp0 s.cpu
  | .intrExit => s.Exits (run s.cpu intrExitCode)
  | .syscallReturn =>
    s.Exits (run s.cpu syscallReturnCode) ∧ InStack s.running (s.cpu.esp + 44)
  | .switch next _ => s.cpu.cpl = 0 ∧ next ∈ s.threads ∧ s.running + 276 + 28 ≤ s.cpu.esp
  | .threadCreate page _ _ _ => s.cpu.cpl = 0 ∧ s.Fresh page
  | .fork child dir =>
    s.cpu.cpl = 0 ∧ s.Fresh child ∧ dir ≠ 0 ∧ pgdir s.cpu.mem s.running ≠ 0
  | .startProcess _ _ =>
    -- the thread has not been switched since it started
    s.cpu.cpl = 0 ∧ pgdir s.cpu.mem s.running ≠ 0 ∧
      s.cpu.mem s.running = s.running + 4096 - 76 - 32

end Machine

def machine (L : Labels) : System Machine Event Empty :=
  ⟨Machine.guard, fun s e => .ok (s.step L e)⟩

/-- Main, in the page that the loader gave it. -/
structure Booted (s : Machine) : Prop where
  threads : s.threads = [s.running]
  page : s.running % 4096 = 0
  level : s.cpu.cpl = 0
  stack : InStack s.running s.cpu.esp
  ss : s.cpu.seg .ss = SELECTOR_K_STACK
  pgdir : pgdir s.cpu.mem s.running = 0
  dir : s.dir = 0

/-- Main behind its first calls. -/
def bootMachine : Machine where
  cpu := ⟨fun _ => 0, 0xc009eff0, fun r => if r = .cs then 8 else 16, 0xc0001500, 2, fun _ => 0⟩
  esp0 := 0
  dir := 0
  running := 0xc009e000
  threads := [0xc009e000]

theorem bootMachine_booted : Booted bootMachine :=
  ⟨rfl, rfl, rfl, ⟨by decide, by decide, by decide⟩, rfl, rfl, rfl⟩

def kernelLabels : Labels := ⟨0xc0001600, 0xc0001700, 0xc0001800, fun vec => 0xc0002000 + vec * 32⟩

/-! ## Every thread in its place -/

/-- Where the context of a thread that does not run lies. -/
def Parked (m : Nat → Nat) (t : Nat) : Prop :=
  t + 276 ≤ m t ∧ m t + 20 < t + 4096 ∧ m t % 4 = 0

theorem Parked.congr {m m' : Nat → Nat} {t : Nat} (h : Parked m t) (hself : m' t = m t) :
    Parked m' t := by
  unfold Parked
  rwa [hself]

theorem Parked.inStack {m : Nat → Nat} {t : Nat} (h : Parked m t) : InStack t (m t + 20) := by
  obtain ⟨hlow, hhigh, hmod⟩ := h
  exact ⟨by omega, hhigh, by omega⟩

structure InPlace (s : Machine) : Prop where
  running : s.running ∈ s.threads
  pages : ∀ t ∈ s.threads, t % 4096 = 0
  kernel : s.cpu.cpl = 0 → InStack s.running s.cpu.esp ∧ s.cpu.seg .ss = SELECTOR_K_STACK
  user : s.cpu.cpl ≠ 0 → pgdir s.cpu.mem s.running ≠ 0
  esp0 : pgdir s.cpu.mem s.running ≠ 0 → s.esp0 = s.running + 4096
  dir : s.dir = pgdir s.cpu.mem s.running
  parked : ∀ t ∈ s.threads, t ≠ s.running → Parked s.cpu.mem t

theorem Booted.inPlace {s : Machine} (h : Booted s) : InPlace s where
  running := h.threads ▸ List.mem_singleton_self s.running
  pages t ht := by
    rw [h.threads] at ht
    exact List.mem_singleton.mp ht ▸ h.page
  kernel _ := ⟨h.stack, h.ss⟩
  user hlevel := absurd h.level hlevel
  esp0 hdir := absurd h.pgdir hdir
  dir := h.dir.trans h.pgdir.symm
  parked t ht hne := by
    rw [h.threads] at ht
    exact absurd (List.mem_singleton.mp ht) hne

variable {L : Labels} {s s' : Machine} {e : Event} {t a : Nat}

theorem runningThread_eq {c : Cpu} (hpage : t % 4096 = 0) (h : InStack t c.esp) :
    runningThread c = t := by
  obtain ⟨hlow, hhigh, -⟩ := h
  unfold runningThread
  omega

theorem InPlace.runningThread (h : InPlace s) (hlevel : s.cpu.cpl = 0) :
    runningThread s.cpu = s.running :=
  runningThread_eq (h.pages _ h.running) (h.kernel hlevel).1

/-- An entry to the kernel finds its stack in the page of the thread. -/
theorem InPlace.stackFrom (h : InPlace s) :
    stackFrom s.esp0 s.cpu ≤ s.running + 4096 ∧ stackFrom s.esp0 s.cpu % 4 = 0 := by
  unfold Context.stackFrom
  split
  · rename_i hlevel
    obtain ⟨-, hhigh, hmod⟩ := (h.kernel hlevel).1
    exact ⟨by omega, hmod⟩
  · rename_i hlevel
    rw [h.esp0 (h.user hlevel)]
    have hpage := h.pages _ h.running
    omega

/-- The words that an event may change. -/
def Touched (s : Machine) (a : Nat) : Event → Prop
  | .code c => c.mem a ≠ s.cpu.mem a
  | .interrupt _ _ => s.running + 276 ≤ a ∧ a < stackFrom s.esp0 s.cpu
  | .syscall => s.running + 276 ≤ a ∧ a < stackFrom s.esp0 s.cpu
  | .intrExit => False
  | .syscallReturn => a = s.cpu.esp + 44
  | .switch _ _ => a = s.running ∨ s.running + 276 ≤ a ∧ a < s.cpu.esp
  | .threadCreate page _ _ _ => page ≤ a ∧ a < page + 4096
  | .fork child _ => child ≤ a ∧ a < child + 4096
  | .startProcess _ _ => a = s.running ∨ s.running + 4020 ≤ a ∧ a < s.running + 4096

theorem interrupt_entered {vec : Nat} {err : Option Nat} (hg : s.guard (.interrupt vec err)) :
    ∃ dummy, Entered s.cpu (s.step L (.interrupt vec err)).cpu (stackFrom s.esp0 s.cpu)
      (IntrStack.save s.cpu vec (err.getD 0) dummy).words := by
  obtain ⟨hzero, hroom⟩ := hg
  have hroom' : 76 ≤ stackFrom s.esp0 s.cpu := by omega
  have henters := vector_enters s.cpu (L.intrEntryTable vec) vec err hroom'
  rwa [hzero] at henters

theorem syscall_entered (hg : s.guard .syscall) : ∃ dummy,
    Entered s.cpu (s.step L .syscall).cpu (stackFrom s.esp0 s.cpu)
        ([s.cpu.reg .ebx, s.cpu.reg .ecx, s.cpu.reg .edx] ++
          (IntrStack.save s.cpu 0x80 0 dummy).words) ∧
      (s.step L .syscall).cpu.reg = s.cpu.reg := by
  have hroom : s.running + 276 + 88 ≤ stackFrom s.esp0 s.cpu := hg
  exact syscall_enters (by omega)

theorem intrExit_mem {c : Cpu} (hlevel : c.cpl = 0) : (run c intrExitCode).mem = c.mem := by
  rw [intrExit_found hlevel]
  rfl

theorem Entered.esp_le {c c' : Cpu} {top : Nat} {words : List Nat} (h : Entered c c' top words) :
    c'.esp ≤ top := by
  have hesp := h.esp
  omega

theorem save_length (c : Cpu) (vec err dummy : Nat) :
    17 ≤ (IntrStack.save c vec err dummy).words.length ∧
      (IntrStack.save c vec err dummy).words.length ≤ 19 := by
  rw [IntrStack.words_length]
  split <;> omega

/-- An entry writes between the PCB and the place where its stack begins. -/
theorem entered_mem {c c' : Cpu} {top : Nat} {words : List Nat} (h : Entered c c' top words)
    (hroom : t + 276 + 4 * words.length ≤ top) (ha : ¬ (t + 276 ≤ a ∧ a < top)) :
    c'.mem a = c.mem a := by
  have hesp := h.esp
  refine h.rest a ?_
  by_cases hlow : t + 276 ≤ a
  · exact .inr (Nat.le_of_not_lt fun hlt => ha ⟨hlow, hlt⟩)
  · exact .inl (by omega)

theorem switch_room {next ret : Nat} (hg : s.guard (.switch next ret)) :
    28 ≤ s.cpu.esp ∧ s.running < s.cpu.esp - 28 := by
  obtain ⟨-, -, hroom⟩ := hg
  omega

theorem switch_resumes (hok : InPlace s) {next ret : Nat} (hg : s.guard (.switch next ret)) :
    (s.step L (.switch next ret)).cpu.mem = switched s.cpu s.running next ret ∧
      (s.step L (.switch next ret)).cpu.seg = s.cpu.seg ∧
      Resumed (s.step L (.switch next ret)).cpu
        (SavedContext.found (switched s.cpu s.running next ret) next) := by
  obtain ⟨hroom, hbelow⟩ := switch_room hg
  have hall := switchTo_resumes hroom (.inl hbelow)
    (SavedContext.found_saves (switched s.cpu s.running next ret) next)
  change (switchTo s.cpu (runningThread s.cpu) next ret).mem = _ ∧
    (switchTo s.cpu (runningThread s.cpu) next ret).seg = _ ∧
    Resumed (switchTo s.cpu (runningThread s.cpu) next ret) _
  rw [hok.runningThread hg.1]
  exact ⟨hall.1, hall.2.1, hall.2.2.2⟩

theorem threadCreate_mem {m : Nat → Nat} {page function arg dir : Nat}
    (ha : ¬ (page ≤ a ∧ a < page + 4096)) :
    threadCreate L m page function arg dir a = m a := by
  unfold threadCreate
  rw [place_out (by simp only [List.length_cons, List.length_nil]; omega),
    place_out (by simp only [List.length_cons, List.length_nil]; omega),
    Function.update_of_ne (by omega), Function.update_of_ne (by omega)]

theorem copyProcess_mem {m : Nat → Nat} {parent child dir : Nat}
    (ha : ¬ (child ≤ a ∧ a < child + 4096)) : copyProcess L m parent child dir a = m a := by
  unfold copyProcess
  rw [Function.update_of_ne (by omega),
    place_out (by simp only [List.length_cons, List.length_nil]; omega),
    Function.update_of_ne (by omega), Function.update_of_ne (by omega)]
  exact if_neg ha

/-- The frame of a process that starts. -/
def userFrame (vecNo errCode filename stack : Nat) : IntrStack where
  vecNo := vecNo
  edi := 0
  esi := 0
  ebp := 0
  espDummy := 0
  ebx := 0
  edx := 0
  ecx := 0
  eax := 0
  gs := 0
  fs := SELECTOR_U_DATA
  es := SELECTOR_U_DATA
  ds := SELECTOR_U_DATA
  errCode := errCode
  eip := filename
  cs := SELECTOR_U_CODE
  eflags := 0x202
  esp := stack
  ss := SELECTOR_U_DATA

theorem userFrame_words (vecNo errCode filename stack : Nat) :
    (userFrame vecNo errCode filename stack).words =
      [vecNo] ++ userRegs ++ [errCode] ++ userReturn filename stack := by
  have hcs : ¬ SELECTOR_U_CODE % 4 = 0 := by decide
  unfold IntrStack.words
  exact congrArg _ (if_neg hcs)

theorem startProcess_resumes {c : Cpu} (hlevel : c.cpl = 0) (filename stack : Nat) :
    ∃ vecNo errCode m,
      startProcess c filename stack = (userFrame vecNo errCode filename stack).resume
        { c with esp := c.mem (runningThread c) + 32, mem := m } ∧
      ∀ a, a ≠ runningThread c → ¬ (c.mem (runningThread c) + 32 ≤ a ∧
        a < c.mem (runningThread c) + 32 + 76) → m a = c.mem a := by
  unfold startProcess
  dsimp only
  generalize runningThread c = cur
  generalize c.mem cur + 32 = frame
  generalize hm₀ : Function.update c.mem cur frame = m₀
  generalize hm₁ : place m₀ (frame + 4) userRegs = m₁
  generalize hm : place m₁ (frame + 56) (userReturn filename stack) = m
  have hlow : Lies m (frame + 4) userRegs := by
    have hlies : Lies m₁ (frame + 4) userRegs := hm₁ ▸ place_lies m₀ (frame + 4) userRegs
    refine hlies.congr fun x _ hx => ?_
    have hx : x < frame + 4 + 48 := hx
    rw [← hm]
    exact place_out (.inl (by omega))
  have hhigh : Lies m (frame + 56) (userReturn filename stack) :=
    hm ▸ place_lies m₁ (frame + 56) (userReturn filename stack)
  refine ⟨m frame, m (frame + 52), m, intrExit_resumes ?_ ?_, fun a hcur hout => ?_⟩
  · exact hlevel
  · rw [userFrame_words]
    refine lies_append.mpr ⟨lies_append.mpr ⟨lies_append.mpr ⟨⟨rfl, trivial⟩, hlow⟩, rfl, trivial⟩,
      hhigh⟩
  · rw [← hm, place_out (by simp only [userReturn, List.length_cons, List.length_nil]; omega), ← hm₁,
      place_out (by simp only [userRegs, List.length_cons, List.length_nil]; omega), ← hm₀]
    exact Function.update_of_ne hcur ..

theorem step_mem (hok : InPlace s) (hg : s.guard e) (ha : ¬ Touched s a e) :
    (s.step L e).cpu.mem a = s.cpu.mem a := by
  cases e with
  | code c => exact not_not.mp ha
  | interrupt vec err =>
    obtain ⟨dummy, henters⟩ := interrupt_entered (L := L) hg
    have hlen := save_length s.cpu vec (err.getD 0) dummy
    exact entered_mem henters (by have := hg.2; omega) ha
  | syscall =>
    obtain ⟨dummy, henters, -⟩ := syscall_entered (L := L) hg
    have hlen := save_length s.cpu 0x80 0 dummy
    have hroom : s.running + 276 + 88 ≤ stackFrom s.esp0 s.cpu := hg
    refine entered_mem henters ?_ ha
    rw [List.length_append]
    simp only [List.length_cons, List.length_nil]
    omega
  | intrExit =>
    have hlevel : s.cpu.cpl = 0 := hg.1
    exact congrFun (intrExit_mem hlevel) a
  | syscallReturn =>
    have hlevel : s.cpu.cpl = 0 := hg.1.1
    have hmem : (run s.cpu syscallReturnCode).mem =
        Function.update s.cpu.mem (s.cpu.esp + 12 + 32) (s.cpu.reg .eax) := by
      rw [syscallReturnCode, run_append]
      exact intrExit_mem hlevel
    exact (congrFun hmem a).trans (Function.update_of_ne ha ..)
  | switch next ret =>
    obtain ⟨hroom, -⟩ := switch_room hg
    rw [(switch_resumes hok hg).1]
    refine switched_out hroom (fun h => ha (.inl h)) ?_
    by_cases hlow : s.running + 276 ≤ a
    · exact .inl (Nat.le_of_not_lt fun hlt => ha (.inr ⟨hlow, hlt⟩))
    · have := hg.2.2
      exact .inr (by omega)
  | threadCreate page function arg dir => exact threadCreate_mem ha
  | fork child dir => exact copyProcess_mem ha
  | startProcess filename stack =>
    obtain ⟨hlevel, -, hself⟩ := hg
    obtain ⟨_, _, m, heq, hm⟩ := startProcess_resumes hlevel filename stack
    rw [hok.runningThread hlevel, hself] at hm
    change (startProcess s.cpu filename stack).mem a = _
    rw [heq]
    exact hm a (fun h => ha (.inl h)) fun h => ha (.inr (by omega))

theorem Own.page (h : Own t a) : t ≤ a ∧ a < t + 4096 := by
  rcases h with h | h | ⟨h, h'⟩ <;> omega

/-- Apart from code, an event changes the stack and the first word of the page of the thread that
runs, or a page that belongs to no thread yet. -/
theorem touched_page (hok : InPlace s) (hg : s.guard e) (hcode : ∀ c, e ≠ .code c)
    (h : Touched s a e) :
    (s.running ≤ a ∧ a < s.running + 4096 ∧ a ≠ s.running + 48) ∨
      ∃ page, s.Fresh page ∧ page ≤ a ∧ a < page + 4096 := by
  obtain ⟨hfrom, -⟩ := hok.stackFrom
  cases e with
  | code c => exact absurd rfl (hcode c)
  | interrupt vec err =>
    obtain ⟨h, h'⟩ := h
    exact .inl (by omega)
  | syscall =>
    obtain ⟨h, h'⟩ := h
    exact .inl (by omega)
  | intrExit => exact h.elim
  | syscallReturn =>
    obtain ⟨hin, hin', -⟩ := hg.2
    have h : a = s.cpu.esp + 44 := h
    exact .inl (by omega)
  | switch next ret =>
    obtain ⟨-, hesp, -⟩ := (hok.kernel hg.1).1
    rcases h with h | ⟨h, h'⟩ <;> exact .inl (by omega)
  | threadCreate page function arg dir => exact .inr ⟨page, hg.2, h⟩
  | fork child dir => exact .inr ⟨child, hg.2.1, h⟩
  | startProcess filename stack =>
    rcases h with h | ⟨h, h'⟩ <;> exact .inl (by omega)

/-- No event reaches the pages of the threads that do not run. -/
theorem step_own (hok : InPlace s) (hg : s.guard e) (ht : t ∈ s.threads) (hne : t ≠ s.running)
    (ha : Own t a) : (s.step L e).cpu.mem a = s.cpu.mem a := by
  by_cases hcode : ∃ c, e = .code c
  · obtain ⟨c, rfl⟩ := hcode
    obtain ⟨-, hown⟩ := hg
    split at hown
    · exact hown.2.2.2 t ht hne a ha
    · exact congrFun hown a
  · refine step_mem hok hg fun h => ?_
    have hpage := hok.pages t ht
    have hpage' := hok.pages _ hok.running
    obtain ⟨hlow, hhigh⟩ := ha.page
    obtain ⟨h, h', -⟩ | ⟨page, ⟨hnot, hfresh⟩, h, h'⟩ :=
      touched_page hok hg (fun c hc => hcode ⟨c, hc⟩) h
    · omega
    · have hother : t ≠ page := fun heq => hnot (heq ▸ ht)
      omega

/-- A thread keeps its page directory. -/
theorem step_pgdir (hok : InPlace s) (hg : s.guard e) (ht : t ∈ s.threads) :
    pgdir (s.step L e).cpu.mem t = pgdir s.cpu.mem t := by
  by_cases hne : t = s.running
  · subst hne
    by_cases hcode : ∃ c, e = .code c
    · obtain ⟨c, rfl⟩ := hcode
      obtain ⟨-, hown⟩ := hg
      split at hown
      · exact hown.2.2.1
      · exact congrFun hown _
    · refine step_mem hok hg fun h => ?_
      have hpage := hok.pages _ ht
      obtain ⟨-, -, h⟩ | ⟨page, ⟨hnot, hfresh⟩, h, h'⟩ :=
        touched_page hok hg (fun c hc => hcode ⟨c, hc⟩) h
      · exact h rfl
      · have hother : s.running ≠ page := fun heq => hnot (heq ▸ ht)
        omega
  · exact step_own hok hg ht hne (.inr (.inl rfl))

/-- What an event leads to where it neither switches nor makes a thread. -/
theorem InPlace.keeps (hok : InPlace s) (hg : s.guard e) (hrunning : (s.step L e).running = s.running)
    (hthreads : (s.step L e).threads = s.threads) (hesp0 : (s.step L e).esp0 = s.esp0)
    (hdir : (s.step L e).dir = s.dir)
    (hkernel : (s.step L e).cpu.cpl = 0 →
      InStack s.running (s.step L e).cpu.esp ∧ (s.step L e).cpu.seg .ss = SELECTOR_K_STACK)
    (huser : (s.step L e).cpu.cpl ≠ 0 → pgdir s.cpu.mem s.running ≠ 0) : InPlace (s.step L e) := by
  have hpgdir := step_pgdir (L := L) hok hg hok.running
  refine ⟨?_, ?_, ?_, ?_, ?_, ?_, ?_⟩
  · rw [hrunning, hthreads]
    exact hok.running
  · rw [hthreads]
    exact hok.pages
  · rw [hrunning]
    exact hkernel
  · rw [hrunning, hpgdir]
    exact huser
  · rw [hrunning, hpgdir, hesp0]
    exact hok.esp0
  · rw [hrunning, hpgdir, hdir]
    exact hok.dir
  · rw [hrunning, hthreads]
    intro t ht hne
    exact (hok.parked t ht hne).congr (step_own hok hg ht hne (.inl rfl))

/-- A thread is made; the one that runs goes on. -/
theorem InPlace.makes {page : Nat} {m : Nat → Nat} (hok : InPlace s) (hfresh : s.Fresh page)
    (hm : ∀ a, ¬ (page ≤ a ∧ a < page + 4096) → m a = s.cpu.mem a) (hparked : Parked m page) :
    InPlace { s with cpu := { s.cpu with mem := m }, threads := page :: s.threads } := by
  have hothers : ∀ t ∈ s.threads, ∀ a, t ≤ a → a < t + 4096 → m a = s.cpu.mem a := by
    intro t ht a hlow hhigh
    have hpage := hok.pages t ht
    have hmod := hfresh.2
    have hother : t ≠ page := fun heq => hfresh.1 (heq ▸ ht)
    exact hm a fun h => by omega
  have hpgdir : pgdir m s.running = pgdir s.cpu.mem s.running :=
    hothers _ hok.running _ (Nat.le_add_right ..) (by omega)
  refine ⟨List.mem_cons_of_mem _ hok.running, ?_, hok.kernel, ?_, ?_, ?_, ?_⟩
  · intro t ht
    rcases List.mem_cons.mp ht with rfl | ht
    · exact hfresh.2
    · exact hok.pages t ht
  · exact fun hlevel => hpgdir.trans_ne (hok.user hlevel)
  · exact fun h => hok.esp0 (hpgdir.symm.trans_ne h)
  · exact hok.dir.trans hpgdir.symm
  · intro t ht hne
    rcases List.mem_cons.mp ht with rfl | ht
    · exact hparked
    · exact (hok.parked t ht hne).congr (hothers t ht t (Nat.le_refl t) (by omega))

theorem intrExit_ss {c : Cpu} (hlevel : c.cpl = 0) (hback : (run c intrExitCode).cpl = 0) :
    (run c intrExitCode).seg .ss = c.seg .ss := by
  rw [intrExit_found hlevel] at hback ⊢
  exact if_pos hback

theorem syscallReturn_ss {c : Cpu} (hlevel : c.cpl = 0)
    (hback : (run c syscallReturnCode).cpl = 0) :
    (run c syscallReturnCode).seg .ss = c.seg .ss := by
  rw [syscallReturnCode, run_append] at hback ⊢
  exact intrExit_ss hlevel hback

theorem Entered.kernel {c : Cpu} {words : List Nat} (hok : InPlace s)
    (h : Entered s.cpu c (stackFrom s.esp0 s.cpu) words) (hlen : 0 < words.length)
    (hroom : s.running + 276 + 4 * words.length ≤ stackFrom s.esp0 s.cpu) :
    c.cpl = 0 ∧ InStack s.running c.esp ∧ c.seg .ss = SELECTOR_K_STACK := by
  obtain ⟨hfrom, hmod⟩ := hok.stackFrom
  have hesp := h.esp
  refine ⟨?_, ⟨by omega, by omega, by omega⟩, ?_⟩
  · rw [Cpu.cpl, h.cs]
    rfl
  · rw [h.ss]
    split
    · exact (hok.kernel ‹_›).2
    · rfl

theorem switched_own (hok : InPlace s) {next ret : Nat} (hg : s.guard (.switch next ret))
    (ht : t ∈ s.threads) (hne : t ≠ s.running) (ha : Own t a) :
    switched s.cpu s.running next ret a = s.cpu.mem a := by
  rw [← (switch_resumes (L := ⟨0, 0, 0, fun _ => 0⟩) hok hg).1]
  exact step_own hok hg ht hne ha

theorem switch_parked (hok : InPlace s) {next ret : Nat} (hg : s.guard (.switch next ret))
    (ht : t ∈ s.threads) : Parked (switched s.cpu s.running next ret) t := by
  by_cases hne : t = s.running
  · obtain ⟨-, hesp, hmod⟩ := (hok.kernel hg.1).1
    have hroom := hg.2.2
    have hself : switched s.cpu s.running next ret t = s.cpu.esp - 28 := by
      rw [hne]
      exact Function.update_self ..
    unfold Parked
    rw [hself, hne]
    omega
  · exact (hok.parked t ht hne).congr (switched_own hok hg ht hne (.inl rfl))

theorem threadCreate_self (m : Nat → Nat) (page function arg dir : Nat) :
    threadCreate L m page function arg dir page = page + 4096 - 76 - 32 := by
  unfold threadCreate
  rw [place_out (by simp only [List.length_cons, List.length_nil]; omega),
    place_out (by simp only [List.length_cons, List.length_nil]; omega),
    Function.update_of_ne (by omega)]
  exact Function.update_self ..

theorem step_inPlace (hok : InPlace s) (hg : s.guard e) : InPlace (s.step L e) := by
  cases e with
  | code c =>
    obtain ⟨hsame, hown⟩ := id hg
    refine hok.keeps hg rfl rfl rfl rfl (fun hlevel => ?_) fun hlevel => ?_
    · rw [if_pos (hsame.symm.trans hlevel)] at hown
      exact ⟨hown.1, hown.2.1.trans (hok.kernel (hsame.symm.trans hlevel)).2⟩
    · exact hok.user fun h => hlevel (hsame.trans h)
  | interrupt vec err =>
    obtain ⟨dummy, henters⟩ := interrupt_entered (L := L) hg
    have hlen := save_length s.cpu vec (err.getD 0) dummy
    obtain ⟨hlevel, hkernel⟩ := henters.kernel hok (by omega) (by have := hg.2; omega)
    exact hok.keeps hg rfl rfl rfl rfl (fun _ => hkernel) fun h => absurd hlevel h
  | syscall =>
    obtain ⟨dummy, henters, -⟩ := syscall_entered (L := L) hg
    have hlen := save_length s.cpu 0x80 0 dummy
    have hroom : s.running + 276 + 88 ≤ stackFrom s.esp0 s.cpu := hg
    have hall : ∀ l : List Nat, ([s.cpu.reg .ebx, s.cpu.reg .ecx, s.cpu.reg .edx] ++ l).length =
        3 + l.length := fun l => List.length_append
    obtain ⟨hlevel, hkernel⟩ := henters.kernel hok (by rw [hall]; omega) (by rw [hall]; omega)
    exact hok.keeps hg rfl rfl rfl rfl (fun _ => hkernel) fun h => absurd hlevel h
  | intrExit =>
    obtain ⟨hlevel, hstack, huser⟩ := id hg
    refine hok.keeps hg rfl rfl rfl rfl (fun hback => ?_) ?_
    · rw [Machine.step_intrExit] at hback ⊢
      exact ⟨hstack hback, (intrExit_ss hlevel hback).trans (hok.kernel hlevel).2⟩
    · rw [Machine.step_intrExit]
      exact huser
  | syscallReturn =>
    obtain ⟨⟨hlevel, hstack, huser⟩, -⟩ := id hg
    refine hok.keeps hg rfl rfl rfl rfl (fun hback => ?_) ?_
    · rw [Machine.step_syscallReturn] at hback ⊢
      exact ⟨hstack hback, (syscallReturn_ss hlevel hback).trans (hok.kernel hlevel).2⟩
    · rw [Machine.step_syscallReturn]
      exact huser
  | switch next ret =>
    obtain ⟨hlevel, hnext, hroom⟩ := id hg
    obtain ⟨hmem, hseg, hresumed⟩ := switch_resumes (L := L) hok hg
    have hparked := switch_parked hok hg hnext
    have hpgdir := step_pgdir (L := L) hok hg hnext
    have hlevel' : (s.step L (.switch next ret)).cpu.cpl = 0 := by
      rw [Cpu.cpl, hseg]
      exact hlevel
    refine ⟨hnext, hok.pages, fun _ => ⟨?_, ?_⟩, fun h => absurd hlevel' h, fun h => ?_, hpgdir.symm,
      fun t ht _ => ?_⟩
    · change InStack next _
      rw [hresumed.esp]
      exact hparked.inStack
    · rw [hseg]
      exact (hok.kernel hlevel).2
    · exact if_neg (hpgdir.symm.trans_ne h)
    · rw [hmem]
      exact switch_parked hok hg ht
  | threadCreate page function arg dir =>
    refine hok.makes hg.2 (fun a ha => threadCreate_mem ha) ?_
    have hmod := hg.2.2
    unfold Parked
    rw [threadCreate_self]
    omega
  | fork child dir =>
    refine hok.makes hg.2.1 (fun a ha => copyProcess_mem ha) ?_
    have hself : ∀ m parent, copyProcess L m parent child dir child = child + 4096 - 76 - 20 :=
      fun m parent => Function.update_self ..
    have hmod := hg.2.1.2
    unfold Parked
    rw [hself]
    omega
  | startProcess filename stack =>
    obtain ⟨hlevel, hdir, -⟩ := id hg
    refine hok.keeps hg rfl rfl rfl rfl (fun hback => ?_) fun _ => hdir
    obtain ⟨_, _, m, heq, -⟩ := startProcess_resumes hlevel filename stack
    rw [Machine.step_startProcess, heq] at hback
    exact absurd (show SELECTOR_U_CODE % 4 = 0 from hback) (by decide)

theorem machine_preserves (L : Labels) : Preserves (machine L) InPlace := by
  intro s e s' hok hg hexec
  cases hexec
  exact step_inPlace hok hg

/-- Some run leads here from the machine that has booted. -/
def Reachable (L : Labels) (s : Machine) : Prop := ∃ s₀, Booted s₀ ∧ Reach (machine L) s₀ s

theorem Reachable.inPlace (h : Reachable L s) : InPlace s := by
  obtain ⟨s₀, hbooted, es, hrun⟩ := h
  exact hrun.preserved (machine_preserves L) hbooted.inPlace

theorem Reachable.step (h : Reachable L s) (hg : s.guard e) : Reachable L (s.step L e) := by
  obtain ⟨s₀, hbooted, hreach⟩ := h
  exact ⟨s₀, hbooted, hreach.trans (.single e hg rfl)⟩

theorem bootMachine_reachable (L : Labels) : Reachable L bootMachine :=
  ⟨bootMachine, bootMachine_booted, .refl _⟩

/-- Main has made a process. -/
def createdMachine : Machine :=
  bootMachine.step kernelLabels (.threadCreate 0xc0100000 0xc0001900 0x8048000 0xc0102000)

theorem createdMachine_guard :
    bootMachine.guard (.threadCreate 0xc0100000 0xc0001900 0x8048000 0xc0102000) :=
  ⟨rfl, by decide, by decide⟩

theorem createdMachine_reachable : Reachable kernelLabels createdMachine :=
  (bootMachine_reachable _).step createdMachine_guard

/-- The process is switched to for the first time. -/
def switchedMachine : Machine := createdMachine.step kernelLabels (.switch 0xc0100000 0xc0001a00)

theorem switchedMachine_guard : createdMachine.guard (.switch 0xc0100000 0xc0001a00) :=
  ⟨rfl, by decide, by decide⟩

theorem switchedMachine_reachable : Reachable kernelLabels switchedMachine :=
  createdMachine_reachable.step switchedMachine_guard

/-- It has its directory, and it can go on to user mode or switch back. -/
theorem switchedMachine_guards :
    pgdir switchedMachine.cpu.mem switchedMachine.running = 0xc0102000 ∧
      switchedMachine.guard (.startProcess 0x8048000 0xc0000000) ∧
      switchedMachine.guard (.switch createdMachine.running 0xc0001b00) :=
  ⟨by decide +kernel, ⟨by decide +kernel, by decide +kernel, by decide +kernel⟩,
    by decide +kernel, by decide +kernel, by decide +kernel⟩

/-- The process has gone on to user mode. -/
def userMachine : Machine := switchedMachine.step kernelLabels (.startProcess 0x8048000 0xc0000000)

theorem userMachine_reachable : Reachable kernelLabels userMachine :=
  switchedMachine_reachable.step switchedMachine_guards.2.1

/-- It has made a system call. -/
def calledMachine : Machine := userMachine.step kernelLabels .syscall

/-! ## A thread that is switched away -/

/-- The thread does not run. -/
def Away (t : Nat) (s : Machine) (_ : Event) : Prop := s.running ≠ t

theorem step_threads (ht : t ∈ s.threads) : t ∈ (s.step L e).threads := by
  cases e
  case threadCreate => exact List.mem_cons_of_mem _ ht
  case fork => exact List.mem_cons_of_mem _ ht
  all_goals exact ht

theorem Saves.congr {m m' : Nat → Nat} {k : SavedContext} (h : Saves m t k) (hparked : Parked m t)
    (hm : ∀ a, Own t a → m' a = m a) : Saves m' t k := by
  obtain ⟨hlow, hhigh, -⟩ := hparked
  have hself : m' t = m t := hm t (.inl rfl)
  refine ⟨?_, ?_⟩
  · rw [hself]
    refine h.lies.congr fun x hx hx' => hm x (.inr (.inr ?_))
    have hx' : x < m t + 20 := hx'
    omega
  · rw [hself]
    exact h.esp

theorem Saves.found {m : Nat → Nat} {k : SavedContext} (h : Saves m t k) :
    SavedContext.found m t = k := by
  obtain ⟨⟨hebp, hebx, hedi, hesi, heip, -⟩, hesp⟩ := h
  exact SavedContext.mk.injEq .. ▸ ⟨hebp, hebx, hedi, hesi, heip, hesp⟩

variable {es : List Event} {s₁ s₂ : Machine} {k : SavedContext}

theorem run_cons {P : Machine → Event → Prop} (hg : s.guard e) (hP : P s e)
    (hrest : Run ((machine L).only P) (s.step L e) es s') :
    Run ((machine L).only P) s (e :: es) s' := .cons ⟨hg, hP⟩ rfl hrest

theorem away_start (hrun : Run ((machine L).only (Away t)) s es s') (haway : s'.running ≠ t) :
    s.running ≠ t := by
  cases hrun with
  | nil => exact haway
  | cons hg _ _ => exact hg.2

/-- Nothing in its page changes. -/
theorem away_run (hok : InPlace s) (ht : t ∈ s.threads)
    (hrun : Run ((machine L).only (Away t)) s es s') :
    InPlace s' ∧ t ∈ s'.threads ∧ ∀ a, Own t a → s'.cpu.mem a = s.cpu.mem a := by
  induction hrun with
  | nil s => exact ⟨hok, ht, fun _ _ => rfl⟩
  | cons hg hexec _ ih =>
    cases hexec
    obtain ⟨hok', ht', hsame⟩ := ih (step_inPlace hok hg.1) (step_threads ht)
    exact ⟨hok', ht', fun a ha =>
      (hsame a ha).trans (step_own hok hg.1 ht (fun h => hg.2 h.symm) ha)⟩

/-- When it is switched to, it goes on in its context. -/
theorem parked_resumes {ret : Nat} (hok : InPlace s) (ht : t ∈ s.threads)
    (hk : Saves s.cpu.mem t k) (hrun : Run ((machine L).only (Away t)) s es s')
    (haway : s'.running ≠ t) (hback : s'.guard (.switch t ret)) :
    Resumed (s'.step L (.switch t ret)).cpu k ∧
      ∀ a, Own t a → (s'.step L (.switch t ret)).cpu.mem a = s.cpu.mem a := by
  obtain ⟨hok', ht', hsame⟩ := away_run hok ht hrun
  obtain ⟨hmem, -, hresumed⟩ := switch_resumes (L := L) hok' hback
  have hown : ∀ a, Own t a → switched s'.cpu s'.running t ret a = s.cpu.mem a := fun a ha =>
    (switched_own hok' hback ht' haway.symm ha).trans (hsame a ha)
  have hparked := hok.parked t ht (away_start hrun haway).symm
  rw [(hk.congr hparked hown).found] at hresumed
  exact ⟨hresumed, fun a ha => (congrFun hmem a).trans (hown a ha)⟩

/-- A thread that calls `switch_to` goes on behind the call, whatever the other threads have done:
with the registers that a function must keep, its stack, its page directory and its `esp0`. -/
theorem switch_returns {next ret ret' : Nat} (h : Reachable L s)
    (hg : s.guard (.switch next ret))
    (hrun : Run ((machine L).only (Away s.running)) (s.step L (.switch next ret)) es s₁)
    (haway : s₁.running ≠ s.running) (hback : s₁.guard (.switch s.running ret')) :
    let s' := s₁.step L (.switch s.running ret')
    Resumed s'.cpu (s.cpu.context ret) ∧
      (∀ a, s.cpu.esp ≤ a → a < s.running + 4096 → s'.cpu.mem a = s.cpu.mem a) ∧
      s'.running = s.running ∧ s'.dir = s.dir ∧ (s.dir ≠ 0 → s'.esp0 = s.esp0) := by
  have hok := h.inPlace
  have hok' : InPlace (s.step L (.switch next ret)) := step_inPlace hok hg
  have hmem := (switch_resumes (L := L) hok hg).1
  obtain ⟨hroom, hbelow⟩ := switch_room hg
  have hk : Saves (s.step L (.switch next ret)).cpu.mem s.running (s.cpu.context ret) := by
    rw [hmem]
    exact (switched_saves next ret hroom (.inl hbelow)).2
  obtain ⟨hresumed, hsame⟩ := parked_resumes hok' (step_threads hok.running) hk hrun haway hback
  obtain ⟨hok₁, ht₁, hsame₁⟩ := away_run hok' (step_threads hok.running) hrun
  have hok₂ : InPlace (s₁.step L (.switch s.running ret')) := step_inPlace hok₁ hback
  have hdir : pgdir (s₁.step L (.switch s.running ret')).cpu.mem s.running =
      pgdir s.cpu.mem s.running :=
    (hsame _ (.inr (.inl rfl))).trans (step_pgdir hok hg hok.running)
  refine ⟨hresumed, fun a hlow hhigh => ?_, rfl, ?_, fun h => ?_⟩
  · have hroom' := hg.2.2
    rw [hsame a (.inr (.inr ⟨by omega, hhigh⟩)), hmem]
    exact switched_out hroom (by omega) (.inl hlow)
  · exact hok₂.dir.trans (hdir.trans hok.dir.symm)
  · have hne : pgdir s.cpu.mem s.running ≠ 0 := hok.dir.symm.trans_ne h
    exact (hok₂.esp0 (hdir.trans_ne hne)).trans (hok.esp0 hne).symm

/-- The new process switches back at once. -/
theorem switch_returns_main :
    let s' := switchedMachine.step kernelLabels (.switch createdMachine.running 0xc0001b00)
    Resumed s'.cpu (createdMachine.cpu.context 0xc0001a00) ∧
      (∀ a, createdMachine.cpu.esp ≤ a → a < createdMachine.running + 4096 →
        s'.cpu.mem a = createdMachine.cpu.mem a) ∧
      s'.running = createdMachine.running ∧ s'.dir = createdMachine.dir ∧
      (createdMachine.dir ≠ 0 → s'.esp0 = createdMachine.esp0) :=
  switch_returns createdMachine_reachable switchedMachine_guard (.nil switchedMachine)
    (by decide) switchedMachine_guards.2.2

/-! ## Code that was interrupted -/

/-- The thread's own code keeps below this address of its stack. It may be interrupted again and be
switched away. -/
def Below (t f : Nat) (s : Machine) (e : Event) : Prop :=
  s.running = t →
    match e with
    | .code c => c.esp ≤ f ∧ ∀ a, f ≤ a → a < t + 4096 → c.mem a = s.cpu.mem a
    | .intrExit => (run s.cpu intrExitCode).cpl = 0 ∧ (run s.cpu intrExitCode).esp ≤ f
    | .syscallReturn =>
      s.cpu.esp + 44 < f ∧
        (run s.cpu syscallReturnCode).cpl = 0 ∧ (run s.cpu syscallReturnCode).esp ≤ f
    | .startProcess _ _ => False
    | _ => True

/-- The thread is in the kernel, below the address or switched away there. -/
structure Inside (t f : Nat) (s : Machine) : Prop where
  thread : t ∈ s.threads
  low : t + 276 ≤ f
  runs : s.running = t → s.cpu.cpl = 0 ∧ s.cpu.esp ≤ f
  waits : s.running ≠ t → s.cpu.mem t + 20 ≤ f

variable {f : Nat}

theorem below_mem (hok : InPlace s) (hg : s.guard e) (hb : Below t f s e) (h : Inside t f s)
    (hlow : f ≤ a) (hhigh : a < t + 4096) : (s.step L e).cpu.mem a = s.cpu.mem a := by
  have hf := h.low
  by_cases hne : s.running = t
  · subst hne
    obtain ⟨hlevel, hesp⟩ := h.runs rfl
    have hfrom : stackFrom s.esp0 s.cpu = s.cpu.esp := if_pos hlevel
    have hpage := hok.pages _ hok.running
    have hapart : ∀ page, s.Fresh page → ¬ (page ≤ a ∧ a < page + 4096) := by
      rintro page ⟨hnot, hfresh⟩ ⟨h, h'⟩
      have hother : s.running ≠ page := fun heq => hnot (heq ▸ hok.running)
      omega
    cases e with
    | code c => exact (hb rfl).2 a hlow hhigh
    | interrupt vec err => exact step_mem hok hg fun ha => absurd ha.2 (by omega)
    | syscall => exact step_mem hok hg fun ha => absurd ha.2 (by omega)
    | intrExit => exact step_mem hok hg fun h => h
    | syscallReturn =>
      have hslot := (hb rfl).1
      exact step_mem hok hg fun h => by
        have h : a = s.cpu.esp + 44 := h
        omega
    | switch next ret =>
      refine step_mem hok hg fun h => ?_
      rcases h with h | ⟨_, h⟩ <;> omega
    | threadCreate page function arg dir => exact step_mem hok hg (hapart page hg.2)
    | fork child dir => exact step_mem hok hg (hapart child hg.2.1)
    | startProcess filename stack => exact (hb rfl).elim
  · exact step_own hok hg h.thread (Ne.symm hne) (.inr (.inr ⟨by omega, hhigh⟩))

/-- Where the thread goes on, if an event switches it away or back. -/
theorem inside_switched (hok : InPlace s) {next ret : Nat} (hg : s.guard (.switch next ret))
    (h : Inside t f s) : switched s.cpu s.running next ret t + 20 ≤ f := by
  by_cases hne : s.running = t
  · subst hne
    have hself : switched s.cpu s.running next ret s.running = s.cpu.esp - 28 :=
      Function.update_self ..
    have hesp := (h.runs rfl).2
    have hroom := hg.2.2
    omega
  · rw [switched_own hok hg h.thread (Ne.symm hne) (.inl rfl)]
    exact h.waits hne

theorem below_inside (hok : InPlace s) (hg : s.guard e) (hb : Below t f s e) (h : Inside t f s) :
    Inside t f (s.step L e) := by
  by_cases hswitch : ∃ next ret, e = .switch next ret
  · obtain ⟨next, ret, rfl⟩ := hswitch
    obtain ⟨hmem, hseg, hresumed⟩ := switch_resumes (L := L) hok hg
    have hsaved := inside_switched hok hg h
    refine ⟨h.thread, h.low, fun heq => ⟨?_, ?_⟩, fun _ => by rwa [hmem]⟩
    · rw [Cpu.cpl, hseg]
      exact hg.1
    · have heq : next = t := heq
      rw [hresumed.esp]
      rwa [heq] at hsaved ⊢
  · have hrunning : (s.step L e).running = s.running := by
      cases e
      case switch next ret => exact absurd ⟨next, ret, rfl⟩ hswitch
      all_goals rfl
    refine ⟨step_threads h.thread, h.low, fun heq => ?_, fun hne => ?_⟩
    · have hself : s.running = t := hrunning.symm.trans heq
      obtain ⟨hlevel, hesp⟩ := h.runs hself
      have hfrom : stackFrom s.esp0 s.cpu = s.cpu.esp := if_pos hlevel
      cases e with
      | code c => exact ⟨hg.1.trans hlevel, (hb hself).1⟩
      | interrupt vec err =>
        obtain ⟨dummy, henters⟩ := interrupt_entered (L := L) hg
        have hle := henters.esp_le
        exact ⟨by rw [Cpu.cpl, henters.cs]; rfl, by omega⟩
      | syscall =>
        obtain ⟨dummy, henters, -⟩ := syscall_entered (L := L) hg
        have hle := henters.esp_le
        exact ⟨by rw [Cpu.cpl, henters.cs]; rfl, by omega⟩
      | intrExit => exact hb hself
      | syscallReturn =>
        rw [Machine.step_syscallReturn]
        exact (hb hself).2
      | switch next ret => exact absurd ⟨next, ret, rfl⟩ hswitch
      | threadCreate page function arg dir => exact ⟨hlevel, hesp⟩
      | fork child dir => exact ⟨hlevel, hesp⟩
      | startProcess filename stack => exact (hb hself).elim
    · have hne : s.running ≠ t := fun heq => hne (hrunning.trans heq)
      rw [step_own hok hg h.thread hne.symm (.inl rfl)]
      exact h.waits hne

/-- The stack from the address on stays as it is, whatever else runs. -/
theorem below_run (hok : InPlace s) (h : Inside t f s)
    (hrun : Run ((machine L).only (Below t f)) s es s') :
    InPlace s' ∧ Inside t f s' ∧ ∀ a, f ≤ a → a < t + 4096 → s'.cpu.mem a = s.cpu.mem a := by
  induction hrun with
  | nil s => exact ⟨hok, h, fun _ _ _ => rfl⟩
  | cons hg hexec _ ih =>
    cases hexec
    obtain ⟨hok', h', hsame⟩ := ih (step_inPlace hok hg.1) (below_inside hok hg.1 hg.2 h)
    exact ⟨hok', h', fun a hlow hhigh =>
      (hsame a hlow hhigh).trans (below_mem hok hg.1 hg.2 h hlow hhigh)⟩

theorem run_pgdir (hok : InPlace s) (ht : t ∈ s.threads) (hrun : Run (machine L) s es s') :
    pgdir s'.cpu.mem t = pgdir s.cpu.mem t := by
  induction hrun with
  | nil s => rfl
  | cons hg hexec _ ih =>
    cases hexec
    exact (ih (step_inPlace hok hg) (step_threads ht)).trans (step_pgdir hok hg ht)

/-- What was saved of a processor is that processor, but for the memory. -/
theorem save_resume {c c₁ : Cpu} (vec err dummy : Nat) (hesp : c.cpl = 0 → c₁.esp + 68 = c.esp)
    (hss : c.cpl = 0 → c₁.seg .ss = c.seg .ss) :
    (IntrStack.save c vec err dummy).resume c₁ = { c with mem := c₁.mem } := by
  refine Cpu.ext (funext fun r => ?_) ?_ (funext fun r => ?_) rfl rfl rfl
  · cases r <;> rfl
  · change (if c.cpl = 0 then c₁.esp + 68 else c.esp) = c.esp
    split
    · exact hesp ‹_›
    · rfl
  · cases r
    case ss =>
      change (if c.cpl = 0 then c₁.seg .ss else c.seg .ss) = c.seg .ss
      split
      · exact hss ‹_›
      · rfl
    all_goals rfl

/-- How far the frame reaches up. -/
theorem save_top {c c' : Cpu} {l : List Nat} {top vec err dummy : Nat}
    (h : Entered c c' top (l ++ (IntrStack.save c vec err dummy).words)) (hlevel : c.cpl = 0) :
    c'.esp + 4 * l.length + 68 = top := by
  have hesp := h.esp
  have hcs : (IntrStack.save c vec err dummy).cs % 4 = 0 := hlevel
  rw [List.length_append, IntrStack.words_length, if_pos hcs] at hesp
  omega

/-- The thread that goes on where it was interrupted. -/
theorem exits_back (hok : InPlace s) (hback : s₁.running = s.running)
    (hlevel : s₁.cpu.cpl = 0) (hdir : pgdir s₁.cpu.mem s.running = pgdir s.cpu.mem s.running)
    {c : Cpu} (hcpl : c.cpl = s.cpu.cpl) (hesp : c.esp = s.cpu.esp) : s₁.Exits c := by
  refine ⟨hlevel, fun h => ?_, fun h => ?_⟩
  · rw [hback, hesp]
    exact (hok.kernel (hcpl.symm.trans h)).1
  · rw [hback, hdir]
    exact hok.user (hcpl.symm.trans_ne h)

/-- Code of the kernel that only moves its stack pointer and sets registers. -/
theorem ownCode_regs {reg : Reg → Nat} (hlevel : s.cpu.cpl = 0) (ha : InStack s.running a) :
    s.guard (.code { s.cpu with esp := a, reg := reg }) := by
  refine ⟨rfl, ?_⟩
  rw [if_pos hlevel]
  exact ⟨ha, rfl, rfl, fun _ _ _ _ _ => rfl⟩

/-- What a system call leaves of the caller's state is all but `eax`, with the result. The called
function finds the arguments on the stack and may write them over. -/
theorem syscall_returns (h : Reachable L s) (hg : s.guard .syscall)
    (hrun : Run ((machine L).only (Below s.running ((s.step L .syscall).cpu.esp + 12)))
      (s.step L .syscall) es s₁)
    (hback : s₁.running = s.running) (hesp : s₁.cpu.esp = (s.step L .syscall).cpu.esp) :
    (s.step L .syscall).cpu.reg = s.cpu.reg ∧
      Lies (s.step L .syscall).cpu.mem (s.step L .syscall).cpu.esp
        [s.cpu.reg .ebx, s.cpu.reg .ecx, s.cpu.reg .edx] ∧
      s₁.guard .syscallReturn ∧
      (s₁.step L .syscallReturn).cpu =
        { s.cpu.setReg .eax (s₁.cpu.reg .eax) with mem := (s₁.step L .syscallReturn).cpu.mem } ∧
      ∀ a, stackFrom s.esp0 s.cpu ≤ a → a < s.running + 4096 →
        (s₁.step L .syscallReturn).cpu.mem a = s.cpu.mem a := by
  have hok := h.inPlace
  have hok' := step_inPlace (L := L) hok hg
  obtain ⟨dummy, henters, hreg⟩ := syscall_entered (L := L) hg
  generalize hentry : s.step L .syscall = s' at *
  have hlen := save_length s.cpu 0x80 0 dummy
  have htop := henters.esp
  rw [List.length_append] at htop
  have hthree : [s.cpu.reg .ebx, s.cpu.reg .ecx, s.cpu.reg .edx].length = 3 := rfl
  obtain ⟨hfrom, -⟩ := hok.stackFrom
  have hroom : s.running + 276 + 88 ≤ stackFrom s.esp0 s.cpu := hg
  have hrunning : s'.running = s.running := hentry ▸ rfl
  have hinside : Inside s.running (s'.cpu.esp + 12) s' := by
    refine ⟨hrunning ▸ hok'.running, by omega, fun _ => ⟨?_, by omega⟩, fun h => absurd hrunning h⟩
    rw [Cpu.cpl, henters.cs]
    rfl
  obtain ⟨hok₁, hinside₁, hsame⟩ := below_run hok' hinside hrun
  obtain ⟨hlevel, -⟩ := hinside₁.runs hback
  obtain ⟨hargs, hframe⟩ := lies_append.mp henters.lies
  have hlies : Lies s₁.cpu.mem s₁.cpu.esp ([s₁.cpu.mem s₁.cpu.esp, s₁.cpu.mem (s₁.cpu.esp + 4),
      s₁.cpu.mem (s₁.cpu.esp + 8)] ++ (IntrStack.save s.cpu 0x80 0 dummy).words) := by
    refine lies_append.mpr ⟨⟨rfl, rfl, rfl, trivial⟩, ?_⟩
    rw [hesp]
    exact hframe.congr fun x hx hx' => hsame x hx (by omega)
  let c := s.cpu.setReg .eax (s₁.cpu.reg .eax)
  let m := Function.update s₁.cpu.mem (s₁.cpu.esp + 12 + 32) (s₁.cpu.reg .eax)
  have hexit : run s₁.cpu syscallReturnCode = { c with mem := m } := by
    rw [syscallReturn_resumes rfl hlevel hlies]
    refine save_resume (c := c) 0x80 0 dummy (fun hin => ?_) fun hin => ?_
    · have htop := save_top henters hin
      have hself : stackFrom s.esp0 s.cpu = s.cpu.esp := if_pos hin
      change s₁.cpu.esp + 12 + 68 = s.cpu.esp
      omega
    · exact (hok₁.kernel hlevel).2.trans (hok.kernel hin).2.symm
  have hmem : (s₁.step L .syscallReturn).cpu.mem = m := congrArg Cpu.mem hexit
  have hdir : pgdir s₁.cpu.mem s.running = pgdir s.cpu.mem s.running := by
    rw [run_pgdir hok' (hrunning ▸ hok'.running) hrun.of_only, ← hentry]
    exact step_pgdir hok hg hok.running
  have hmod := (hok₁.kernel hlevel).1.2.2
  refine ⟨hreg, hargs, ⟨?_, ?_⟩, ?_, fun a hlow hhigh => ?_⟩
  · refine exits_back hok hback hlevel hdir ?_ ?_
    · rw [hexit]
      rfl
    · rw [hexit]
      rfl
  · rw [hback]
    exact ⟨by omega, by omega, by omega⟩
  · rw [hmem, Machine.step_syscallReturn]
    exact hexit
  · have hout : m a = s₁.cpu.mem a := Function.update_of_ne (by omega) ..
    rw [hmem, hout, hsame a (by omega) hhigh]
    exact henters.rest a (.inr hlow)

/-- The called function returns 7. -/
def returnedCpu : Cpu :=
  { calledMachine.cpu with
    esp := calledMachine.cpu.esp, reg := Function.update calledMachine.cpu.reg .eax 7 }

/-- The call can be made, and the function that is called can return. -/
theorem calledMachine_guards :
    userMachine.guard .syscall ∧ calledMachine.guard (.code returnedCpu) ∧
      calledMachine.running = userMachine.running := by
  have hroom : userMachine.running + 276 + 88 ≤ stackFrom userMachine.esp0 userMachine.cpu := by
    decide +kernel
  exact ⟨hroom, ownCode_regs (by decide +kernel)
    ⟨by decide +kernel, by decide +kernel, by decide +kernel⟩, by decide +kernel⟩

theorem returnedCpu_run :
    Run ((machine kernelLabels).only (Below userMachine.running (calledMachine.cpu.esp + 12)))
      calledMachine [.code returnedCpu] (calledMachine.step kernelLabels (.code returnedCpu)) := by
  have hbelow : Below userMachine.running (calledMachine.cpu.esp + 12) calledMachine
      (.code returnedCpu) := fun _ => ⟨Nat.le_add_right .., fun _ _ _ => rfl⟩
  exact run_cons calledMachine_guards.2.1 hbelow (.nil _)

theorem syscall_returns_user :
    let s₁ := calledMachine.step kernelLabels (.code returnedCpu)
    calledMachine.cpu.reg = userMachine.cpu.reg ∧
      Lies calledMachine.cpu.mem calledMachine.cpu.esp
        [userMachine.cpu.reg .ebx, userMachine.cpu.reg .ecx, userMachine.cpu.reg .edx] ∧
      s₁.guard .syscallReturn ∧
      (s₁.step kernelLabels .syscallReturn).cpu =
        { userMachine.cpu.setReg .eax (s₁.cpu.reg .eax) with
          mem := (s₁.step kernelLabels .syscallReturn).cpu.mem } ∧
      ∀ a, stackFrom userMachine.esp0 userMachine.cpu ≤ a → a < userMachine.running + 4096 →
        (s₁.step kernelLabels .syscallReturn).cpu.mem a = userMachine.cpu.mem a :=
  syscall_returns userMachine_reachable calledMachine_guards.1 returnedCpu_run
    calledMachine_guards.2.2 rfl

/-! ## Threads that have not run yet -/

/-- The frame in the child's page is the parent's with 0 as the result. -/
theorem copyProcess_frame {m : Nat → Nat} {parent : Nat} {k : IntrStack} (child dir : Nat)
    (h : Lies m (parent + 4020) k.words) :
    Lies (copyProcess L m parent child dir) (child + 4020) ({ k with eax := 0 } : IntrStack).words ∧
      Saves (copyProcess L m parent child dir) child ⟨0, 0, 0, 0, L.intrExit, child + 4020⟩ ∧
      pgdir (copyProcess L m parent child dir) child = dir := by
  have hlen : k.words.length ≤ 19 := by
    rw [IntrStack.words_length]
    split <;> omega
  unfold copyProcess
  dsimp only
  have hframe : child + 4096 - 76 = child + 4020 := by omega
  have hstack : child + 4020 - 20 = child + 4000 := by omega
  rw [hframe, hstack]
  generalize hm₁ : (fun a => if child ≤ a ∧ a < child + 4096 then m (a - child + parent) else m a) = m₁
  generalize hm₂ : Function.update (Function.update m₁ (child + 48) dir) (child + 4020 + 32) 0 = m₂
  generalize hm₃ : place m₂ (child + 4000) [0, 0, 0, 0, L.intrExit] = m₃
  have hcopy : Lies m₁ (child + 4020) k.words := by
    refine h.move fun i hi => ?_
    rw [← hm₁]
    change (if _ then _ else _) = _
    rw [if_pos (by omega)]
    congr 1
    omega
  have hset : Lies m₂ (child + 4020) ({ k with eax := 0 } : IntrStack).words := by
    rw [IntrStack.words_eax, ← hm₂]
    exact (hcopy.congr fun x hx _ => Function.update_of_ne (by omega) ..).set 8 0
  have hout : ∀ x, child + 4020 ≤ x ∨ x < child + 4000 → m₃ x = m₂ x := by
    intro x hx
    rw [← hm₃]
    exact place_out (by simp only [List.length_cons, List.length_nil]; omega)
  have hlies : Lies (Function.update m₃ child (child + 4000)) (child + 4000)
      [0, 0, 0, 0, L.intrExit] := by
    rw [← hm₃]
    exact (place_lies m₂ (child + 4000) _).congr fun x hx _ => Function.update_of_ne (by omega) ..
  refine ⟨?_, ⟨?_, ?_⟩, ?_⟩
  · refine hset.congr fun x hx _ => ?_
    rw [Function.update_of_ne (by omega)]
    exact hout x (.inl hx)
  · rw [Function.update_self]
    exact hlies
  · rw [Function.update_self]
  · unfold pgdir
    rw [Function.update_of_ne (by omega), hout _ (.inr (by omega)), ← hm₂,
      Function.update_of_ne (by omega)]
    exact Function.update_self ..

/-- A child that `fork` makes for a process returns from the same system call, with 0: the first
switch to it leads to `intr_exit`, on the copy of the frame. -/
theorem fork_child {child dir ret : Nat} {es' : List Event} (h : Reachable L s)
    (huser : s.cpu.cpl ≠ 0) (hg : s.guard .syscall)
    (hrun : Run ((machine L).only (Below s.running ((s.step L .syscall).cpu.esp + 12)))
      (s.step L .syscall) es s₁)
    (hback : s₁.running = s.running) (hfork : s₁.guard (.fork child dir))
    (hrun' : Run ((machine L).only (Away child)) (s₁.step L (.fork child dir)) es' s₂)
    (haway : s₂.running ≠ child) (hswitch : s₂.guard (.switch child ret)) :
    let s' := s₂.step L (.switch child ret)
    s'.cpu.eip = L.intrExit ∧ s'.guard .intrExit ∧
      (s'.step L .intrExit).cpu = { s.cpu.setReg .eax 0 with mem := s'.cpu.mem } ∧
      s'.running = child ∧ s'.dir = dir ∧ s'.esp0 = child + 4096 := by
  have hok := h.inPlace
  have hok' := step_inPlace (L := L) hok hg
  obtain ⟨dummy, henters, -⟩ := syscall_entered (L := L) hg
  generalize hentry : s.step L .syscall = s' at *
  have hesp0 : stackFrom s.esp0 s.cpu = s.running + 4096 := by
    rw [stackFrom, if_neg huser]
    exact hok.esp0 (hok.user huser)
  have hcs : ¬ (IntrStack.save s.cpu 0x80 0 dummy).cs % 4 = 0 := huser
  have htop := henters.esp
  rw [List.length_append, IntrStack.words_length, if_neg hcs] at htop
  have hthree : [s.cpu.reg .ebx, s.cpu.reg .ecx, s.cpu.reg .edx].length = 3 := rfl
  have hrunning : s'.running = s.running := hentry ▸ rfl
  have hinside : Inside s.running (s'.cpu.esp + 12) s' := by
    refine ⟨hrunning ▸ hok'.running, by omega, fun _ => ⟨?_, by omega⟩, fun h => absurd hrunning h⟩
    rw [Cpu.cpl, henters.cs]
    rfl
  obtain ⟨hok₁, -, hsame⟩ := below_run hok' hinside hrun
  have hframe : Lies s₁.cpu.mem (s₁.running + 4020) (IntrStack.save s.cpu 0x80 0 dummy).words := by
    obtain ⟨-, hframe⟩ := lies_append.mp henters.lies
    have hat : s'.cpu.esp + 4 * 3 = s₁.running + 4020 := by omega
    rw [hthree, hat] at hframe
    refine hframe.congr fun x hx hx' => hsame x (by omega) ?_
    rw [IntrStack.words_length, if_neg hcs] at hx'
    omega
  obtain ⟨hcopy, hsaves, hpgdir⟩ := copyProcess_frame (L := L) child dir hframe
  rw [← hok₁.runningThread hfork.1] at hcopy hsaves hpgdir
  have hok₂ := step_inPlace (L := L) hok₁ hfork
  obtain ⟨hresumed, hown⟩ := parked_resumes hok₂ List.mem_cons_self hsaves hrun' haway hswitch
  have hok₃ := step_inPlace (L := L) (away_run hok₂ List.mem_cons_self hrun').1 hswitch
  intro s₃
  have hlevel : s₃.cpu.cpl = 0 := by
    have hseg := (switch_resumes (L := L) (away_run hok₂ List.mem_cons_self hrun').1 hswitch).2.1
    rw [Cpu.cpl, hseg]
    exact hswitch.1
  have hesp : s₃.cpu.esp = child + 4020 := hresumed.esp
  have hlies : Lies s₃.cpu.mem s₃.cpu.esp
      ({ IntrStack.save s.cpu 0x80 0 dummy with eax := 0 } : IntrStack).words := by
    rw [hesp]
    refine hcopy.congr fun x hx hx' => hown x (.inr (.inr ?_))
    rw [IntrStack.words_length, if_neg hcs] at hx'
    omega
  have hexit : run s₃.cpu intrExitCode = { s.cpu.setReg .eax 0 with mem := s₃.cpu.mem } := by
    rw [intrExit_resumes hlevel hlies]
    exact save_resume (c := s.cpu.setReg .eax 0) 0x80 0 dummy
      (fun hin => absurd hin huser) fun hin => absurd hin huser
  have hdir : pgdir s₃.cpu.mem child = dir := (hown _ (.inr (.inl rfl))).trans hpgdir
  have hne : pgdir s₃.cpu.mem s₃.running ≠ 0 := hdir.trans_ne hfork.2.2.1
  refine ⟨hresumed.eip, ⟨hlevel, fun hin => ?_, fun _ => hne⟩,
    (Machine.step_intrExit ..).trans hexit, rfl, ?_, ?_⟩
  · rw [hexit] at hin
    exact absurd hin huser
  · exact hok₃.dir.trans hdir
  · exact hok₃.esp0 hne

def forkedMachine : Machine := calledMachine.step kernelLabels (.fork 0xc0200000 0xc0202000)

theorem fork_child_user :
    let s' := forkedMachine.step kernelLabels (.switch 0xc0200000 0xc0001a00)
    s'.cpu.eip = kernelLabels.intrExit ∧ s'.guard .intrExit ∧
      (s'.step kernelLabels .intrExit).cpu =
        { userMachine.cpu.setReg .eax 0 with mem := s'.cpu.mem } ∧
      s'.running = 0xc0200000 ∧ s'.dir = 0xc0202000 ∧ s'.esp0 = 0xc0200000 + 4096 :=
  fork_child userMachine_reachable (by decide +kernel) calledMachine_guards.1 (.nil calledMachine)
    calledMachine_guards.2.2
    ⟨by decide +kernel, ⟨by decide +kernel, by decide⟩, by decide, by decide +kernel⟩
    (.nil forkedMachine) (by decide +kernel)
    ⟨by decide +kernel, by decide +kernel, by decide +kernel⟩

end Context

end ZhuOS
