import Mathlib.Logic.ExistsUnique
import ZhuOS.Lib.Guarded
import ZhuOS.Machine

/-!
# `thread/thread.c` and `device/timer.c`: the scheduler

A thread is the address of its PCB's page. The ready list is a `List`; a thread's
`general_tag` is the thread itself, which no list has twice as long as it is
`SchedOk`. A switch leaves the old thread inside `schedule`, and the new one goes
on with the interrupt status its caller restores.
-/

namespace ZhuOS

inductive TaskStatus
  | TASK_RUNNING
  | TASK_READY
  | TASK_BLOCKED
  | TASK_WAITING
  | TASK_HANGING
  | TASK_DIED
  deriving DecidableEq, Repr

/-- The three ways to be blocked. -/
def TaskStatus.blocked : TaskStatus → Bool
  | .TASK_BLOCKED | .TASK_WAITING | .TASK_HANGING => true
  | .TASK_RUNNING | .TASK_READY | .TASK_DIED => false

inductive IntrStatus
  | INTR_OFF
  | INTR_ON
  deriving DecidableEq, Repr

structure TaskStruct where
  status : TaskStatus
  priority : UInt8
  ticks : UInt8
  elapsedTicks : UInt32
  stackMagic : UInt32
  /-- the interrupt status it goes on with when it is switched to -/
  resumes : IntrStatus

structure Threads where
  task : Nat → TaskStruct
  /-- `running_thread()` -/
  running : Nat
  mainThread : Nat
  idleThread : Nat
  threadReadyList : List Nat
  threadAllList : List Nat
  ticks : UInt32
  intr : IntrStatus

namespace Threads

def setTask (s : Threads) (t : Nat) (k : TaskStruct) : Threads :=
  { s with task := fun u => if u = t then k else s.task u }

def setStatus (s : Threads) (t : Nat) (stat : TaskStatus) : Threads :=
  s.setTask t { s.task t with status := stat }

def setIntr (s : Threads) (status : IntrStatus) : Threads := { s with intr := status }

def setReady (s : Threads) (l : List Nat) : Threads := { s with threadReadyList := l }

end Threads

/-- `thread_unblock`. -/
def threadUnblock (s : Threads) (pthread : Nat) : Except Fault Threads := do
  ASSERT ((s.task pthread).status.blocked = true)
  if (s.task pthread).status ≠ .TASK_READY then
    -- the test after the `ASSERT` repeats it and calls `PANIC`
    ASSERT (pthread ∉ s.threadReadyList)
    return (s.setReady (pthread :: s.threadReadyList)).setStatus pthread .TASK_READY
  else return s

/-- The first part of `schedule`: a thread whose time is up goes to the end. -/
def requeue (s : Threads) : Except Fault Threads :=
  let cur := s.running
  if (s.task cur).status = .TASK_RUNNING then do
    ASSERT (cur ∉ s.threadReadyList)
    return (s.setReady (s.threadReadyList ++ [cur])).setTask cur
      { s.task cur with ticks := (s.task cur).priority, status := .TASK_READY }
  else return s

/-- The second: with nobody ready, the idle thread is. -/
def wakeIdle (s : Threads) : Except Fault Threads :=
  if s.threadReadyList = [] then threadUnblock s s.idleThread else return s

/-- `switch_to(cur, next)`; `resumes` is what the caller of `schedule` restores. -/
def switchTo (s : Threads) (next : Nat) (resumes : IntrStatus) : Threads :=
  let s := s.setTask s.running { s.task s.running with resumes }
  { s with running := next, intr := (s.task next).resumes }

def schedule (s : Threads) (resumes : IntrStatus) : Except Fault Threads := do
  ASSERT (s.intr = .INTR_OFF)
  let s ← requeue s
  let s ← wakeIdle s
  match s.threadReadyList with
  | [] => .error .panic
  | next :: rest => return switchTo ((s.setReady rest).setStatus next .TASK_RUNNING) next resumes

def threadBlock (s : Threads) (stat : TaskStatus) : Except Fault Threads := do
  ASSERT (stat.blocked = true)
  schedule ((s.setIntr .INTR_OFF).setStatus s.running stat) s.intr

def threadYield (s : Threads) : Except Fault Threads := do
  let cur := s.running
  ASSERT (cur ∉ s.threadReadyList)
  let s' := (s.setIntr .INTR_OFF).setReady (s.threadReadyList ++ [cur])
  schedule (s'.setStatus cur .TASK_READY) s.intr

/-- `intr_timer_handler`, entered with interrupts off and left by `iret`. -/
def intrTimerHandler (s : Threads) : Except Fault Threads := do
  let cur := s.task s.running
  ASSERT (cur.stackMagic = 0x19870916)
  let s' := { s with ticks := s.ticks + 1, intr := .INTR_OFF }
  let cur := { cur with elapsedTicks := cur.elapsedTicks + 1 }
  if cur.ticks = 0 then schedule (s'.setTask s.running cur) s.intr
  else return (s'.setTask s.running { cur with ticks := cur.ticks - 1 }).setIntr s.intr

/-- `init_thread`. A new thread starts in `kernel_thread`, which enables interrupts. -/
def initThread (s : Threads) (pthread : Nat) (prio : UInt8) : Threads :=
  s.setTask pthread
    { status := if pthread = s.mainThread then .TASK_RUNNING else .TASK_READY
      priority := prio
      ticks := prio
      elapsedTicks := 0
      stackMagic := 0x19870916
      resumes := .INTR_ON }

/-- `thread_start` in the page `get_kernel_pages` has returned. -/
def threadStart (s : Threads) (page : Nat) (prio : UInt8) : Except Fault Threads := do
  let s := initThread s page prio
  ASSERT (page ∉ s.threadReadyList)
  let s := s.setReady (s.threadReadyList ++ [page])
  ASSERT (page ∉ s.threadAllList)
  return { s with threadAllList := s.threadAllList ++ [page] }

def makeMainThread (s : Threads) : Except Fault Threads := do
  let main := s.running
  let s := initThread { s with mainThread := main } main 32
  ASSERT (main ∉ s.threadAllList)
  return { s with threadAllList := s.threadAllList ++ [main] }

/-- `thread_init`; `idlePage` is the page the idle thread gets. -/
def threadInit (s : Threads) (idlePage : Nat) : Except Fault Threads := do
  let s ← makeMainThread { s with threadReadyList := [], threadAllList := [] }
  let s ← threadStart s idlePage 10
  return { s with idleThread := idlePage }

/-! ## Small facts about the records -/

namespace Threads

variable (s : Threads) (t u : Nat) (k : TaskStruct) (stat : TaskStatus)

theorem setTask_task : (s.setTask t k).task u = if u = t then k else s.task u := rfl

@[simp] theorem setTask_self : (s.setTask t k).task t = k := if_pos rfl

theorem setTask_other (h : u ≠ t) : (s.setTask t k).task u = s.task u := if_neg h

theorem setStatus_status :
    ((s.setStatus t stat).task u).status = if u = t then stat else (s.task u).status := by
  unfold setStatus
  rw [setTask_task]
  split
  · rfl
  · rfl

theorem setStatus_magic : ((s.setStatus t stat).task u).stackMagic = (s.task u).stackMagic := by
  unfold setStatus
  rw [setTask_task]
  split
  · rename_i h
    rw [h]
  · rfl

theorem setStatus_resumes : ((s.setStatus t stat).task u).resumes = (s.task u).resumes := by
  unfold setStatus
  rw [setTask_task]
  split
  · rename_i h
    rw [h]
  · rfl

@[simp] theorem setStatus_ready : (s.setStatus t stat).threadReadyList = s.threadReadyList := rfl

@[simp] theorem setStatus_all : (s.setStatus t stat).threadAllList = s.threadAllList := rfl

@[simp] theorem setTask_all : (s.setTask t k).threadAllList = s.threadAllList := rfl

@[simp] theorem setReady_all (l : List Nat) : (s.setReady l).threadAllList = s.threadAllList := rfl

@[simp] theorem setReady_ready (l : List Nat) : (s.setReady l).threadReadyList = l := rfl

@[simp] theorem setReady_task (l : List Nat) : (s.setReady l).task = s.task := rfl

end Threads

/-- Blocked, for whatever reason. -/
def Threads.Blocked (s : Threads) (t : Nat) : Prop := (s.task t).status.blocked = true

/-- A thread's own interrupt status: the CPU's while it runs, else the one it goes on
with. -/
def Threads.intrOf (s : Threads) (t : Nat) : IntrStatus :=
  if t = s.running then s.intr else (s.task t).resumes

/-! ## The invariant -/

/-- The ready list holds the ready threads, each once. -/
structure Queued (s : Threads) : Prop where
  running_mem : s.running ∈ s.threadAllList
  main_mem : s.mainThread ∈ s.threadAllList
  idle_mem : s.idleThread ∈ s.threadAllList
  nodup : s.threadReadyList.Nodup
  ready : ∀ t, t ∈ s.threadReadyList ↔ t ∈ s.threadAllList ∧ (s.task t).status = .TASK_READY
  alive : ∀ t ∈ s.threadAllList, (s.task t).status ≠ .TASK_DIED
  magic : ∀ t ∈ s.threadAllList, (s.task t).stackMagic = 0x19870916

/-- Between two calls: the running thread is the one that is `TASK_RUNNING`. -/
structure SchedOk (s : Threads) : Prop extends Queued s where
  one : ∀ t ∈ s.threadAllList, (s.task t).status = .TASK_RUNNING ↔ t = s.running

/-- On entry to `schedule`: the running thread may have another status already. -/
structure Leaving (s : Threads) : Prop extends Queued s where
  one : ∀ t ∈ s.threadAllList, (s.task t).status = .TASK_RUNNING → t = s.running

/-- Between two threads: nobody is `TASK_RUNNING`. -/
structure Parted (s : Threads) : Prop extends Queued s where
  none : ∀ t ∈ s.threadAllList, (s.task t).status ≠ .TASK_RUNNING

/-- What a call of the scheduler leaves of the other threads. The idle thread may
have been woken. -/
structure Switched (s s' : Threads) (resumes : IntrStatus) : Prop where
  all : s'.threadAllList = s.threadAllList
  idle : s'.idleThread = s.idleThread
  blocked : ∀ t, t ≠ s.idleThread → (s'.Blocked t ↔ s.Blocked t)
  status : ∀ t, t ≠ s.idleThread → s.Blocked t → (s'.task t).status = (s.task t).status
  intrOf : ∀ t, s'.intrOf t = if t = s.running then resumes else (s.task t).resumes

theorem nodup_append_one {l : List Nat} {t : Nat} (h : l.Nodup) (ht : t ∉ l) :
    (l ++ [t]).Nodup := by
  refine List.nodup_append.mpr ⟨h, by simp, ?_⟩
  rintro a ha b hb rfl
  exact ht (List.mem_singleton.mp hb ▸ ha)

/-- What the parts of `schedule` before the switch leave alone. -/
structure Kept (s s' : Threads) : Prop where
  running : s'.running = s.running
  all : s'.threadAllList = s.threadAllList
  idle : s'.idleThread = s.idleThread
  blocked : ∀ t, t ≠ s.idleThread → (s'.Blocked t ↔ s.Blocked t)
  status : ∀ t, t ≠ s.idleThread → s.Blocked t → (s'.task t).status = (s.task t).status
  resumes : ∀ t, (s'.task t).resumes = (s.task t).resumes

theorem Kept.refl (s : Threads) : Kept s s :=
  ⟨rfl, rfl, rfl, fun _ _ => .rfl, fun _ _ _ => rfl, fun _ => rfl⟩

theorem Kept.trans {s s' s'' : Threads} (h : Kept s s') (h' : Kept s' s'') : Kept s s'' where
  running := h'.running.trans h.running
  all := h'.all.trans h.all
  idle := h'.idle.trans h.idle
  blocked := fun t ht => (h'.blocked t (h.idle ▸ ht)).trans (h.blocked t ht)
  status := fun t ht hb =>
    (h'.status t (h.idle ▸ ht) ((h.blocked t ht).mpr hb)).trans (h.status t ht hb)
  resumes := fun t => (h'.resumes t).trans (h.resumes t)

namespace Queued

variable {s : Threads} {t : Nat}

theorem not_ready (h : Queued s) (ht : (s.task t).status ≠ .TASK_READY) :
    t ∉ s.threadReadyList := fun hm => ht ((h.ready t).mp hm).2

theorem setIntr (h : Queued s) (status : IntrStatus) : Queued (s.setIntr status) :=
  ⟨h.running_mem, h.main_mem, h.idle_mem, h.nodup, h.ready, h.alive, h.magic⟩

/-- One thread's record is changed, and its place in the ready list with it. -/
theorem move (h : Queued s) (ht : t ∈ s.threadAllList) {k : TaskStruct} {l : List Nat}
    (hmagic : k.stackMagic = 0x19870916) (halive : k.status ≠ .TASK_DIED) (hl : l.Nodup)
    (hmem : ∀ u, u ∈ l ↔ u = t ∧ k.status = .TASK_READY ∨ u ≠ t ∧ u ∈ s.threadReadyList) :
    Queued ((s.setReady l).setTask t k) := by
  refine ⟨h.running_mem, h.main_mem, h.idle_mem, hl, fun u => ?_, fun u hu => ?_, fun u hu => ?_⟩
  · rw [Threads.setTask_task]
    refine (hmem u).trans ?_
    by_cases he : u = t
    · subst he
      simpa using fun _ => ht
    · simpa [he] using h.ready u
  · rw [Threads.setTask_task]
    split
    · exact halive
    · exact h.alive u hu
  · rw [Threads.setTask_task]
    split
    · exact hmagic
    · exact h.magic u hu

/-- A thread that is neither running, ready nor dead is blocked. -/
theorem blocked (h : Queued s) (ht : t ∈ s.threadAllList) (hrun : (s.task t).status ≠ .TASK_RUNNING)
    (hready : t ∉ s.threadReadyList) : s.Blocked t := by
  have halive := h.alive t ht
  have hnot : (s.task t).status ≠ .TASK_READY := fun he => hready ((h.ready t).mpr ⟨ht, he⟩)
  unfold Threads.Blocked
  cases hs : (s.task t).status with
  | TASK_RUNNING => exact absurd hs hrun
  | TASK_READY => exact absurd hs hnot
  | TASK_DIED => exact absurd hs halive
  | TASK_BLOCKED | TASK_WAITING | TASK_HANGING => rfl

end Queued

/-- A thread that is neither running, blocked nor dead is ready. -/
theorem Queued.ready_of {s : Threads} {t : Nat} (h : Queued s) (ht : t ∈ s.threadAllList)
    (hrun : (s.task t).status ≠ .TASK_RUNNING) (hb : ¬ s.Blocked t) :
    (s.task t).status = .TASK_READY ∧ t ∈ s.threadReadyList := by
  have hready : t ∈ s.threadReadyList := by
    by_contra hn
    exact hb (h.blocked ht hrun hn)
  exact ⟨((h.ready t).mp hready).2, hready⟩

theorem Threads.Blocked.not_ready {s : Threads} {t : Nat} (h : s.Blocked t) :
    (s.task t).status ≠ .TASK_READY := by
  intro he
  simp [Blocked, he, TaskStatus.blocked] at h

theorem Threads.setTask_blocked {s : Threads} {t : Nat} {k : TaskStruct}
    (h : k.status.blocked = (s.task t).status.blocked) (u : Nat) :
    (s.setTask t k).Blocked u ↔ s.Blocked u := by
  unfold Blocked
  rw [setTask_task]
  split
  · rename_i he
    rw [he, h]
  · rfl

/-- The thread at the front of the list is the one that was blocked. -/
theorem threadUnblock_ok {s : Threads} {t : Nat} (h : Queued s) (ht : t ∈ s.threadAllList)
    (hb : s.Blocked t) : ∃ s', threadUnblock s t = .ok s' ∧ Queued s' ∧
      s' = (s.setReady (t :: s.threadReadyList)).setStatus t .TASK_READY := by
  have hne := hb.not_ready
  have hnot := h.not_ready hne
  have hb : (s.task t).status.blocked = true := hb
  refine ⟨_, ?_, h.move (k := { s.task t with status := .TASK_READY }) ht (h.magic t ht) (by simp)
    (List.nodup_cons.mpr ⟨hnot, h.nodup⟩) (fun u => ?_), rfl⟩
  · simp only [threadUnblock, ASSERT_true hb, ok_bind, ne_eq, hne, not_false_eq_true, ↓reduceIte,
      ASSERT_true hnot]
    rfl
  · rw [List.mem_cons]
    by_cases he : u = t
    · simp [he]
    · simp [he]

theorem requeue_ok {s : Threads} (h : Leaving s) :
    ∃ s', requeue s = .ok s' ∧ Parted s' ∧ Kept s s' := by
  by_cases hrun : (s.task s.running).status = .TASK_RUNNING
  · have hnot : s.running ∉ s.threadReadyList := h.not_ready (by simp [hrun])
    let k := { s.task s.running with
      ticks := (s.task s.running).priority, status := .TASK_READY }
    refine ⟨(s.setReady (s.threadReadyList ++ [s.running])).setTask s.running k, ?_,
      ⟨h.move h.running_mem (h.magic _ h.running_mem) (by simp [k]) ?_ ?_, ?_⟩, ?_⟩
    · simp only [requeue, hrun, ↓reduceIte, ASSERT_true hnot, ok_bind]
      rfl
    · exact nodup_append_one h.nodup hnot
    · intro u
      simp only [List.mem_append, List.mem_singleton]
      by_cases he : u = s.running
      · simp [he, k]
      · simp [he]
    · intro t ht
      rw [Threads.setTask_task]
      split
      · simp [k]
      · rename_i hne
        exact fun he => hne (h.one t ht he)
    · refine ⟨rfl, rfl, rfl, fun t _ => Threads.setTask_blocked ?_ t, fun t _ hb => ?_, fun t => ?_⟩
      · rw [Threads.setReady_task, hrun]
        rfl
      · have hne : t ≠ s.running := by
          rintro rfl
          simp [Threads.Blocked, hrun, TaskStatus.blocked] at hb
        rw [Threads.setTask_other _ _ _ _ hne]
        rfl
      · rw [Threads.setTask_task]
        split
        · rename_i he
          rw [he]
        · rfl
  · refine ⟨s, by simp only [requeue, hrun, ↓reduceIte]; rfl, ⟨h.toQueued, ?_⟩, .refl s⟩
    intro t ht he
    exact hrun (h.one t ht he ▸ he)

/-- With an empty list everybody is blocked, the idle thread too. -/
theorem wakeIdle_ok {s : Threads} (h : Parted s) :
    ∃ s', wakeIdle s = .ok s' ∧ Parted s' ∧ s'.threadReadyList ≠ [] ∧ Kept s s' := by
  by_cases hempty : s.threadReadyList = []
  · have hb : s.Blocked s.idleThread :=
      h.blocked h.idle_mem (h.none _ h.idle_mem) (by simp [hempty])
    obtain ⟨s', hs', hq, rfl⟩ := threadUnblock_ok h.toQueued h.idle_mem hb
    refine ⟨_, by rw [wakeIdle, if_pos hempty]; exact hs', ⟨hq, ?_⟩, by simp, ?_⟩
    · intro t ht
      rw [Threads.setStatus_status]
      split
      · simp
      · exact h.none t ht
    · have hother : ∀ t, t ≠ s.idleThread → (((s.setReady (s.idleThread ::
          s.threadReadyList)).setStatus s.idleThread .TASK_READY).task t).status =
          (s.task t).status := fun t ht => by
        rw [Threads.setStatus_status, if_neg ht]
        rfl
      refine ⟨rfl, rfl, rfl, fun t ht => ?_, fun t ht _ => hother t ht,
        fun t => Threads.setStatus_resumes ..⟩
      unfold Threads.Blocked
      rw [hother t ht]
  · exact ⟨s, by simp only [wakeIdle, hempty, ↓reduceIte]; rfl, h, hempty, .refl s⟩

/-- The first of the list runs. -/
theorem switchTo_ok {s : Threads} (h : Parted s) {next : Nat} {rest : List Nat}
    (hl : s.threadReadyList = next :: rest) (r : IntrStatus) :
    let s' := switchTo ((s.setReady rest).setStatus next .TASK_RUNNING) next r
    SchedOk s' ∧ Switched s s' r := by
  intro s'
  have hready := (h.ready next).mp (by simp [hl])
  have hnodup := h.nodup
  rw [hl, List.nodup_cons] at hnodup
  have hq : Queued ((s.setReady rest).setStatus next .TASK_RUNNING) := by
    refine h.move hready.1 (h.magic next hready.1) (by simp) hnodup.2 fun u => ?_
    rw [hl, List.mem_cons]
    by_cases he : u = next
    · simp [he, hnodup.1]
    · simp [he]
  have hstatus : ∀ u, (s'.task u).status =
      if u = next then .TASK_RUNNING else (s.task u).status := by
    intro u
    refine Eq.trans ?_ (Threads.setStatus_status ..)
    show ((Threads.setTask _ _ _).task u).status = _
    rw [Threads.setTask_task]
    split
    · rename_i he
      rw [he]
      rfl
    · rfl
  have hmagic : ∀ u, (s'.task u).stackMagic = (s.task u).stackMagic := by
    intro u
    refine Eq.trans ?_ (Threads.setStatus_magic (s.setReady rest) next u .TASK_RUNNING)
    show ((Threads.setTask _ _ _).task u).stackMagic = _
    rw [Threads.setTask_task]
    split
    · rename_i he
      rw [he]
    · rfl
  refine ⟨⟨⟨hready.1, h.main_mem, h.idle_mem, hnodup.2, ?_, ?_, ?_⟩, ?_⟩, ⟨rfl, rfl, ?_, ?_, ?_⟩⟩
  · intro u
    rw [hstatus]
    refine (hq.ready u).trans ?_
    rw [Threads.setStatus_status]
    rfl
  · intro u hu
    rw [hstatus, ← Threads.setStatus_status]
    exact hq.alive u hu
  · intro u hu
    rw [hmagic]
    exact h.magic u hu
  · intro u hu
    rw [hstatus]
    by_cases he : u = next
    · simp [he, s', switchTo]
    · simp only [he, ↓reduceIte, s', switchTo]
      simp [h.none u hu]
  · intro u _
    unfold Threads.Blocked
    rw [hstatus]
    split
    · rename_i he
      rw [he, hready.2]
      decide
    · rfl
  · intro u _ hb
    rw [hstatus, if_neg]
    rintro rfl
    exact hb.not_ready hready.2
  · intro u
    have hresumes : s'.intrOf u = (s'.task u).resumes := by
      unfold Threads.intrOf
      split
      · rename_i he
        rw [he]
        rfl
      · rfl
    rw [hresumes]
    show ((Threads.setTask _ _ _).task u).resumes = _
    rw [Threads.setTask_task]
    split
    · rename_i he
      exact (if_pos he).symm
    · rename_i he
      rw [Threads.setStatus_resumes]
      exact (if_neg he).symm

/-- `schedule` finds a thread to pop, whatever its caller has made of the running one. -/
theorem schedule_ok {s : Threads} (h : Leaving s) (hoff : s.intr = .INTR_OFF) (r : IntrStatus) :
    ∃ s', schedule s r = .ok s' ∧ SchedOk s' ∧ Switched s s' r := by
  obtain ⟨s1, h1, hp1, hk1⟩ := requeue_ok h
  obtain ⟨s2, h2, hp2, hne, hk2⟩ := wakeIdle_ok hp1
  have hk := hk1.trans hk2
  obtain ⟨next, rest, hl⟩ := List.exists_cons_of_ne_nil hne
  obtain ⟨hok, hsw⟩ := switchTo_ok hp2 hl r
  refine ⟨_, ?_, hok, ?_⟩
  · simp only [schedule, ASSERT_true hoff, ok_bind, h1, h2, hl]
    rfl
  · refine ⟨hsw.all.trans hk.all, hsw.idle.trans hk.idle, fun t ht => ?_, fun t ht hb => ?_,
      fun t => ?_⟩
    · exact (hsw.blocked t (hk.idle ▸ ht)).trans (hk.blocked t ht)
    · exact (hsw.status t (hk.idle ▸ ht) ((hk.blocked t ht).mpr hb)).trans (hk.status t ht hb)
    · rw [hsw.intrOf, hk.running, hk.resumes]

/-! ## The calls -/

/-- What a call does to the threads there are: the idle thread apart, `B` are blocked
after it, those that were as they were, and each has the interrupt status it had. -/
structure Turn (s s' : Threads) (B : Nat → Prop) : Prop where
  all : ∀ t ∈ s.threadAllList, t ∈ s'.threadAllList
  idle : s'.idleThread = s.idleThread
  blocked : ∀ t ∈ s.threadAllList, t ≠ s.idleThread → (s'.Blocked t ↔ B t)
  status : ∀ t ∈ s.threadAllList, t ≠ s.idleThread → s.Blocked t → B t →
    (s'.task t).status = (s.task t).status
  intrOf : ∀ t ∈ s.threadAllList, s'.intrOf t = s.intrOf t

/-- The threads stay, and those that do not run keep their interrupt status. -/
structure Outlives (s s' : Threads) : Prop where
  all : ∀ t ∈ s.threadAllList, t ∈ s'.threadAllList
  idle : s'.idleThread = s.idleThread
  intrOf : ∀ t ∈ s.threadAllList, t ≠ s.running → s'.intrOf t = s.intrOf t

theorem Turn.outlives {s s' : Threads} {B : Nat → Prop} (h : Turn s s' B) : Outlives s s' :=
  ⟨h.all, h.idle, fun t ht _ => h.intrOf t ht⟩

namespace SchedOk

variable {s : Threads} {t : Nat}

theorem running_status (h : SchedOk s) : (s.task s.running).status = .TASK_RUNNING :=
  (h.one _ h.running_mem).mpr rfl

theorem running_not_ready (h : SchedOk s) : s.running ∉ s.threadReadyList :=
  h.not_ready (by simp [h.running_status])

theorem running_not_blocked (h : SchedOk s) : ¬ s.Blocked s.running := by
  simp [Threads.Blocked, h.running_status, TaskStatus.blocked]

/-- The running thread may give up the processor as a blocked one. -/
theorem blocking (h : SchedOk s) {stat : TaskStatus} (hstat : stat.blocked = true) :
    Leaving ((s.setIntr .INTR_OFF).setStatus s.running stat) := by
  refine ⟨(h.setIntr .INTR_OFF).move (l := s.threadReadyList)
    (k := { s.task s.running with status := stat }) h.running_mem (h.magic _ h.running_mem) ?_
    h.nodup fun u => ?_, fun t ht => ?_⟩
  · show stat ≠ _
    rintro rfl
    cases hstat
  · by_cases he : u = s.running
    · subst he
      simp only [h.running_not_ready, ne_eq, not_true_eq_false, false_and, or_false, true_and,
        false_iff]
      rintro rfl
      cases hstat
    · simp [he, Threads.setIntr]
  · rw [Threads.setStatus_status]
    split
    · exact fun _ => ‹_›
    · exact (h.one t ht).mp

/-- `thread_block`: the running thread joins the blocked ones. -/
theorem threadBlock_ok (h : SchedOk s) {stat : TaskStatus} (hstat : stat.blocked = true) :
    ∃ s', threadBlock s stat = .ok s' ∧ SchedOk s' ∧
      (Turn s s' fun t => s.Blocked t ∨ t = s.running) ∧
      (s.running ≠ s.idleThread → (s'.task s.running).status = stat) := by
  have hl := h.blocking hstat
  obtain ⟨s', hs', hok, hsw⟩ := schedule_ok hl rfl s.intr
  refine ⟨s', ?_, hok, ⟨fun t ht => hsw.all ▸ ht, hsw.idle, fun t _ hne => ?_,
    fun t _ hne hb _ => ?_, fun t _ => ?_⟩, fun hidle => ?_⟩
  · rw [threadBlock, ASSERT_true hstat]
    exact hs'
  · refine (hsw.blocked t hne).trans ?_
    unfold Threads.Blocked
    rw [Threads.setStatus_status]
    split
    · rename_i he
      simp [he, hstat]
    · rename_i he
      simp [he, Threads.setIntr]
  · have hrun : t ≠ s.running := by
      rintro rfl
      exact h.running_not_blocked hb
    have hsame : (((s.setIntr .INTR_OFF).setStatus s.running stat).task t).status =
        (s.task t).status := by
      rw [Threads.setStatus_status, if_neg hrun]
      rfl
    refine (hsw.status t hne ?_).trans hsame
    unfold Threads.Blocked
    rw [hsame]
    exact hb
  · rw [hsw.intrOf, Threads.setStatus_resumes]
    rfl
  · have hself :
        (((s.setIntr .INTR_OFF).setStatus s.running stat).task s.running).status = stat := by
      rw [Threads.setStatus_status, if_pos rfl]
    refine (hsw.status s.running hidle ?_).trans hself
    unfold Threads.Blocked
    rw [hself]
    exact hstat

/-- Or as a ready one, at the end of the list. -/
theorem yielding (h : SchedOk s) :
    Leaving (((s.setIntr .INTR_OFF).setReady (s.threadReadyList ++ [s.running])).setStatus s.running
      .TASK_READY) := by
  refine ⟨(h.setIntr .INTR_OFF).move (k := { s.task s.running with status := .TASK_READY })
    h.running_mem (h.magic _ h.running_mem) (by simp) (nodup_append_one h.nodup h.running_not_ready)
    fun u => ?_, fun t ht => ?_⟩
  · by_cases he : u = s.running
    · simp [he]
    · simp [he, Threads.setIntr]
  · rw [Threads.setStatus_status]
    split
    · exact fun _ => ‹_›
    · exact (h.one t ht).mp

/-- `thread_yield`: the running thread is in the list before `schedule` looks. -/
theorem threadYield_ok (h : SchedOk s) :
    ∃ s', threadYield s = .ok s' ∧ SchedOk s' ∧ Turn s s' s.Blocked := by
  have hnot := h.running_not_ready
  let s1 := ((s.setIntr .INTR_OFF).setReady (s.threadReadyList ++ [s.running])).setStatus s.running
    .TASK_READY
  have hl : Leaving s1 := h.yielding
  obtain ⟨s', hs', hok, hsw⟩ := schedule_ok hl rfl s.intr
  have hb1 : ∀ t, s1.Blocked t ↔ s.Blocked t := by
    apply Threads.setTask_blocked
    simp only [Threads.setReady_task, Threads.setIntr, h.running_status]
    rfl
  refine ⟨s', ?_, hok, ⟨fun t ht => hsw.all ▸ ht, hsw.idle,
    fun t _ hne => (hsw.blocked t hne).trans (hb1 t), fun t _ hne hb _ => ?_, fun t _ => ?_⟩⟩
  · simp only [threadYield, ASSERT_true hnot, ok_bind]
    exact hs'
  · refine (hsw.status t hne ((hb1 t).mpr hb)).trans ?_
    rw [Threads.setStatus_status, if_neg]
    · rfl
    · rintro rfl
      exact h.running_not_blocked hb
  · rw [hsw.intrOf, Threads.setStatus_resumes]
    rfl

/-- A running thread's own account of time touches nothing else. -/
theorem setTicks (h : SchedOk s) (k : TaskStruct) (hstatus : k.status = (s.task s.running).status)
    (hmagic : k.stackMagic = (s.task s.running).stackMagic) (n : UInt32) (status : IntrStatus) :
    SchedOk (({ s with ticks := n, intr := status } : Threads).setTask s.running k) := by
  have hstat : ∀ t, ((({ s with ticks := n, intr := status } : Threads).setTask s.running k).task
      t).status = (s.task t).status := by
    intro t
    rw [Threads.setTask_task]
    split
    · rename_i he
      rw [he, hstatus]
    · rfl
  refine ⟨⟨h.running_mem, h.main_mem, h.idle_mem, h.nodup, fun t => ?_, fun t ht => ?_,
    fun t ht => ?_⟩, fun t ht => ?_⟩
  · rw [hstat]
    exact h.ready t
  · rw [hstat]
    exact h.alive t ht
  · rw [Threads.setTask_task]
    split
    · rw [hmagic]
      exact h.magic _ h.running_mem
    · exact h.magic t ht
  · rw [hstat]
    exact h.one t ht

/-- The timer: the running thread has a tick less, or its turn is over. -/
theorem intrTimerHandler_ok (h : SchedOk s) :
    ∃ s', intrTimerHandler s = .ok s' ∧ SchedOk s' ∧ Turn s s' s.Blocked := by
  have hmagic := h.magic _ h.running_mem
  simp only [intrTimerHandler, ASSERT_true hmagic, ok_bind]
  split
  · have hok := h.setTicks { s.task s.running with
      elapsedTicks := (s.task s.running).elapsedTicks + 1 } rfl rfl (s.ticks + 1) .INTR_OFF
    obtain ⟨s', hs', hok', hsw⟩ :=
      schedule_ok ⟨hok.toQueued, fun t ht => (hok.one t ht).mp⟩ rfl s.intr
    refine ⟨s', hs', hok', ⟨fun t ht => hsw.all ▸ ht, hsw.idle, fun t _ hne => ?_,
      fun t _ hne hb _ => ?_, fun t _ => ?_⟩⟩
    · exact (hsw.blocked t hne).trans (Threads.setTask_blocked (by rfl) t)
    · refine (hsw.status t hne ((Threads.setTask_blocked (by rfl) t).mpr hb)).trans ?_
      rw [Threads.setTask_task, if_neg]
      rintro rfl
      exact h.running_not_blocked hb
    · rw [hsw.intrOf]
      unfold Threads.intrOf
      by_cases he : t = s.running
      · rw [if_pos he]
        exact if_pos he
      · rw [Threads.setTask_other _ _ _ _ he, if_neg he]
        exact if_neg he
  · have hok := h.setTicks { s.task s.running with
      elapsedTicks := (s.task s.running).elapsedTicks + 1
      ticks := (s.task s.running).ticks - 1 } rfl rfl (s.ticks + 1) s.intr
    refine ⟨_, rfl, hok, ⟨fun _ ht => ht, rfl, fun t _ _ => Threads.setTask_blocked (by rfl) t,
      fun t _ _ hb _ => ?_, fun t _ => ?_⟩⟩
    · show ((Threads.setTask _ _ _).task t).status = _
      rw [Threads.setTask_task, if_neg]
      rintro rfl
      exact h.running_not_blocked hb
    unfold Threads.intrOf
    by_cases he : t = s.running
    · rw [if_pos he]
      exact if_pos he
    · rw [if_neg he]
      refine (if_neg he).trans ?_
      show ((Threads.setTask _ _ _).task t).resumes = _
      rw [Threads.setTask_other _ _ _ _ he]

/-- `thread_unblock`: the thread is the first to run. -/
theorem threadUnblock_ok (h : SchedOk s) (ht : t ∈ s.threadAllList) (hb : s.Blocked t) :
    ∃ s', threadUnblock s t = .ok s' ∧ SchedOk s' ∧ s'.running = s.running ∧
      Turn s s' fun u => s.Blocked u ∧ u ≠ t := by
  obtain ⟨s', hs', hq, rfl⟩ := ZhuOS.threadUnblock_ok h.toQueued ht hb
  have hne : t ≠ s.running := by
    rintro rfl
    exact h.running_not_blocked hb
  refine ⟨_, hs', ⟨hq, fun u hu => ?_⟩, rfl, ⟨fun _ hu => hu, rfl, fun u _ _ => ?_,
    fun u _ _ _ hb => ?_, fun u _ => ?_⟩⟩
  · rw [Threads.setStatus_status]
    split
    · rename_i he
      subst he
      simpa [Threads.setReady, Threads.setStatus, Threads.setTask] using hne
    · exact h.one u hu
  · unfold Threads.Blocked
    rw [Threads.setStatus_status]
    split
    · rename_i he
      simp [he, TaskStatus.blocked]
    · rename_i he
      simp [he]
  · rw [Threads.setStatus_status, if_neg hb.2]
    rfl
  · unfold Threads.intrOf
    rw [Threads.setStatus_resumes]
    rfl

/-- `thread_start`: the new thread is the last to run. -/
theorem threadStart_ok (h : SchedOk s) (ht : t ∉ s.threadAllList) (prio : UInt8) :
    ∃ s', threadStart s t prio = .ok s' ∧ SchedOk s' ∧ s'.running = s.running ∧
      s'.threadAllList = s.threadAllList ++ [t] ∧ Turn s s' s.Blocked := by
  have hready : t ∉ s.threadReadyList := fun hm => ht ((h.ready t).mp hm).1
  have hmain : t ≠ s.mainThread := fun he => ht (he ▸ h.main_mem)
  have hnew : ((initThread s t prio).task t).status = .TASK_READY := by
    rw [initThread, Threads.setTask_self]
    exact if_neg hmain
  have hold : ∀ u ∈ s.threadAllList, (initThread s t prio).task u = s.task u := fun u hu =>
    Threads.setTask_other _ _ _ _ fun he => ht (he ▸ hu)
  have hmem : ∀ u, u ∈ s.threadAllList ++ [t] → u ∈ s.threadAllList ∨ u = t := by simp
  let s1 := (initThread s t prio).setReady (s.threadReadyList ++ [t])
  refine ⟨{ s1 with threadAllList := s.threadAllList ++ [t] }, ?_,
    ⟨⟨List.mem_append_left _ h.running_mem, List.mem_append_left _ h.main_mem,
      List.mem_append_left _ h.idle_mem, nodup_append_one h.nodup hready, fun u => ?_,
      fun u hu => ?_, fun u hu => ?_⟩, fun u hu => ?_⟩, rfl, rfl,
    ⟨fun u hu => List.mem_append_left _ hu, rfl, fun u hu _ => ?_,
      fun u hu _ _ _ => congrArg TaskStruct.status (hold u hu), fun u hu => ?_⟩⟩
  · have hready' : t ∉ (initThread s t prio).threadReadyList := hready
    have hall : t ∉ ((initThread s t prio).setReady
        ((initThread s t prio).threadReadyList ++ [t])).threadAllList := ht
    simp only [threadStart, ASSERT_true hready', ok_bind, ASSERT_true hall]
    rfl
  · show u ∈ s.threadReadyList ++ [t] ↔ u ∈ s.threadAllList ++ [t] ∧
      ((initThread s t prio).task u).status = .TASK_READY
    by_cases he : u = t
    · simp [he, hnew]
    · by_cases hu : u ∈ s.threadAllList
      · simp [he, hold u hu, h.ready u]
      · simp [he, h.ready u, hu]
  · show ((initThread s t prio).task u).status ≠ .TASK_DIED
    rcases hmem u hu with hu | rfl
    · rw [hold u hu]
      exact h.alive u hu
    · simp [hnew]
  · show ((initThread s t prio).task u).stackMagic = _
    rcases hmem u hu with hu | rfl
    · rw [hold u hu]
      exact h.magic u hu
    · simp [initThread]
  · show ((initThread s t prio).task u).status = .TASK_RUNNING ↔ u = s.running
    rcases hmem u hu with hu | rfl
    · rw [hold u hu]
      exact h.one u hu
    · have hne : u ≠ s.running := fun he => ht (he ▸ h.running_mem)
      simp [hnew, hne]
  · show ((initThread s t prio).task u).status.blocked = true ↔ _
    rw [hold u hu]
    rfl
  · show (if u = s.running then s.intr else ((initThread s t prio).task u).resumes) = _
    rw [hold u hu]
    rfl

end SchedOk

/-! ## Runs -/

/-- What the threads and the timer do. -/
inductive ThreadCall
  | timer
  | block (stat : TaskStatus)
  | yield
  | unblock (pthread : Nat)
  | start (page : Nat) (prio : UInt8)
  /-- `intr_enable` or `intr_disable` by the running thread -/
  | intr (status : IntrStatus)

namespace Threads

/-- The timer comes while interrupts are on, and `get_kernel_pages` returns no page
that is a thread's already. -/
def guard (s : Threads) : ThreadCall → Prop
  | .timer => s.intr = .INTR_ON
  | .block stat => stat.blocked = true
  | .yield => True
  | .unblock t => t ∈ s.threadAllList ∧ s.Blocked t
  | .start page _ => page ∉ s.threadAllList
  | .intr _ => True

def exec (s : Threads) : ThreadCall → Except Fault Threads
  | .timer => intrTimerHandler s
  | .block stat => threadBlock s stat
  | .yield => threadYield s
  | .unblock t => threadUnblock s t
  | .start page prio => threadStart s page prio
  | .intr status => .ok (s.setIntr status)

def system : Guarded.System Threads ThreadCall Fault := ⟨guard, exec⟩

/-- The blocked threads after a call. -/
def BlockedAfter (s : Threads) : ThreadCall → Nat → Prop
  | .block _, t => s.Blocked t ∨ t = s.running
  | .unblock u, t => s.Blocked t ∧ t ≠ u
  | .timer, t | .yield, t | .start _ _, t | .intr _, t => s.Blocked t

end Threads

theorem SchedOk.setIntr {s : Threads} (h : SchedOk s) (status : IntrStatus) :
    SchedOk (s.setIntr status) := ⟨h.toQueued.setIntr status, h.one⟩

/-- A call that the guard lets through goes through. -/
theorem SchedOk.exec_ok {s : Threads} (h : SchedOk s) {e : ThreadCall} (hg : s.guard e) :
    ∃ s', s.exec e = .ok s' ∧ SchedOk s' ∧
      ((∀ status, e ≠ .intr status) → Turn s s' (s.BlockedAfter e)) := by
  cases e with
  | timer =>
    obtain ⟨s', hs', hok, ht⟩ := h.intrTimerHandler_ok
    exact ⟨s', hs', hok, fun _ => ht⟩
  | block stat =>
    obtain ⟨s', hs', hok, ht, -⟩ := h.threadBlock_ok hg
    exact ⟨s', hs', hok, fun _ => ht⟩
  | yield =>
    obtain ⟨s', hs', hok, ht⟩ := h.threadYield_ok
    exact ⟨s', hs', hok, fun _ => ht⟩
  | unblock t =>
    obtain ⟨s', hs', hok, -, ht⟩ := h.threadUnblock_ok hg.1 hg.2
    exact ⟨s', hs', hok, fun _ => ht⟩
  | start page prio =>
    obtain ⟨s', hs', hok, -, -, ht⟩ := h.threadStart_ok hg prio
    exact ⟨s', hs', hok, fun _ => ht⟩
  | intr status => exact ⟨_, rfl, h.setIntr status, fun hne => absurd rfl (hne status)⟩

/-- A thread that the call is not about is blocked or awake as before. -/
theorem SchedOk.exec_blocked {s s' : Threads} (h : SchedOk s) {e : ThreadCall} (hg : s.guard e)
    (hs' : s.exec e = .ok s') {t : Nat} (ht : t ∈ s.threadAllList) (hidle : t ≠ s.idleThread)
    (hblock : ∀ stat, e = .block stat → t ≠ s.running) (hunblock : e ≠ .unblock t) :
    s'.Blocked t ↔ s.Blocked t := by
  obtain ⟨s'', hs'', -, hturn⟩ := h.exec_ok hg
  obtain rfl := Except.ok.inj (hs'.symm.trans hs'')
  cases e with
  | intr status =>
    cases hs'
    exact .rfl
  | block stat =>
    have hne := hblock stat rfl
    rw [(hturn fun _ he => nomatch he).blocked t ht hidle]
    simp [Threads.BlockedAfter, hne]
  | unblock u =>
    have hne : t ≠ u := fun he => hunblock (he ▸ rfl)
    rw [(hturn fun _ he => nomatch he).blocked t ht hidle]
    simp [Threads.BlockedAfter, hne]
  | timer | yield | start => exact (hturn fun _ he => nomatch he).blocked t ht hidle

theorem threads_keeps : Guarded.Keeps Threads.system SchedOk := by
  intro s e h hg
  obtain ⟨s', hs', hok, -⟩ := h.exec_ok hg
  exact ⟨s', hs', hok⟩

/-- `thread_init` leaves the main thread running and the idle thread ready. -/
theorem threadInit_ok {m s : Threads} {idlePage : Nat} (h : threadInit m idlePage = .ok s) :
    SchedOk s := by
  obtain ⟨s1, h1, h⟩ := bind_ok.mp h
  obtain ⟨s2, h2, h⟩ := bind_ok.mp h
  cases h
  obtain ⟨_, -, h1⟩ := bind_ok.mp h1
  cases h1
  obtain ⟨_, -, h2⟩ := bind_ok.mp h2
  obtain ⟨_, hnew, h2⟩ := bind_ok.mp h2
  cases h2
  have hnew := ASSERT_ok hnew
  have hne : idlePage ≠ m.running := by
    simpa [initThread, Threads.setTask, Threads.setReady] using hnew
  -- two threads, the running one and the ready one
  refine ⟨⟨?_, ?_, ?_, ?_, fun t => ?_, ?_, ?_⟩, ?_⟩
  all_goals simp only [initThread, Threads.setTask, Threads.setReady, List.nil_append,
    List.mem_append, List.mem_singleton, hne, ↓reduceIte]
  · exact .inl trivial
  · exact .inl trivial
  · exact .inr trivial
  · exact List.nodup_cons.mpr ⟨List.not_mem_nil, List.nodup_nil⟩
  · by_cases hi : t = idlePage
    · simp [hi]
    · by_cases hm : t = m.running
      · simp [hm, Ne.symm hne]
      · simp [hi, hm]
  · rintro t (rfl | rfl)
    · simp [Ne.symm hne]
    · simp
  · rintro t (rfl | rfl)
    · simp [Ne.symm hne]
    · simp
  · rintro t (rfl | rfl)
    · simp [Ne.symm hne]
    · simp [hne]

/-- The running thread alone is `TASK_RUNNING`, and not in the ready list; that list
holds the ready threads, once each, and when it is empty the idle thread is blocked or
runs. -/
structure Scheduled (s : Threads) : Prop where
  one : ∃! t, t ∈ s.threadAllList ∧ (s.task t).status = .TASK_RUNNING
  running : (s.task s.running).status = .TASK_RUNNING ∧ s.running ∉ s.threadReadyList
  nodup : s.threadReadyList.Nodup
  ready : ∀ t, t ∈ s.threadReadyList ↔ t ∈ s.threadAllList ∧ (s.task t).status = .TASK_READY
  blocked : ∀ t, s.Blocked t → t ∉ s.threadReadyList
  idle : s.threadReadyList = [] → s.Blocked s.idleThread ∨ s.running = s.idleThread

theorem SchedOk.scheduled {s : Threads} (h : SchedOk s) : Scheduled s := by
  refine ⟨⟨s.running, ⟨h.running_mem, h.running_status⟩, fun t ht => (h.one t ht.1).mp ht.2⟩,
    ⟨h.running_status, h.running_not_ready⟩, h.nodup, h.ready,
    fun t hb => h.not_ready hb.not_ready, fun hempty => ?_⟩
  by_cases hrun : s.running = s.idleThread
  · exact .inr hrun
  · refine .inl (h.blocked h.idle_mem (fun he => hrun ?_) (by simp [hempty]))
    exact ((h.one _ h.idle_mem).mp he).symm

/-- In every state that timer ticks and calls lead to from `thread_init` there is one
runner, and each further call returns: no `ASSERT` fails and `schedule` finds a thread
to pop. -/
theorem threads_run {m s₀ s : Threads} {idlePage : Nat} (h₀ : threadInit m idlePage = .ok s₀)
    {calls : List ThreadCall} (hrun : Guarded.Run Threads.system s₀ calls s) :
    Scheduled s ∧ ∀ e, s.guard e → ∃ s', s.exec e = .ok s' := by
  have hok := hrun.invariant threads_keeps (threadInit_ok h₀)
  refine ⟨hok.scheduled, fun e hg => ?_⟩
  obtain ⟨s', hs', -⟩ := hok.exec_ok hg
  exact ⟨s', hs'⟩

/-- The machine before `thread_init`: the boot code on the page at `0xc009e000`. -/
def bootThreads : Threads where
  task := fun _ => ⟨.TASK_RUNNING, 0, 0, 0, 0, .INTR_OFF⟩
  running := 0xc009e000
  mainThread := 0
  idleThread := 0
  threadReadyList := []
  threadAllList := []
  ticks := 0
  intr := .INTR_OFF

/-- The machine after it, the idle thread on the first page of the heap. -/
def bootedThreads : Threads := ((threadInit bootThreads 0xc0100000).toOption).getD bootThreads

theorem threadInit_booted : threadInit bootThreads 0xc0100000 = .ok bootedThreads := rfl

/-- The main thread blocks, and so does the idle thread. -/
theorem threads_run_idle : ∃ s, Guarded.Run Threads.system bootedThreads
    [.block .TASK_BLOCKED, .block .TASK_BLOCKED] s ∧ Scheduled s := by
  have hg : ∀ s, Threads.guard s (.block .TASK_BLOCKED) := fun _ => rfl
  obtain ⟨s₁, h₁, hok, -⟩ := (threadInit_ok threadInit_booted).exec_ok (hg bootedThreads)
  obtain ⟨s₂, h₂, -⟩ := hok.exec_ok (hg s₁)
  have hrun : Guarded.Run Threads.system bootedThreads
      [.block .TASK_BLOCKED, .block .TASK_BLOCKED] s₂ :=
    .cons (hg bootedThreads) h₁ (.cons (hg s₁) h₂ (.nil s₂))
  exact ⟨s₂, hrun, (threads_run threadInit_booted hrun).1⟩

/-- The idle thread wakes itself. -/
example : (do
    let s ← threadBlock bootedThreads .TASK_BLOCKED
    let s ← threadBlock s .TASK_BLOCKED
    return s.running) = .ok 0xc0100000 := rfl

end ZhuOS
