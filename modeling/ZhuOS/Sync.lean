import ZhuOS.Threads

/-!
# `thread/sync.c`: semaphores

The bodies of `sema_down` and `sema_up` run with interrupts off, so each is one step
of the running thread, but for the loop of `sema_down`: a thread that finds the value
zero blocks inside it and tests the value again when it runs next. `Waiters` says who
is in the list and who is on the way back to the test.
-/

namespace ZhuOS

structure Semaphore where
  value : UInt8
  waiters : List Nat

def semaInit (value : UInt8) : Semaphore := ⟨value, []⟩

/-- One round of the loop of `sema_down`, with interrupts off: `true` when the value
was there to take, `false` when the thread has blocked. -/
def semaRound (s : Threads) (psema : Semaphore) : Except Fault (Bool × Threads × Semaphore) := do
  if psema.value = 0 then
    -- the test after the `ASSERT` repeats it and calls `PANIC`
    ASSERT (s.running ∉ psema.waiters)
    let psema := { psema with waiters := psema.waiters ++ [s.running] }
    return (false, ← threadBlock s .TASK_BLOCKED, psema)
  else
    let psema := { psema with value := psema.value - 1 }
    ASSERT (psema.value = 0)
    return (true, s, psema)

/-- The waiter `sema_up` wakes. -/
def popWaiter (s : Threads) (psema : Semaphore) : Except Fault (Threads × Semaphore) :=
  match psema.waiters with
  | [] => return (s, psema)
  | threadBlocked :: rest => do
    return (← threadUnblock s threadBlocked, { psema with waiters := rest })

def semaUp (s : Threads) (psema : Semaphore) : Except Fault (Threads × Semaphore) := do
  let oldStatus := s.intr
  ASSERT (psema.value = 0)
  let (s, psema) ← popWaiter (s.setIntr .INTR_OFF) psema
  let psema := { psema with value := psema.value + 1 }
  ASSERT (psema.value = 1)
  return (s.setIntr oldStatus, psema)

/-! ## The list of waiters -/

/-- `W` are the threads inside the loop of `sema_down`. Those in the list are blocked;
the others have been woken, and while the value is there to take and the list is not
empty there is one of them. -/
structure Waiters (s : Threads) (psema : Semaphore) (W : Nat → Prop) : Prop where
  sched : SchedOk s
  known : ∀ t, W t → t ∈ s.threadAllList ∧ t ≠ s.idleThread
  nodup : psema.waiters.Nodup
  mem : ∀ t ∈ psema.waiters, W t ∧ (s.task t).status = .TASK_BLOCKED
  woken : ∀ t, W t → t ∉ psema.waiters → ¬ s.Blocked t
  wake : psema.value = 1 → psema.waiters ≠ [] → ∃ t, W t ∧ t ∉ psema.waiters

namespace Waiters

variable {s s' : Threads} {psema : Semaphore} {W : Nat → Prop}

theorem blocked (h : Waiters s psema W) {t : Nat} (ht : t ∈ psema.waiters) : s.Blocked t := by
  unfold Threads.Blocked
  rw [(h.mem t ht).2]
  rfl

theorem running_not_mem (h : Waiters s psema W) : s.running ∉ psema.waiters :=
  fun hm => h.sched.running_not_blocked (h.blocked hm)

/-- A call that leaves the waiters blocked or awake as they were. -/
theorem turn (h : Waiters s psema W) (hok : SchedOk s') {B : Nat → Prop} (ht : Turn s s' B)
    (hB : ∀ t, W t → (B t ↔ s.Blocked t)) : Waiters s' psema W := by
  refine ⟨hok, fun t hw => ?_, h.nodup, fun t hm => ?_, fun t hw hn => ?_, h.wake⟩
  · obtain ⟨hall, hidle⟩ := h.known t hw
    exact ⟨ht.all t hall, ht.idle ▸ hidle⟩
  · obtain ⟨hw, hstatus⟩ := h.mem t hm
    obtain ⟨hall, hidle⟩ := h.known t hw
    have hb := h.blocked hm
    exact ⟨hw, (ht.status t hall hidle hb ((hB t hw).mpr hb)).trans hstatus⟩
  · obtain ⟨hall, hidle⟩ := h.known t hw
    rw [ht.blocked t hall hidle, hB t hw]
    exact h.woken t hw hn

theorem setIntr (h : Waiters s psema W) (status : IntrStatus) :
    Waiters (s.setIntr status) psema W :=
  ⟨h.sched.setIntr status, h.known, h.nodup, h.mem, h.woken, h.wake⟩

/-- The threads outside the loop may do what they like. -/
theorem exec_ok (h : Waiters s psema W) {e : ThreadCall} (hg : s.guard e)
    (hblock : ∀ stat, e = .block stat → ¬ W s.running) (hunblock : ∀ t, e = .unblock t → ¬ W t) :
    ∃ s', s.exec e = .ok s' ∧ Waiters s' psema W ∧ Outlives s s' := by
  obtain ⟨s', hs', hok, ht⟩ := h.sched.exec_ok hg
  refine ⟨s', hs', ?_⟩
  cases e with
  | intr status =>
    cases hs'
    refine ⟨h.setIntr status, fun _ ht => ht, rfl, fun t _ hne => ?_⟩
    exact (if_neg hne).trans (if_neg hne).symm
  | block stat =>
    have ht := ht fun _ he => by cases he
    refine ⟨h.turn hok ht fun t hw => ?_, ht.outlives⟩
    have hne : t ≠ s.running := by
      rintro rfl
      exact hblock stat rfl hw
    simp [Threads.BlockedAfter, hne]
  | unblock u =>
    have ht := ht fun _ he => by cases he
    refine ⟨h.turn hok ht fun t hw => ?_, ht.outlives⟩
    have hne : t ≠ u := by
      rintro rfl
      exact hunblock t rfl hw
    simp [Threads.BlockedAfter, hne]
  | timer | yield | start page prio =>
    have ht := ht fun _ he => by cases he
    exact ⟨h.turn hok ht fun _ _ => .rfl, ht.outlives⟩

/-- Another order of the ready list is as good. -/
theorem reorder (h : Waiters s psema W) {l : List Nat} (hl : l.Perm s.threadReadyList) :
    Waiters (s.setReady l) psema W := by
  have hs := h.sched
  refine ⟨⟨⟨hs.running_mem, hs.main_mem, hs.idle_mem, hl.nodup_iff.mpr hs.nodup, fun t => ?_,
    hs.alive, hs.magic⟩, hs.one⟩, h.known, h.nodup, h.mem, h.woken, h.wake⟩
  exact hl.mem_iff.trans (hs.ready t)

/-- A thread that finds the value zero is the last of the waiters. -/
theorem round_blocks (h : Waiters s psema W) (hz : psema.value = 0)
    (hidle : s.running ≠ s.idleThread) : ∃ s', semaRound s psema =
      .ok (false, s', { psema with waiters := psema.waiters ++ [s.running] }) ∧
      Waiters s' { psema with waiters := psema.waiters ++ [s.running] }
        (fun t => W t ∨ t = s.running) ∧ Turn s s' fun t => s.Blocked t ∨ t = s.running := by
  have hnot := h.running_not_mem
  have hstat : TaskStatus.TASK_BLOCKED.blocked = true := rfl
  obtain ⟨s', hs', hok, ht, hstatus⟩ := h.sched.threadBlock_ok hstat
  have hrun := h.sched.running_mem
  have hknown : ∀ t, W t ∨ t = s.running → t ∈ s.threadAllList ∧ t ≠ s.idleThread := by
    rintro t (hw | rfl)
    · exact h.known t hw
    · exact ⟨hrun, hidle⟩
  refine ⟨s', ?_, ⟨hok, fun t hw => ?_, nodup_append_one h.nodup hnot, fun t hm => ?_,
    fun t hw hn => ?_, fun hone _ => ?_⟩, ht⟩
  · simp only [semaRound, hz, ↓reduceIte, ASSERT_true hnot, ok_bind, hs']
    rfl
  · obtain ⟨hall, hi⟩ := hknown t hw
    exact ⟨ht.all t hall, ht.idle ▸ hi⟩
  · rcases List.mem_append.mp hm with hm | hm
    · obtain ⟨hw, hold⟩ := h.mem t hm
      obtain ⟨hall, hi⟩ := h.known t hw
      have hb := h.blocked hm
      exact ⟨.inl hw, (ht.status t hall hi hb (.inl hb)).trans hold⟩
    · obtain rfl := List.mem_singleton.mp hm
      exact ⟨.inr rfl, hstatus hidle⟩
  · obtain ⟨hall, hi⟩ := hknown t hw
    simp only [List.mem_append, List.mem_singleton, not_or] at hn
    rw [ht.blocked t hall hi]
    rintro (hb | rfl)
    · exact h.woken t (hw.resolve_right hn.2) hn.1 hb
    · exact hn.2 rfl
  · exact absurd (hz.symm.trans hone) (by decide)

/-- A thread that finds the value leaves the loop. -/
theorem round_takes (h : Waiters s psema W) (hone : psema.value = 1) :
    semaRound s psema = .ok (true, s, { psema with value := 0 }) ∧
      Waiters s { psema with value := 0 } fun t => W t ∧ t ≠ s.running := by
  refine ⟨?_, h.sched, fun t hw => h.known t hw.1, h.nodup, fun t hm => ?_,
    fun t hw hn => h.woken t hw.1 hn, fun hz => absurd hz (by decide : (0 : UInt8) ≠ 1)⟩
  · simp only [semaRound, hone]
    rfl
  · refine ⟨⟨(h.mem t hm).1, ?_⟩, (h.mem t hm).2⟩
    rintro rfl
    exact h.running_not_mem hm

/-- `sema_up` wakes the first of the waiters, if there is one. -/
theorem up_ok (h : Waiters s psema W) (hz : psema.value = 0) : ∃ s', semaUp s psema =
      .ok (s', ⟨1, psema.waiters.tail⟩) ∧ Waiters s' ⟨1, psema.waiters.tail⟩ W ∧
      s'.running = s.running ∧ Turn s s' fun t => s.Blocked t ∧ psema.waiters.head? ≠ some t := by
  obtain ⟨value, waiters⟩ := psema
  obtain rfl : value = 0 := hz
  cases waiters with
  | nil =>
    refine ⟨s, rfl, ⟨h.sched, h.known, List.nodup_nil, fun t hm => (nomatch hm), fun t hw _ => ?_,
      fun _ hne => absurd rfl hne⟩, rfl, ⟨fun _ ht => ht, rfl, fun t _ _ => ?_,
      fun _ _ _ _ _ => rfl, fun _ _ => rfl⟩⟩
    · exact h.woken t hw List.not_mem_nil
    · simp
  | cons u rest =>
    have hu : u ∈ u :: rest := List.mem_cons_self
    have hb := h.blocked hu
    obtain ⟨hall, -⟩ := h.known u (h.mem u hu).1
    have hnodup := List.nodup_cons.mp h.nodup
    obtain ⟨s', hs', hok, hrun, ht⟩ := h.sched.threadUnblock_ok hall hb
    obtain ⟨_, he, -, rfl⟩ := threadUnblock_ok h.sched.toQueued hall hb
    obtain rfl := Except.ok.inj (he.symm.trans hs')
    obtain ⟨_, hoff, -, rfl⟩ := threadUnblock_ok (h.sched.setIntr .INTR_OFF).toQueued hall hb
    have hmem : ∀ t ∈ rest, t ∈ u :: rest ∧ t ≠ u := fun t hm =>
      ⟨List.mem_cons_of_mem _ hm, fun he => hnodup.1 (he ▸ hm)⟩
    refine ⟨_, ?_, ⟨hok, fun t hw => ?_, hnodup.2, fun t hm => ?_, fun t hw hn => ?_,
      fun _ _ => ⟨u, (h.mem u hu).1, hnodup.1⟩⟩, hrun, ⟨ht.all, ht.idle, fun t hm hi => ?_,
      fun t hm hi hb hne => ?_, ht.intrOf⟩⟩
    · simp only [semaUp, popWaiter, hoff]
      rfl
    · exact ⟨ht.all t (h.known t hw).1, ht.idle ▸ (h.known t hw).2⟩
    · obtain ⟨hm, hne⟩ := hmem t hm
      obtain ⟨hw, hstatus⟩ := h.mem t hm
      obtain ⟨hall, hi⟩ := h.known t hw
      have hb := h.blocked hm
      exact ⟨hw, (ht.status t hall hi hb ⟨hb, hne⟩).trans hstatus⟩
    · obtain ⟨hall, hi⟩ := h.known t hw
      rw [ht.blocked t hall hi]
      rintro ⟨hb, hne⟩
      exact h.woken t hw (by simpa using ⟨hne, hn⟩) hb
    · rw [ht.blocked t hm hi]
      simp [eq_comm]
    · exact ht.status t hm hi hb ⟨hb, by simpa [eq_comm] using hne.2⟩

end Waiters

/-! ## One semaphore -/

/-- Inside the loop of `sema_down` a thread remembers the interrupt status it found. -/
inductive SemaPlace
  | outside
  | waiting (oldStatus : IntrStatus)

/-- A semaphore and the threads that use it. -/
structure SemaWorld where
  sched : Threads
  sema : Semaphore
  place : Nat → SemaPlace

inductive SemaCall
  /-- what the threads do besides -/
  | thread (e : ThreadCall)
  /-- the order in which ready threads come to run is left open -/
  | reorder (l : List Nat)
  /-- the running thread calls `sema_down` -/
  | down
  /-- the running thread was woken inside it and tests the value again -/
  | again
  | up

namespace SemaWorld

def setPlace (w : SemaWorld) (place : SemaPlace) : Nat → SemaPlace :=
  fun t => if t = w.sched.running then place else w.place t

/-- A round of the loop by the running thread. -/
def round (w : SemaWorld) (oldStatus : IntrStatus) : Except Fault SemaWorld := do
  let (taken, sched, sema) ← semaRound w.sched w.sema
  if taken then
    return { sched := sched.setIntr oldStatus, sema, place := w.setPlace .outside }
  else return { sched, sema, place := w.setPlace (.waiting oldStatus) }

/-- A woken thread goes on inside `sema_down`, with interrupts off, and is woken by
`sema_up` alone. The idle thread makes no calls but its own. -/
def guard (w : SemaWorld) : SemaCall → Prop
  | .thread e => w.place w.sched.running = .outside ∧ w.sched.guard e ∧
      ∀ t, e = .unblock t → w.place t = .outside
  | .reorder l => l.Perm w.sched.threadReadyList
  | .down => w.place w.sched.running = .outside ∧ w.sched.running ≠ w.sched.idleThread
  | .again => w.place w.sched.running ≠ .outside
  | .up => w.place w.sched.running = .outside ∧ w.sema.value = 0

def exec (w : SemaWorld) : SemaCall → Except Fault SemaWorld
  | .thread e => return { w with sched := ← w.sched.exec e }
  | .reorder l => return { w with sched := w.sched.setReady l }
  | .down => { w with sched := w.sched.setIntr .INTR_OFF }.round w.sched.intr
  | .again =>
    match w.place w.sched.running with
    | .outside => return w
    | .waiting oldStatus => w.round oldStatus
  | .up => do
    let (sched, sema) ← semaUp w.sched w.sema
    return { w with sched, sema }

def system : Guarded.System SemaWorld SemaCall Fault := ⟨guard, exec⟩

def start (s : Threads) (value : UInt8) : SemaWorld := ⟨s, semaInit value, fun _ => .outside⟩

/-- The threads inside the loop. -/
def Waits (w : SemaWorld) (t : Nat) : Prop := w.place t ≠ .outside

end SemaWorld

/-- The waiters stand once each in the list, blocked and not ready; and while the value
is there to take and somebody waits, a woken thread is on its way to the test. -/
structure NoWakeUpLost (w : SemaWorld) : Prop where
  nodup : w.sema.waiters.Nodup
  waiters : ∀ t ∈ w.sema.waiters,
    (w.sched.task t).status = .TASK_BLOCKED ∧ t ∉ w.sched.threadReadyList
  woken : w.sema.value = 1 → w.sema.waiters ≠ [] → ∃ t, w.Waits t ∧ t ∉ w.sema.waiters ∧
    ((w.sched.task t).status = .TASK_READY ∧ t ∈ w.sched.threadReadyList ∨ t = w.sched.running)

theorem Waiters.congr {s : Threads} {psema : Semaphore} {W W' : Nat → Prop}
    (h : Waiters s psema W) (hW : ∀ t, W' t ↔ W t) : Waiters s psema W' := by
  obtain rfl : W' = W := funext fun t => propext (hW t)
  exact h

/-- A round keeps the list in order, whoever comes to the test. -/
theorem SemaWorld.round_waiters {w w' : SemaWorld} {oldStatus : IntrStatus}
    (h : Waiters w.sched w.sema w.Waits) (hidle : w.sched.running ≠ w.sched.idleThread)
    (hr : w.round oldStatus = .ok w') : Waiters w'.sched w'.sema w'.Waits := by
  by_cases hz : w.sema.value = 0
  · obtain ⟨s', hround, hw, -⟩ := h.round_blocks hz hidle
    simp only [round, hround, ok_bind] at hr
    cases hr
    apply hw.congr
    intro t
    unfold Waits setPlace
    by_cases he : t = w.sched.running
    · simp [he]
    · simp [he]
  · have hone : w.sema.value = 1 := by
      simp only [round, semaRound, hz, ↓reduceIte, bind_ok] at hr
      obtain ⟨_, ⟨_, hassert, -⟩, -⟩ := hr
      have := congrArg (· + 1) (ASSERT_ok hassert)
      simpa using this
    obtain ⟨hround, hw⟩ := h.round_takes hone
    simp only [round, hround, ok_bind] at hr
    cases hr
    refine (hw.setIntr oldStatus).congr fun t => ?_
    unfold Waits setPlace
    by_cases he : t = w.sched.running
    · simp [he]
    · simp [he]

theorem semaphore_preserves :
    Guarded.Preserves SemaWorld.system fun w => Waiters w.sched w.sema w.Waits := by
  intro w e w' h hg he
  cases e with
  | thread e =>
    obtain ⟨hout, hguard, hunblock⟩ := hg
    obtain ⟨s', hs', hw, -⟩ := h.exec_ok hguard (fun _ _ hw => hw hout)
      fun t ht hw => hw (hunblock t ht)
    obtain ⟨_, hs, he⟩ := bind_ok.mp he
    obtain rfl := Except.ok.inj (hs.symm.trans hs')
    cases he
    exact hw
  | reorder l =>
    cases he
    exact h.reorder hg
  | down =>
    exact SemaWorld.round_waiters (w := { w with sched := w.sched.setIntr .INTR_OFF })
      (h.setIntr .INTR_OFF) hg.2 he
  | again =>
    have hidle := (h.known _ hg).2
    cases hp : w.place w.sched.running with
    | outside => exact absurd hp hg
    | waiting oldStatus =>
      simp only [SemaWorld.system, SemaWorld.exec, hp] at he
      exact SemaWorld.round_waiters h hidle he
  | up =>
    obtain ⟨s', hs', hw, -⟩ := h.up_ok hg.2
    simp only [SemaWorld.system, SemaWorld.exec, hs', ok_bind] at he
    cases he
    exact hw

/-- No wake-up is lost in any run of one semaphore, whatever its first value. -/
theorem semaphore_run {s : Threads} (hs : SchedOk s) (value : UInt8) {calls : List SemaCall}
    {w : SemaWorld} (hrun : Guarded.Run SemaWorld.system (.start s value) calls w) :
    NoWakeUpLost w := by
  have hstart : Waiters s (semaInit value) (SemaWorld.start s value).Waits :=
    ⟨hs, fun t ht => absurd rfl ht, List.nodup_nil, fun t ht => (nomatch ht),
      fun t ht => absurd rfl ht, fun _ hne => absurd rfl hne⟩
  have h := hrun.preserved semaphore_preserves hstart
  refine ⟨h.nodup, fun t ht => ⟨(h.mem t ht).2, h.sched.not_ready (h.blocked ht).not_ready⟩,
    fun hone hne => ?_⟩
  obtain ⟨t, hw, hnot⟩ := h.wake hone hne
  have hall := (h.known t hw).1
  refine ⟨t, hw, hnot, ?_⟩
  by_cases hrun : t = w.sched.running
  · exact .inr hrun
  · exact .inl (h.sched.ready_of hall (fun he => hrun ((h.sched.one t hall).mp he))
      (h.woken t hw hnot))

/-- The main thread takes the semaphore of a lock. -/
theorem semaphore_run_down : ∃ w,
    Guarded.Run SemaWorld.system (.start bootedThreads 1) [.down] w ∧ NoWakeUpLost w := by
  have hok := threadInit_ok threadInit_booted
  have hg : SemaWorld.guard (.start bootedThreads 1) .down := ⟨rfl, by decide⟩
  have hrun : Guarded.Run SemaWorld.system (.start bootedThreads 1) [.down] _ :=
    .cons hg rfl (.nil _)
  exact ⟨_, hrun, semaphore_run hok 1 hrun⟩

end ZhuOS
